/-
  Subject:   Which inputs `inflate_def` and `inflate_gzip` come to an end on (`stdlib/archive/mod.vyb`).

  Past the end of the input all bits are 0. The block loop then meets a stored block whose two lengths do not
  agree and returns, and the loop over the code lengths is bounded by their number. `decode_run` only ends at
  symbol 256: once the input is used up it reads the all-zero word again and again.

  * `SymbolAt`, `BlockAt` -- where the symbols of a text and the blocks of an input begin;
  * `NeverEnds` -- no symbol 256 begins inside the input, and the all-zero word is another symbol, or none;
  * **`decodeRun_halts_iff`** -- that is exactly when `decode_run` goes on for ever. With the fixed codes the
    all-zero word is 256, so only blocks with codes of their own can do that (`Runaway`).
  * `runaway_not_halts`, `halts_of_not_runaway` -- the same for whole inputs.
-/
import Vyb.Stdlib.Deflate

namespace Vyb.Stdlib

open Lib Collections Vyb.Runtime Str Deflate List Fueled Nat

/-! ## 1. Symbols -/

variable {p : Nat} {data : Str}

theorem bitAt_of_le (h : 8 * data.length ≤ p) : bitAt data p = 0 := by
  rw [bitAt_eq, getElem?_eq_none (by rwa [length_bitsOf])]
  rfl

theorem valAt_of_le {p : Nat} (h : 8 * data.length ≤ p) : ∀ n, valAt data p n = 0
  | 0 => rfl
  | n + 1 => by rw [valAt_succ, valAt_of_le h n, bitAt_of_le (by omega), Nat.mul_zero]

theorem lt_pos_decodeFrom (data : Str) (h : Huff) : ∀ (rounds len code first index p : Nat),
    p + min rounds 1 ≤ (decodeFrom data h rounds len code first index p).pos
  | 0, len, code, first, index, p => le_refl _
  | rounds + 1, len, code, first, index, p => by
    rw [decodeFrom]
    split
    · exact Nat.add_le_add_left (Nat.min_le_right _ _) p
    · have ih := lt_pos_decodeFrom data h rounds (len + 1)
        ((code ||| valAt data p 1) <<< 1) ((first + Vec.get h.count len) <<< 1)
        (index + Vec.get h.count len) (p + 1)
      omega

theorem lt_pos_decodeSymbol (data : Str) (p : Nat) (h : Huff) : p < (decodeSymbol data p h).pos :=
  lt_pos_decodeFrom data h 15 1 0 0 0 p

/-- A symbol depends on the bits ahead only. -/
theorem decodeFrom_congr {data data' : Str} (h : Huff) : ∀ (rounds len code first index : Nat) {p p' : Nat},
    (∀ k, bitAt data (p + k) = bitAt data' (p' + k)) →
    (decodeFrom data h rounds len code first index p).val =
      (decodeFrom data' h rounds len code first index p').val
  | 0, _, _, _, _, _, _, _ => rfl
  | rounds + 1, len, code, first, index, p, p', hbits => by
    have hbit : valAt data p 1 = valAt data' p' 1 := by
      rw [valAt_one, valAt_one]
      exact hbits 0
    rw [decodeFrom, decodeFrom, hbit]
    split
    · rfl
    · refine decodeFrom_congr h rounds _ _ _ _ fun k => ?_
      rw [add_assoc, add_assoc]
      exact hbits (1 + k)

/-- The symbol of the all-zero word, -1 if there is none. -/
def zeroWord (h : Huff) : Int := (decodeSymbol [] 0 h).val

theorem decodeSymbol_zeros (h : Huff) (hbits : ∀ k, bitAt data (p + k) = 0) :
    (decodeSymbol data p h).val = zeroWord h :=
  decodeFrom_congr h 15 1 0 0 0 fun k => (hbits k).trans (bitAt_of_le (zero_le _)).symm

theorem decodeSymbol_of_le (h : Huff) (hp : 8 * data.length ≤ p) :
    (decodeSymbol data p h).val = zeroWord h :=
  decodeSymbol_zeros h fun _ => bitAt_of_le (by omega)

/-- The fixed code gives 256 the word of seven zeros. -/
theorem zeroWord_fixed : zeroWord (buildHuff fixedLitLens) = 256 := by
  have hcode : CodeOf fixedLit 256 (replicate 7 false) := by decide +kernel
  have hahead : Ahead [0] 0 (replicate 7 false ++ [false]) := Ahead.start [0]
  have hsym := decodeSymbol_code fixedLit_le hcode hahead
  have hbits : ∀ k, bitAt [0] (0 + k) = 0 := by
    intro k
    rcases lt_or_ge k 8 with hk | hk
    · interval_cases k <;> rfl
    · exact bitAt_of_le (by simpa using hk)
  rw [fixedLitLens_eq, ← decodeSymbol_zeros _ hbits, hsym]
  rfl

/-- A code without words: after 15 bits the answer is -1. -/
theorem decodeFrom_of_count {h : Huff} (hcount : ∀ len : Nat, Vec.get h.count len = 0) :
    ∀ (rounds len code index p : Nat), (decodeFrom data h rounds len code 0 index p).val = -1
  | 0, _, _, _, _ => rfl
  | rounds + 1, len, code, index, p => by
    rw [decodeFrom, hcount, if_neg (by omega)]
    exact decodeFrom_of_count hcount rounds _ _ _ _

theorem decodeSymbol_no_words {lens : Vec Int} (h : ∀ ℓ ∈ lens, ℓ ≤ 0) (data : Str) (p : Nat) :
    (decodeSymbol data p (buildHuff lens)).val = -1 := by
  refine decodeFrom_of_count (fun len => ?_) 15 1 0 0 p
  have hzero : countLengths lens = replicate 16 0 := by
    rw [countLengths]
    induction lens with
    | nil => rfl
    | cons ln lens ih =>
      have hln := h ln mem_cons_self
      rw [foldl_cons, if_neg (by omega)]
      exact ih fun ℓ hℓ => h ℓ (mem_cons_of_mem ln hℓ)
  show Vec.get (countLengths lens) len = 0
  rw [hzero, Vec.get_natCast, getD_eq_getElem?_getD, getElem?_replicate]
  split <;> rfl

/-! ## 2. The text of a block -/

/-- Where the symbol after the one at `p` begins. -/
def nextSymbol (lh dh : Huff) (data : Str) (p : Nat) : Nat :=
  let d := decodeSymbol data p lh
  if d.val < 256 then d.pos else (backReference dh data d.val d.pos []).pos

/-- The symbols of a text that begins at `start`; 256 is the last one. -/
inductive SymbolAt (lh dh : Huff) (data : Str) (start : Nat) : Nat → Prop
  | first : SymbolAt lh dh data start start
  | next {p : Nat} : SymbolAt lh dh data start p → (decodeSymbol data p lh).val ≠ 256 →
      SymbolAt lh dh data start (nextSymbol lh dh data p)

/-- No end of the text in the input, and none in the zeros behind it. -/
def NeverEnds (lh dh : Huff) (data : Str) (start : Nat) : Prop :=
  zeroWord lh ≠ 256 ∧
    ∀ p, SymbolAt lh dh data start p → p < 8 * data.length → (decodeSymbol data p lh).val ≠ 256

variable {s s' : Filled} {start : Nat}

section Run

variable {lh dh : Huff} {data : Str}

theorem lt_nextSymbol (p : Nat) : p < nextSymbol lh dh data p := by
  have hlt := lt_pos_decodeSymbol data p lh
  rw [nextSymbol]
  split
  · exact hlt
  · have hd := lt_pos_decodeSymbol data ((decodeSymbol data p lh).pos +
      Vec.get lenExtraTbl ((decodeSymbol data p lh).val - 257)) dh
    simp only [backReference]
    omega

theorem SymbolAt.le (h : SymbolAt lh dh data start p) : start ≤ p := by
  induction h with
  | first => exact le_refl _
  | @next p _ _ ih =>
    have := @lt_nextSymbol lh dh data p
    omega

/-- A round of `decode_run`: it leaves at 256 and goes on to the next symbol otherwise. -/
theorem runBody_cases (s : Filled) :
    ((decodeSymbol data s.pos lh).val = 256 ∧
      runBody lh dh data s = .inr ⟨(decodeSymbol data s.pos lh).pos, s.out⟩) ∨
    ((decodeSymbol data s.pos lh).val ≠ 256 ∧
      ∃ out, runBody lh dh data s = .inl ⟨nextSymbol lh dh data s.pos, out⟩) := by
  by_cases h : (decodeSymbol data s.pos lh).val = 256
  · exact .inl ⟨h, by simp only [runBody, h, if_true]⟩
  · refine .inr ⟨h, ?_⟩
    simp only [runBody, h, if_false, nextSymbol]
    split
    · exact ⟨_, rfl⟩
    · exact ⟨_, rfl⟩

/-- The loop of `decode_run` comes to each symbol. -/
theorem comes_symbolAt (h : SymbolAt lh dh data start p) (out : Vec Int) :
    ∃ out', Comes (fun s => pure (runBody lh dh data s)) ⟨start, out⟩ ⟨p, out'⟩ := by
  induction h with
  | first => exact ⟨out, .refl⟩
  | @next p _ hp ih =>
    obtain ⟨out', hcomes⟩ := ih
    rcases @runBody_cases lh dh data ⟨p, out'⟩ with ⟨he, _⟩ | ⟨_, out'', hbody⟩
    · exact absurd he hp
    · exact ⟨out'', hcomes.tail (returns_pure.mpr hbody)⟩

theorem symbolAt_next (hs : SymbolAt lh dh data start s.pos)
    (h : Next (fun s => pure (runBody lh dh data s)) s s') : SymbolAt lh dh data start s'.pos := by
  have hbody : runBody lh dh data s = .inl s' := returns_pure.mp h
  rcases @runBody_cases lh dh data s with ⟨_, he⟩ | ⟨hne, out, he⟩
  · rw [he] at hbody
    cases hbody
  · rw [he] at hbody
    cases hbody
    exact hs.next hne

/-- What `decode_run` returns: the position behind the symbol 256. -/
theorem decodeRun_returns {out : Vec Int} (h : (decodeRun lh dh data start out).Returns s) :
    ∃ p, SymbolAt lh dh data start p ∧ (decodeSymbol data p lh).val = 256 ∧
      s.pos = (decodeSymbol data p lh).pos := by
  obtain ⟨s', hcomes, hexit⟩ := loop_returns_iff.mp h
  have hs' := comes_invariant (fun _ _ => symbolAt_next) SymbolAt.first hcomes
  have hbody : runBody lh dh data s' = .inr s := returns_pure.mp hexit
  rcases @runBody_cases lh dh data s' with ⟨hv, he⟩ | ⟨_, out, he⟩
  · rw [he] at hbody
    cases hbody
    exact ⟨s'.pos, hs', hv, rfl⟩
  · rw [he] at hbody
    cases hbody

theorem decodeRun_halts_of_symbol (out : Vec Int) (h : SymbolAt lh dh data start p)
    (hp : (decodeSymbol data p lh).val = 256) :
    ∃ out', (decodeRun lh dh data start out).Returns ⟨(decodeSymbol data p lh).pos, out'⟩ := by
  obtain ⟨out', hcomes⟩ := comes_symbolAt h out
  refine ⟨out', loop_returns_iff.mpr ⟨_, hcomes, returns_pure.mpr ?_⟩⟩
  rcases @runBody_cases lh dh data ⟨p, out'⟩ with ⟨_, he⟩ | ⟨hne, _⟩
  · exact he
  · exact absurd hp hne

/-- With zeros for the end of a block the rounds inside the input are the only ones. -/
theorem decodeRun_halts_of_zeroWord (h : zeroWord lh = 256) (start : Nat) (out : Vec Int) :
    (decodeRun lh dh data start out).Halts := by
  refine loop_halts (fun s => 8 * data.length - s.pos) (fun _ => True) (fun s _ => halts_pure _) ?_
    trivial
  intro s s' _ hnext
  have hbody : runBody lh dh data s = .inl s' := returns_pure.mp hnext
  refine ⟨trivial, ?_⟩
  rcases @runBody_cases lh dh data s with ⟨_, he⟩ | ⟨hne, out', he⟩
  · rw [he] at hbody
    cases hbody
  · rw [he] at hbody
    cases hbody
    have hlt := @lt_nextSymbol lh dh data s.pos
    have hin : s.pos < 8 * data.length := by
      by_contra hge
      exact hne ((decodeSymbol_of_le lh (by omega)).trans h)
    show 8 * data.length - nextSymbol lh dh data s.pos < _
    omega

/-- **When `decode_run` comes to an end.** -/
theorem decodeRun_halts_iff {out : Vec Int} :
    (decodeRun lh dh data start out).Halts ↔ ¬ NeverEnds lh dh data start := by
  constructor
  · rintro ⟨s, hs⟩ ⟨hzero, hinside⟩
    obtain ⟨p, hp, hv, _⟩ := decodeRun_returns hs
    rcases lt_or_ge p (8 * data.length) with hlt | hge
    · exact hinside p hp hlt hv
    · exact hzero ((decodeSymbol_of_le lh hge).symm.trans hv)
  · intro h
    by_cases hzero : zeroWord lh = 256
    · exact decodeRun_halts_of_zeroWord hzero start out
    · have hex : ∃ p, SymbolAt lh dh data start p ∧ (decodeSymbol data p lh).val = 256 := by
        by_contra hno
        exact h ⟨hzero, fun p hp _ hv => hno ⟨p, hp, hv⟩⟩
      obtain ⟨p, hp, hv⟩ := hex
      obtain ⟨out', hret⟩ := decodeRun_halts_of_symbol out hp hv
      exact ⟨_, hret⟩

end Run

/-! ## 3. The head of a block -/

theorem length_lt_lengthStep (src : Str) (ch : Huff) (s : Filled) :
    s.out.length < (lengthStep src ch s).out.length := by
  rw [lengthStep]
  split
  · simp [Vec.push]
  · split
    · simp
    · split
      · simp
      · simp

theorem pos_le_lengthStep (src : Str) (ch : Huff) (s : Filled) : s.pos ≤ (lengthStep src ch s).pos := by
  have hlt := lt_pos_decodeSymbol src s.pos ch
  rw [lengthStep]
  split
  · exact le_of_lt hlt
  · split
    · exact le_trans (le_of_lt hlt) (le_add_right _ _)
    · split
      all_goals exact le_trans (le_of_lt hlt) (le_add_right _ _)

variable {src : Str}

theorem lengthBody_inl {ch : Huff} {total : Nat}
    (h : Next (fun s => pure (lengthBody src ch total s)) s s') :
    s.out.length < total ∧ s' = lengthStep src ch s := by
  have hbody : lengthBody src ch total s = .inl s' := returns_pure.mp h
  rw [lengthBody] at hbody
  split at hbody
  · exact ⟨‹_›, (Sum.inl.inj hbody).symm⟩
  · cases hbody

/-- Every round brings a length, and their number is fixed. -/
theorem readLengths_halts (src : Str) (ch : Huff) (total p : Nat) : (readLengths src ch total p).Halts := by
  refine loop_halts (fun s => total - s.out.length) (fun _ => True) (fun s _ => halts_pure _) ?_
    trivial
  intro s s' _ hnext
  obtain ⟨hlt, rfl⟩ := lengthBody_inl hnext
  have := length_lt_lengthStep src ch s
  exact ⟨trivial, by omega⟩

theorem dynamicTables_halts (src : Str) (p : Nat) : (dynamicTables src p).Halts := by
  obtain ⟨s, hs⟩ := readLengths_halts src _ _ _
  exact halts_bind.mpr ⟨s, hs, halts_pure _⟩

/-- What every step keeps holds of the lengths that are read. -/
theorem readLengths_invariant {ch : Huff} {total : Nat} {I : Filled → Prop}
    (hstep : ∀ s, I s → I (lengthStep src ch s)) (hstart : I ⟨p, []⟩)
    (h : (readLengths src ch total p).Returns s) : I s := by
  obtain ⟨s', hcomes, hexit⟩ := loop_returns_iff.mp h
  have hI : I s' := by
    refine comes_invariant (fun s s' hs hnext => ?_) hstart hcomes
    obtain ⟨_, rfl⟩ := lengthBody_inl hnext
    exact hstep s hs
  have hbody : lengthBody src ch total s' = .inr s := returns_pure.mp hexit
  rw [lengthBody] at hbody
  split at hbody
  · cases hbody
  · exact Sum.inr.inj hbody ▸ hI

theorem dynamicTables_pos {t : Tables} (h : (dynamicTables src p).Returns t) :
    p + 14 ≤ t.pos := by
  obtain ⟨s, hs, ht⟩ := returns_bind.mp h
  obtain rfl := returns_pure.mp ht
  exact readLengths_invariant (I := fun s => p + 14 ≤ s.pos)
    (fun s hle => le_trans hle (pos_le_lengthStep src _ s)) (le_add_right _ _) hs

/-- Where no length has a code there are no words either. -/
theorem dynamicTables_no_words {t : Tables} (h : (dynamicTables src p).Returns t)
    (hcode : ∀ ℓ ∈ codeLens src (p + 14) (valAt src (p + 10) 4 + 4), ℓ ≤ 0) : zeroWord t.lit = -1 := by
  obtain ⟨s, hs, ht⟩ := returns_bind.mp h
  obtain rfl := returns_pure.mp ht
  have hlens : ∀ ℓ ∈ s.out, ℓ ≤ 0 := by
    refine readLengths_invariant (I := fun s => ∀ ℓ ∈ s.out, ℓ ≤ 0) (fun s hs => ?_) (by simp) hs
    have hsym := decodeSymbol_no_words hcode src s.pos
    simp only [lengthStep, hsym]
    rw [if_pos (by omega)]
    intro ℓ hℓ
    rcases mem_append.mp hℓ with hℓ | hℓ
    · exact hs ℓ hℓ
    · rw [mem_singleton.mp hℓ]
      omega
  refine decodeSymbol_no_words (fun ℓ hℓ => ?_) [] 0
  obtain ⟨i, _, rfl⟩ := mem_map.mp hℓ
  rw [Vec.get_natCast, getD_eq_getElem?_getD]
  cases hget : s.out[i]? with
  | none => exact le_refl _
  | some ℓ => exact hlens ℓ (mem_of_getElem? hget)

/-! ## 4. Blocks -/

/-- The text that begins at `start` ends before `q`. -/
def EndsAt (lh dh : Huff) (data : Str) (start q : Nat) : Prop :=
  ∃ p, SymbolAt lh dh data start p ∧ (decodeSymbol data p lh).val = 256 ∧ q = (decodeSymbol data p lh).pos

/-- The positions of the blocks: the first one is at 0, and one that is not final is followed by another. -/
inductive BlockAt (src : Str) : Nat → Prop
  | first : BlockAt src 0
  | stored {p : Nat} {s : Filled} : BlockAt src p → valAt src p 1 ≠ 1 → valAt src (p + 1) 2 = 0 →
      storedBlock src (p + 3) [] = some s → BlockAt src s.pos
  | fixed {p q : Nat} : BlockAt src p → valAt src p 1 ≠ 1 → valAt src (p + 1) 2 = 1 →
      EndsAt (buildHuff fixedLitLens) (buildHuff fixedDistLens) src (p + 3) q → BlockAt src q
  | dynamic {p q : Nat} {t : Tables} : BlockAt src p → valAt src p 1 ≠ 1 → valAt src (p + 1) 2 = 2 →
      (dynamicTables src (p + 3)).Returns t → EndsAt t.lit t.dist src t.pos q → BlockAt src q

/-- A block with codes of its own whose text never ends. -/
def Runaway (src : Str) : Prop :=
  ∃ p t, BlockAt src p ∧ valAt src (p + 1) 2 = 2 ∧ (dynamicTables src (p + 3)).Returns t ∧
    NeverEnds t.lit t.dist src t.pos

section Blocks

variable {src : Str}

theorem storedBlock_pos {p : Nat} {out out' : Vec Int} {s : Filled} (h : storedBlock src p out = some s) :
    p ≤ s.pos ∧ ∃ s', storedBlock src p out' = some s' ∧ s'.pos = s.pos := by
  simp only [storedBlock] at h ⊢
  split at h
  · cases h
  · rename_i heq
    cases h
    rw [if_neg heq]
    exact ⟨by simp only; omega, _, rfl, rfl⟩

theorem blockBody_refused (htype : valAt src (s.pos + 1) 2 = 0) (h : storedBlock src (s.pos + 3) s.out = none) :
    blockBody src s = pure (.inr s.out) := by
  simp only [blockBody, htype, h, if_true]

theorem blockBody_stored {s s' : Filled} (htype : valAt src (s.pos + 1) 2 = 0)
    (h : storedBlock src (s.pos + 3) s.out = some s') :
    blockBody src s = pure (afterBlock (valAt src s.pos 1) s') := by
  simp only [blockBody, htype, h, if_true]

theorem blockBody_fixed {s : Filled} (htype : valAt src (s.pos + 1) 2 = 1) :
    blockBody src s = (do
      let s' ← decodeRun (buildHuff fixedLitLens) (buildHuff fixedDistLens) src (s.pos + 3) s.out
      return afterBlock (valAt src s.pos 1) s') := by
  simp only [blockBody, htype]
  rfl

theorem blockBody_dynamic {s : Filled} (htype : valAt src (s.pos + 1) 2 = 2) :
    blockBody src s = (do
      let t ← dynamicTables src (s.pos + 3)
      let s' ← decodeRun t.lit t.dist src t.pos s.out
      return afterBlock (valAt src s.pos 1) s') := by
  simp only [blockBody, htype]
  rfl

theorem blockBody_reserved (htype : valAt src (s.pos + 1) 2 = 3) : blockBody src s = pure (.inr s.out) := by
  simp only [blockBody, htype]
  rfl

theorem blockType_cases (src : Str) (p : Nat) :
    valAt src p 2 = 0 ∨ valAt src p 2 = 1 ∨ valAt src p 2 = 2 ∨ valAt src p 2 = 3 := by
  have := valAt_lt src p 2
  omega

theorem afterBlock_inl {b : Nat} : afterBlock b s = .inl s' ↔ b ≠ 1 ∧ s = s' := by
  rw [afterBlock]
  split
  · simp_all
  · simp_all

/-- **What a round that goes on has seen.** -/
theorem next_cases (h : Next (blockBody src) s s') : valAt src s.pos 1 ≠ 1 ∧
    ((valAt src (s.pos + 1) 2 = 0 ∧ storedBlock src (s.pos + 3) s.out = some s') ∨
     (valAt src (s.pos + 1) 2 = 1 ∧
      EndsAt (buildHuff fixedLitLens) (buildHuff fixedDistLens) src (s.pos + 3) s'.pos) ∨
     (valAt src (s.pos + 1) 2 = 2 ∧ ∃ t, (dynamicTables src (s.pos + 3)).Returns t ∧
      EndsAt t.lit t.dist src t.pos s'.pos)) := by
  rw [Next] at h
  rcases blockType_cases src (s.pos + 1) with htype | htype | htype | htype
  · cases hstored : storedBlock src (s.pos + 3) s.out with
    | none =>
      rw [blockBody_refused htype hstored] at h
      cases returns_pure.mp h
    | some t =>
      rw [blockBody_stored htype hstored] at h
      obtain ⟨hmore, rfl⟩ := afterBlock_inl.mp (returns_pure.mp h)
      exact ⟨hmore, .inl ⟨htype, rfl⟩⟩
  · rw [blockBody_fixed htype] at h
    obtain ⟨t, hrun, ht⟩ := returns_bind.mp h
    obtain ⟨hmore, rfl⟩ := afterBlock_inl.mp (returns_pure.mp ht)
    exact ⟨hmore, .inr (.inl ⟨htype, decodeRun_returns hrun⟩)⟩
  · rw [blockBody_dynamic htype] at h
    obtain ⟨tables, htables, hrest⟩ := returns_bind.mp h
    obtain ⟨t, hrun, ht⟩ := returns_bind.mp hrest
    obtain ⟨hmore, rfl⟩ := afterBlock_inl.mp (returns_pure.mp ht)
    exact ⟨hmore, .inr (.inr ⟨htype, tables, htables, decodeRun_returns hrun⟩)⟩
  · rw [blockBody_reserved htype] at h
    cases returns_pure.mp h

theorem EndsAt.lt {lh dh : Huff} {q : Nat} (h : EndsAt lh dh src start q) : start < q := by
  obtain ⟨p, hp, _, rfl⟩ := h
  exact lt_of_le_of_lt hp.le (lt_pos_decodeSymbol src p lh)

/-- A round leads from block to block, and forward. -/
theorem blockAt_next (hs : BlockAt src s.pos) (h : Next (blockBody src) s s') :
    BlockAt src s'.pos ∧ s.pos < s'.pos := by
  obtain ⟨hmore, ⟨htype, hstored⟩ | ⟨htype, hends⟩ | ⟨htype, t, ht, hends⟩⟩ := next_cases h
  · obtain ⟨hle, t, ht, hpos⟩ := @storedBlock_pos src (s.pos + 3) s.out [] s' hstored
    exact ⟨hpos ▸ BlockAt.stored hs hmore htype ht, by omega⟩
  · have := hends.lt
    exact ⟨BlockAt.fixed hs hmore htype hends, by omega⟩
  · have := hends.lt
    have := dynamicTables_pos ht
    exact ⟨BlockAt.dynamic hs hmore htype ht hends, by omega⟩

/-- Past the end a block is a stored one, and refused. -/
theorem lt_of_next (h : Next (blockBody src) s s') : s.pos < 8 * src.length := by
  by_contra hge
  have htype : valAt src (s.pos + 1) 2 = 0 := valAt_of_le (by omega) 2
  have hlen : valAt src ((s.pos + 3 + 7) / 8 * 8) 16 = 0 := valAt_of_le (by omega) 16
  have hnlen : valAt src ((s.pos + 3 + 7) / 8 * 8 + 16) 16 = 0 := valAt_of_le (by omega) 16
  have hstored : storedBlock src (s.pos + 3) s.out = none := by
    simp only [storedBlock, hlen, hnlen]
    rfl
  rw [Next, blockBody_refused htype hstored] at h
  cases returns_pure.mp h

/-- The block at `s` is decoded, unless it is one that never ends. -/
theorem blockBody_halts (h : ∀ t, valAt src (s.pos + 1) 2 = 2 →
    (dynamicTables src (s.pos + 3)).Returns t → ¬ NeverEnds t.lit t.dist src t.pos) :
    (blockBody src s).Halts := by
  rcases blockType_cases src (s.pos + 1) with htype | htype | htype | htype
  · cases hstored : storedBlock src (s.pos + 3) s.out with
    | none => exact blockBody_refused htype hstored ▸ halts_pure _
    | some t => exact blockBody_stored htype hstored ▸ halts_pure _
  · rw [blockBody_fixed htype]
    have hrun : (decodeRun (buildHuff fixedLitLens) (buildHuff fixedDistLens) src (s.pos + 3)
      s.out).Halts := decodeRun_halts_of_zeroWord zeroWord_fixed _ _
    obtain ⟨t, ht⟩ := hrun
    exact halts_bind.mpr ⟨t, ht, halts_pure _⟩
  · rw [blockBody_dynamic htype]
    obtain ⟨t, ht⟩ := dynamicTables_halts src (s.pos + 3)
    obtain ⟨s', hs'⟩ := decodeRun_halts_iff.mpr (h t htype ht)
    exact halts_bind.mpr ⟨t, ht, halts_bind.mpr ⟨s', hs', halts_pure _⟩⟩
  · exact blockBody_reserved htype ▸ halts_pure _

theorem comes_blockAt (h : BlockAt src p) : ∃ out, Comes (blockBody src) ⟨0, []⟩ ⟨p, out⟩ := by
  induction h with
  | first => exact ⟨[], .refl⟩
  | @stored p s _ hmore htype hstored ih =>
    obtain ⟨out, hcomes⟩ := ih
    obtain ⟨_, ⟨q, out'⟩, hs', rfl⟩ := @storedBlock_pos src (p + 3) [] out s hstored
    refine ⟨out', hcomes.tail ?_⟩
    rw [Next, @blockBody_stored src ⟨p, out⟩ _ htype hs']
    exact returns_pure.mpr (afterBlock_inl.mpr ⟨hmore, rfl⟩)
  | @fixed p q _ hmore htype hends ih =>
    obtain ⟨out, hcomes⟩ := ih
    obtain ⟨r, hr, hv, hq⟩ := hends
    obtain ⟨out', hrun⟩ := decodeRun_halts_of_symbol out hr hv
    rw [← hq] at hrun
    refine ⟨out', hcomes.tail ?_⟩
    rw [Next, @blockBody_fixed src ⟨p, out⟩ htype]
    exact returns_bind.mpr
      ⟨_, hrun, returns_pure.mpr (afterBlock_inl.mpr ⟨hmore, rfl⟩)⟩
  | @dynamic p q t _ hmore htype ht hends ih =>
    obtain ⟨out, hcomes⟩ := ih
    obtain ⟨r, hr, hv, hq⟩ := hends
    obtain ⟨out', hrun⟩ := decodeRun_halts_of_symbol out hr hv
    rw [← hq] at hrun
    refine ⟨out', hcomes.tail ?_⟩
    rw [Next, @blockBody_dynamic src ⟨p, out⟩ htype]
    exact returns_bind.mpr ⟨t, ht, returns_bind.mpr
      ⟨_, hrun, returns_pure.mpr (afterBlock_inl.mpr ⟨hmore, rfl⟩)⟩⟩

/-! ## 5. Whole inputs -/

theorem runaway_not_halts (h : Runaway src) : ¬ (inflateDef src).Halts := by
  obtain ⟨p, t, hp, htype, ht, hnever⟩ := h
  obtain ⟨out, hcomes⟩ := comes_blockAt hp
  refine not_halts_of_comes hcomes ?_
  rw [@blockBody_dynamic src ⟨p, out⟩ htype]
  rintro hhalts
  obtain ⟨t', ht', hrest⟩ := halts_bind.mp hhalts
  obtain rfl := ht.unique ht'
  obtain ⟨s, hs, _⟩ := halts_bind.mp hrest
  exact decodeRun_halts_iff.mp ⟨s, hs⟩ hnever

theorem halts_of_not_runaway (h : ¬ Runaway src) : (inflateDef src).Halts := by
  refine loop_halts (fun s => 8 * src.length - s.pos) (fun s => BlockAt src s.pos) (fun s hs => ?_)
    (fun s s' hs hnext => ?_) BlockAt.first
  · exact blockBody_halts fun t htype ht hnever => h ⟨s.pos, t, hs, htype, ht, hnever⟩
  · obtain ⟨hs', hlt⟩ := blockAt_next hs hnext
    have hin := lt_of_next hnext
    exact ⟨hs', by omega⟩

end Blocks

/-- After the decoding nothing in `inflate_gzip` can fail to end. -/
theorem inflateGzip_halts {gz src : Str} (h : gzipBody gz = some src) :
    (inflateGzip gz).Halts ↔ (inflateDef src).Halts := by
  rw [inflateGzip, h]
  refine halts_bind.trans ⟨fun ⟨a, ha, _⟩ => ⟨a, ha⟩, fun ⟨a, ha⟩ => ⟨a, ha, ?_⟩⟩
  simp only
  split
  · exact halts_pure _
  · split
    · exact halts_pure _
    · exact halts_pure _

/-- **Decoding comes to an end exactly on the inputs without a runaway block.** -/
theorem inflate_halts_iff (src gz : Str) :
    ((inflateDef src).Halts ↔ ¬ Runaway src) ∧
      ((inflateGzip gz).Halts ↔ ∀ body, gzipBody gz = some body → ¬ Runaway body) := by
  have hdef : ∀ src, (inflateDef src).Halts ↔ ¬ Runaway src := fun src =>
    ⟨fun h hrun => runaway_not_halts hrun h, halts_of_not_runaway⟩
  refine ⟨hdef src, ?_⟩
  cases hbody : gzipBody gz with
  | none =>
    have hpure : inflateGzip gz = pure none := by rw [inflateGzip, hbody]
    rw [hpure]
    exact ⟨fun _ _ h => absurd h (by simp), fun _ => halts_pure _⟩
  | some body =>
    rw [inflateGzip_halts hbody, hdef body]
    exact ⟨fun h body' hb => Option.some.inj hb ▸ h, fun h => h body rfl⟩

/-- The byte 5 announces a final block with codes of its own, and is all there is: no code has any words. -/
theorem runaway_five : Runaway [5] := by
  obtain ⟨t, ht⟩ := dynamicTables_halts [5] 3
  have hpos := dynamicTables_pos ht
  have hzero := dynamicTables_no_words ht (by decide +kernel)
  refine ⟨0, t, .first, by decide, ht, by rw [hzero]; decide, fun p hp hlt => ?_⟩
  have hle := hp.le
  rw [length_singleton] at hlt
  omega

/-- A gzip file around it. -/
def fiveGz : Str := [0x1f, 0x8b, 8, 0, 0, 0, 0, 0, 0, 3, 5, 0, 0, 0, 0, 0, 0, 0, 0]

theorem one_byte_runs_on : ¬ (inflateDef [5]).Halts ∧ ¬ (inflateGzip fiveGz).Halts := by
  have hbody : gzipBody fiveGz = some [5] := by decide +kernel
  refine ⟨runaway_not_halts runaway_five, ?_⟩
  rw [inflateGzip_halts hbody]
  exact runaway_not_halts runaway_five

end Vyb.Stdlib
