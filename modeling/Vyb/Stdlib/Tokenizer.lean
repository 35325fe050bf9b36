/-
  Subject:   The byte-level tokenizer of `stdlib/vllm/mod.vyb`: glyphs, the merges table, the merge loop,
             the segmentation, `encode_with` and `decode_ids`.

  A byte is written as a glyph of one or two bytes (`byte_char`), a word is a sequence of glyphs, and the merge
  loop works on the offsets at which the symbols of a word start. A `HashMap` is the list of what was put into
  it (`Vyb.Lib.replay`).

  * `byteOf_byteChar`, `decodeToken_glyphs` -- the glyphs of a byte string are decoded to it;
  * **`bpeChars_eq`** -- the loop over offsets is the byte pair encoding of the library, for the ranks that the
    table has for concatenations (`pairRankOf`);
  * **`pieces_flatten`** -- the segments of a text, one behind the other, are its glyphs.
-/
import Vyb.Lib.Bpe
import Vyb.Lib.Loop
import Vyb.Lib.Overwrite
import Vyb.Runtime.Str

namespace Vyb.Stdlib.Vllm

open Lib Vyb.Runtime List Bpe Nat

/-! ## 1. Bytes and glyphs -/

def cp2str (cp : Nat) : Str :=
  if cp < 128 then Str.fromByte cp
  else Str.fromByte (0xC0 ||| cp >>> 6) ++ Str.fromByte (0x80 ||| (cp &&& 63))

/-- The bytes that keep their codepoint. -/
def inSelf (b : Nat) : Bool :=
  (33 ≤ b && b ≤ 126) || (161 ≤ b && b ≤ 172) || (174 ≤ b && b ≤ 255)

/-- How many bytes below `b` do not. -/
def remapCount (b : Nat) : Nat := (List.range b).foldl (fun c i => if inSelf i then c else c + 1) 0

def byteChar (b : Nat) : Str := cp2str (if inSelf b then b else 256 + remapCount b)

def spaceChar : Str := byteChar 32

def leadWidth (b : Nat) : Nat :=
  if 194 ≤ b then
    if b ≤ 223 then 2 else if b ≤ 239 then 3 else if b ≤ 244 then 4 else 1
  else 1

/-- `text_to_chars` -/
def textToChars (input : Str) : List Str := input.map fun b => byteChar b.toNat

/-- `glyph2byte`: the first byte with that glyph. -/
def glyph2byte (g : Str) : Nat := ((List.range 256).find? fun b => byteChar b == g).getD 0

/-! ## 2. The merges table -/

/-- A `HashMap` with String keys. -/
abbrev Table (V : Type) := List (Str × V)

/-- `while (t < line.len())`: the first space, or -1. -/
def firstSpace (line : Str) : Int :=
  let t := advanceTo (fun t => Str.charAt line t != 32) line.length 0
  if t < line.length then t else -1

/-- What one line that is not empty does to the next rank and the table. -/
def addLine (acc : Int × Table Int) (line : Str) : Int × Table Int :=
  if Str.charAt line 0 = 35 then acc
  else
    let sp := firstSpace line
    if 0 < sp then
      let a := line.substring 0 sp
      let b := line.substring (sp + 1) line.length
      (acc.1 + 1, overwrite acc.2 (a ++ b, acc.1))
    else (acc.1 + 1, acc.2)

/-- The loop over the lines; every round goes past a byte, so `fuel` is the length of the text. -/
def mergesLoop (s : Str) : Nat → Nat → Int × Table Int → Int × Table Int
  | 0, _, acc => acc
  | fuel + 1, i, acc =>
    if i < s.length then
      let j := advanceTo (fun j => Str.charAt s j != 10) s.length i
      if j = i then mergesLoop s fuel (j + 1) acc
      else mergesLoop s fuel (j + 1) (addLine acc (s.substring i j))
    else acc

/-- `build_merges_from`, from the text of `merges.txt`. -/
def buildMerges (s : Str) : Table Int := (mergesLoop s s.length 0 (0, [])).2

/-! ## 3. The merge loop -/

/-- `best_rank` and `best` -/
structure Best where
  bestRank : Int
  best : Int

/-- `best_rank = 2147483647; best = -1` -/
def Best.start : Best := ⟨2147483647, -1⟩

/-- The body of the loop over the pairs. -/
def rankPair (merges : Table Int) (sw : Str) (st : List Nat) (b : Best) (p : Nat) : Best :=
  let pr := sw.substring (st.getD p 0) (st.getD (p + 2) 0)
  let r := (merges.lookup pr).getD (-1)
  if 0 ≤ r then
    if r < b.bestRank then ⟨r, p⟩ else b
  else b

/-- `for (p in 0..st.len() - 3)` -/
def findBest (merges : Table Int) (sw : Str) (st : List Nat) : Best :=
  (List.range (st.length - 2)).foldl (rankPair merges sw st) Best.start

/-- `while (true)`: every round removes an offset. -/
def mergeLoop (merges : Table Int) (sw : Str) : Nat → List Nat → List Nat
  | 0, st => st
  | fuel + 1, st =>
    let b := findBest merges sw st
    if b.best < 0 then st else mergeLoop merges sw fuel (st.eraseIdx (b.best + 1).toNat)

/-- The symbols between the offsets. -/
def tokens (sw : Str) (st : List Nat) : List Str :=
  (List.range (st.length - 1)).map fun m => sw.substring (st.getD m 0) (st.getD (m + 1) 0)

/-- The id of a symbol, or else the ids of the glyphs of its bytes. -/
def tokenIds (vocab : Table Int) (tk : Str) : List Int :=
  let id2 := (vocab.lookup tk).getD (-1)
  if 0 ≤ id2 then [id2] else tk.map fun bb => (vocab.lookup (byteChar bb.toNat)).getD (-1)

/-- The symbol sequence of `bpe_word_ids`, before a symbol is looked up. -/
def wordTokens (merges : Table Int) (sw : Str) (st : List Nat) : List Str :=
  tokens sw (mergeLoop merges sw st.length st)

def bpeWordIds (vocab merges : Table Int) (sw : Str) (st : List Nat) : List Int :=
  (wordTokens merges sw st).flatMap (tokenIds vocab)

/-- `sw`, `st` and `acc` of `bpe_chars` -/
structure Joined where
  sw : Str
  st : List Nat
  acc : Nat

/-- The body of its loop. -/
def Joined.push (s : Joined) (g : Str) : Joined := ⟨s.sw ++ g, s.st ++ [s.acc + g.length], s.acc + g.length⟩

/-- The loop `for (t in a..b - 1)`. -/
def joinChars (wc : List Str) (a b : Nat) : Joined :=
  (List.range' a (b - a)).foldl (fun s t => s.push (wc.getD t [])) ⟨[], [0], 0⟩

/-- `bpe_chars` -/
def bpeChars (vocab merges : Table Int) (wc : List Str) (a b : Nat) : List Int :=
  bpeWordIds vocab merges (joinChars wc a b).sw (joinChars wc a b).st

/-! ## 4. Segments -/

def cls (b0 : Nat) : Int :=
  if 65 ≤ b0 ∧ b0 ≤ 90 then 0
  else if 97 ≤ b0 ∧ b0 ≤ 122 then 0
  else if 48 ≤ b0 ∧ b0 ≤ 57 then 1
  else if 194 ≤ b0 ∧ b0 ≤ 196 then 0
  else 2

/-- The class of the glyph at `k`. -/
def clsAt (wc : List Str) (k : Nat) : Int := cls (Str.charAt (wc.getD k []) 0)

/-- `while (rr < n) { if (cls(..) == c) { rr = rr + 1 } else { break } }` -/
def clsRun (wc : List Str) (n : Nat) (c : Int) (rr : Nat) : Nat := advanceTo (fun k => clsAt wc k == c) n rr

/-- Where the segment that starts at `i` ends: the final `rr` of a round of `segment_word`. -/
def segmentEnd (wc : List Str) (n i : Nat) : Nat :=
  let b0 := Str.charAt (wc.getD i []) 0
  let c0 := cls b0
  if c0 = 0 then
    if b0 = 196 then
      let nx := if i + 1 < n then clsAt wc (i + 1) else -1
      if nx = 2 then clsRun wc n 2 (i + 1) else clsRun wc n 0 i
    else clsRun wc n 0 i
  else if c0 = 1 then i + 1
  else if i + 1 < n then
    if clsAt wc (i + 1) = 0 then clsRun wc n 0 (i + 1) else clsRun wc n 2 i
  else i + 1

/-- The bounds of the segments; every round goes past a glyph. -/
def segmentBounds (wc : List Str) (n : Nat) : Nat → Nat → List (Nat × Nat)
  | 0, _ => []
  | fuel + 1, i =>
    if i < n then (i, segmentEnd wc n i) :: segmentBounds wc n fuel (segmentEnd wc n i) else []

/-- `segment_word` -/
def segmentWord (vocab merges : Table Int) (wc : List Str) : List Int :=
  (segmentBounds wc wc.length wc.length 0).flatMap fun b => bpeChars vocab merges wc b.1 b.2

/-- The glyphs from `a` to `b`. -/
def slice (chars : List Str) (a b : Nat) : List Str := (chars.drop a).take (b - a)

/-- The words that `encode_with` hands to `segment_word`; every round goes past a glyph. -/
def words (sp : Str) (chars : List Str) : Nat → Nat → List (List Str)
  | 0, _ => []
  | fuel + 1, i =>
    let n := chars.length
    if i < n then
      if chars.getD i [] == sp then
        let j := advanceTo (fun j => chars.getD j [] == sp) n i
        let run := j - i
        if n ≤ j then List.replicate run sp :: words sp chars fuel j
        else
          let standalone := run - 1
          let hi := advanceTo (fun h => !(chars.getD h [] == sp)) n j
          (if 0 < standalone then [List.replicate standalone sp] else []) ++
            slice chars (j - 1) hi :: words sp chars fuel hi
      else
        let hi := advanceTo (fun h => !(chars.getD h [] == sp)) n i
        slice chars i hi :: words sp chars fuel hi
    else []

def encodeWith (vocab merges : Table Int) (sp input : Str) : List Int :=
  (words sp (textToChars input) (textToChars input).length 0).flatMap (segmentWord vocab merges)

/-! ## 5. Decoding -/

/-- The glyphs of a token, from offset `ii` on; every round goes past a byte. -/
def decodeLoop (tk : Str) : Nat → Nat → Str
  | 0, _ => []
  | fuel + 1, ii =>
    if ii < tk.length then
      let lw := leadWidth (Str.charAt tk ii)
      Str.fromByte (glyph2byte (tk.substring ii (ii + lw : Nat))) ++ decodeLoop tk fuel (ii + lw)
    else []

def decodeToken (tk : Str) : Str := decodeLoop tk tk.length 0

/-- `decode_ids`, with the table that `build_revvocab` reads. -/
def decodeIds (rev : List (Int × Str)) (ids : List Int) : Str :=
  ids.flatMap fun k => decodeToken ((rev.lookup k).getD [])

/-! ## 6. A glyph stands for its byte -/

/-- The bytes without a codepoint of their own. -/
def remapped : List Nat := (List.range 256).filter fun b => !inSelf b

/-- The byte that a glyph stands for. -/
def byteOf : Str → Nat
  | [x] => x.toNat
  | [x, y] =>
    let cp := (x.toNat - 0xC0) * 64 + (y.toNat - 0x80)
    if cp < 256 then cp else remapped.getD (cp - 256) 0
  | _ => 0

theorem byteOf_byteChar : ∀ b < 256, byteOf (byteChar b) = b := by decide +kernel

theorem leadWidth_byteChar : ∀ b < 256, leadWidth (Str.charAt (byteChar b) 0) = (byteChar b).length := by
  decide +kernel

theorem length_byteChar : ∀ b < 256, (byteChar b).length = if 33 ≤ b ∧ b ≤ 126 then 1 else 2 := by
  decide +kernel

theorem byteChar_printable : ∀ b < 256, 33 ≤ b → b ≤ 126 → byteChar b = [UInt8.ofNat b] := by decide +kernel

theorem byteChar_injective {b c : Nat} (hb : b < 256) (hc : c < 256) (h : byteChar b = byteChar c) :
    b = c := by
  rw [← byteOf_byteChar b hb, h, byteOf_byteChar c hc]

theorem glyph2byte_byteChar {b : Nat} (hb : b < 256) : glyph2byte (byteChar b) = b := by
  have hfind : (range 256).find? (fun c => byteChar c == byteChar b) = some b := by
    rw [find?_range_eq_some]
    refine ⟨beq_self_eq_true _, mem_range.mpr hb, fun c hc => ?_⟩
    simp only [Bool.not_eq_true', beq_eq_false_iff_ne]
    exact fun heq => hc.ne (byteChar_injective (hc.trans hb) hb heq)
  rw [glyph2byte, hfind, Option.getD_some]

/-- The glyphs of a byte string. -/
def glyphs (t : Str) : Str := t.flatMap fun b => byteChar b.toNat

theorem glyphs_append (x y : Str) : glyphs (x ++ y) = glyphs x ++ glyphs y := flatMap_append

theorem glyphs_singleton (b : UInt8) : glyphs [b] = byteChar b.toNat := by
  rw [glyphs, flatMap_cons, flatMap_nil, append_nil]

theorem textToChars_eq (s : Str) : textToChars s = (Bpe.letters s).map glyphs := by
  rw [textToChars, Bpe.letters, map_map]
  exact map_congr_left fun b _ => (glyphs_singleton b).symm

theorem substring_mid (a b c : Str) :
    Str.substring (a ++ (b ++ c)) a.length (a.length + b.length : Nat) = b := by
  have hin : Str.InBounds (a ++ (b ++ c)).length a.length (a.length + b.length : Nat) := by
    simp only [Str.InBounds, length_append]
    omega
  have hlen : (((a.length + b.length : Nat) : Int) - (a.length : Int)).toNat = b.length := by omega
  rw [Str.substring, if_pos hin, hlen, Int.toNat_natCast, drop_left, take_left]

theorem charAt_append {a b : Str} (hb : b ≠ []) (c : Str) :
    Str.charAt (a ++ (b ++ c)) a.length = Str.charAt b 0 := by
  cases b with
  | nil => exact absurd rfl hb
  | cons x b => simp [Str.charAt]

theorem byteChar_ne_nil {b : Nat} (hb : b < 256) : byteChar b ≠ [] := by
  intro h
  have := length_byteChar b hb
  rw [h] at this
  split at this <;> cases this

theorem decodeLoop_glyphs : ∀ (t : Str) (a : Str) {fuel : Nat}, t.length ≤ fuel →
    decodeLoop (a ++ glyphs t) fuel a.length = t
  | [], a, 0, _ => rfl
  | [], a, fuel + 1, _ => by
    rw [decodeLoop, if_neg (by simp [glyphs])]
  | b :: t, a, fuel + 1, h => by
    have hb : b.toNat < 256 := b.toNat_lt
    have htext : a ++ glyphs (b :: t) = a ++ (byteChar b.toNat ++ glyphs t) := rfl
    have hpos : 0 < (byteChar b.toNat).length := length_pos_of_ne_nil (byteChar_ne_nil hb)
    have hlt : a.length < (a ++ (byteChar b.toNat ++ glyphs t)).length := by
      simp only [length_append]
      omega
    have ih := decodeLoop_glyphs t (a ++ byteChar b.toNat) (le_of_succ_le_succ h)
    rw [append_assoc, length_append] at ih
    simp only [htext, decodeLoop, if_pos hlt, charAt_append (byteChar_ne_nil hb), leadWidth_byteChar _ hb,
      substring_mid, glyph2byte_byteChar hb, Str.fromByte_toNat, ih]
    rfl

theorem length_glyphs (t : Str) : t.length ≤ (glyphs t).length := by
  induction t with
  | nil => exact le_refl 0
  | cons b t ih =>
    have hpos := length_pos_of_ne_nil (byteChar_ne_nil b.toNat_lt)
    simp only [glyphs, flatMap_cons, length_append, length_cons] at ih ⊢
    omega

/-- **The glyphs of a byte string are decoded to it.** -/
theorem decodeToken_glyphs (t : Str) : decodeToken (glyphs t) = t :=
  decodeLoop_glyphs t [] (length_glyphs t)

/-! ## 7. The loop over offsets is byte pair encoding -/

/-- The rank that the search finds for a concatenation: one that is not below `best_rank` at the start is
    never the best. -/
def rankOf (merges : Table Int) (key : Str) : Option Nat :=
  (merges.lookup key).bind fun r => if 0 ≤ r ∧ r < 2147483647 then some r.toNat else none

/-- The rank of neighbours is that of their concatenation. -/
def pairRankOf (merges : Table Int) (x y : Str) : Option Nat := rankOf merges (x ++ y)

/-- The state of the search when it has found `b`. -/
def Best.ofLeast : Option (Nat × Nat) → Best
  | none => Best.start
  | some (p, r) => ⟨r, p⟩

variable {merges : Table Int}

theorem rankOf_lt {key : Str} {r : Nat} (h : rankOf merges key = some r) :
    r < 2147483647 := by
  obtain ⟨s, -, hs⟩ := Option.bind_eq_some_iff.mp h
  split at hs
  · cases hs
    omega
  · cases hs

/-- One round of the search. -/
theorem rankPair_ofLeast {sw : Str} {st : List Nat} {f : Nat → Option Nat} {n : Nat}
    (hf : ∀ p ≤ n, f p = rankOf merges (sw.substring (st.getD p 0) (st.getD (p + 2) 0))) :
    rankPair merges sw st (Best.ofLeast (Bpe.leastAt f n)) n = Best.ofLeast (Bpe.leastAt f (n + 1)) := by
  have hbound : ∀ p r, Bpe.leastAt f n = some (p, r) → r < 2147483647 := by
    intro p r h
    obtain ⟨hp, hr, -⟩ := leastAt_some h
    rw [hf p hp.le] at hr
    exact rankOf_lt hr
  have hstart : (Best.ofLeast (Bpe.leastAt f n)).bestRank ≤ 2147483647 := by
    cases h : Bpe.leastAt f n with
    | none => exact le_refl _
    | some b => exact Int.le_of_lt (Int.ofNat_lt.mpr (hbound b.1 b.2 h))
  have hfn := hf n (le_refl n)
  rw [Bpe.leastAt, hfn, rankPair, rankOf]
  cases merges.lookup (sw.substring (st.getD n 0) (st.getD (n + 2) 0)) with
  | none => rfl
  | some r =>
    simp only [Option.getD_some, Option.bind_some]
    by_cases hr : 0 ≤ r ∧ r < 2147483647
    · obtain ⟨k, rfl⟩ := Int.eq_ofNat_of_zero_le hr.1
      rw [if_pos hr.1, if_pos hr]
      cases h : Bpe.leastAt f n with
      | none => exact if_pos hr.2
      | some b =>
        obtain ⟨p, s⟩ := b
        simp only [Best.ofLeast, Int.toNat_natCast, cast_lt]
        split <;> rfl
    · rw [if_neg hr]
      split
      · rw [if_neg (by omega)]
      · rfl

theorem findBest_eq {sw : Str} {st : List Nat} {f : Nat → Option Nat}
    (hf : ∀ p < st.length - 2, f p = rankOf merges (sw.substring (st.getD p 0) (st.getD (p + 2) 0))) :
    findBest merges sw st = Best.ofLeast (Bpe.leastAt f (st.length - 2)) := by
  have hfold : ∀ n ≤ st.length - 2, (range n).foldl (rankPair merges sw st) Best.start =
      Best.ofLeast (Bpe.leastAt f n) := by
    intro n
    induction n with
    | zero => exact fun _ => rfl
    | succ n ih =>
      intro hn
      rw [range_succ, foldl_append, ih (by omega)]
      exact rankPair_ofLeast fun p hp => hf p (by omega)
  exact hfold _ (le_refl _)

/-- The offsets at which symbols start, and the end of the last one. -/
def offsets : Nat → List Str → List Nat
  | k, [] => [k]
  | k, x :: u => k :: offsets (k + x.length) u

theorem length_offsets : ∀ (k : Nat) (u : List Str), (offsets k u).length = u.length + 1
  | _, [] => rfl
  | k, x :: u => by rw [offsets, length_cons, length_offsets, length_cons]

theorem offsets_append : ∀ (k : Nat) (A B : List Str),
    (offsets k (A ++ B)).getD A.length 0 = k + A.flatten.length
  | k, [], [] | k, [], x :: B => rfl
  | k, a :: A, B => by
    rw [cons_append, offsets, length_cons, getD_cons_succ, offsets_append, flatten_cons, length_append, add_assoc]

theorem substring_offsets (A m B : List Str) {p q : Nat} (hp : p = A.length) (hq : q = A.length + m.length) :
    Str.substring (A ++ (m ++ B)).flatten ((offsets 0 (A ++ (m ++ B))).getD p 0)
      ((offsets 0 (A ++ (m ++ B))).getD q 0) = m.flatten := by
  subst hp hq
  have hq := offsets_append 0 (A ++ m) B
  rw [append_assoc, length_append, zero_add, flatten_append, length_append] at hq
  rw [hq, offsets_append, zero_add, flatten_append, flatten_append]
  exact substring_mid _ _ _

/-- Without the offset between them, two neighbours are one symbol. -/
theorem eraseIdx_offsets (x y : Str) (B : List Str) : ∀ (k : Nat) (A : List Str),
    (offsets k (A ++ x :: y :: B)).eraseIdx (A.length + 1) = offsets k (A ++ (x ++ y) :: B)
  | k, [] => by
    simp only [nil_append, offsets, length_nil, zero_add, eraseIdx_cons_succ,
      eraseIdx_cons_zero, length_append, add_assoc]
  | k, a :: A => by
    simp only [cons_append, offsets, length_cons, eraseIdx_cons_succ]
    rw [eraseIdx_offsets x y B (k + a.length) A]

/-- **One search**: the offsets of a sequence give its best pair. -/
theorem findBest_offsets (merges : Table Int) (u : List Str) :
    findBest merges u.flatten (offsets 0 u) = Best.ofLeast (Bpe.best (pairRankOf merges) u) := by
  have hlen : (offsets 0 u).length - 2 = u.length - 1 := by rw [length_offsets]; omega
  rw [findBest_eq (f := Bpe.pairRank (pairRankOf merges) u), hlen, Bpe.best]
  intro p hp
  have hp1 : p < u.length := by omega
  have hp2 : p + 1 < u.length := by omega
  have hsplit : u = u.take p ++ ([u[p], u[p + 1]] ++ u.drop (p + 2)) := by
    rw [cons_append, singleton_append, ← drop_eq_getElem_cons hp2,
      ← drop_eq_getElem_cons hp1, take_append_drop]
  have hlenp : (u.take p).length = p := by rw [length_take]; omega
  have hsub := substring_offsets (u.take p) [u[p], u[p + 1]] (u.drop (p + 2)) (p := p) (q := p + 2)
    hlenp.symm (by rw [hlenp]; rfl)
  rw [← hsplit] at hsub
  rw [hsub, Bpe.pairRank, getElem?_eq_getElem hp1, getElem?_eq_getElem hp2]
  simp [pairRankOf]

theorem mergeLoop_offsets (merges : Table Int) : ∀ (fuel : Nat) (u : List Str),
    mergeLoop merges u.flatten fuel (offsets 0 u) = offsets 0 (Bpe.merges (pairRankOf merges) fuel u)
  | 0, u => rfl
  | fuel + 1, u => by
    rw [mergeLoop, Bpe.merges, findBest_offsets]
    cases h : Bpe.best (pairRankOf merges) u with
    | none => rfl
    | some b =>
      obtain ⟨p, r⟩ := b
      obtain ⟨A, x, y, B, rfl, rfl, -⟩ := best_some h
      have hpos : ¬ ((A.length : Int) < 0) := by omega
      have hindex : ((A.length : Int) + 1).toNat = A.length + 1 := by omega
      have ih := mergeLoop_offsets merges fuel (A ++ (x ++ y) :: B)
      rw [← flatten_merged] at ih
      simp only [Best.ofLeast, if_neg hpos, hindex, eraseIdx_offsets, mergeAt_append]
      exact ih

theorem tokens_offsets (u : List Str) : tokens u.flatten (offsets 0 u) = u := by
  refine ext_getElem (by simp [tokens, length_offsets]) fun m hm hu => ?_
  have hsplit : u = u.take m ++ ([u[m]] ++ u.drop (m + 1)) := by
    rw [singleton_append, ← drop_eq_getElem_cons hu, take_append_drop]
  have hlenm : (u.take m).length = m := by rw [length_take]; omega
  have hsub := substring_offsets (u.take m) [u[m]] (u.drop (m + 1)) (p := m) (q := m + 1)
    hlenm.symm (by rw [hlenm]; rfl)
  rw [← hsplit, flatten_singleton] at hsub
  simp only [tokens, getElem_map, getElem_range]
  exact hsub

/-- **The merge loop is byte pair encoding** for the ranks of concatenations. -/
theorem wordTokens_offsets (merges : Table Int) (u : List Str) :
    wordTokens merges u.flatten (offsets 0 u) = Bpe.bpe (pairRankOf merges) u := by
  have hlen : u.length ≤ (offsets 0 u).length + 1 := by
    rw [length_offsets]
    omega
  obtain ⟨hcomes, hnone⟩ : Bpe.Comes (pairRankOf merges) u _ ∧ _ := merges_spec hlen
  have hflat := comes_flatten hcomes
  rw [wordTokens, mergeLoop_offsets, ← hflat, tokens_offsets, hcomes.bpe_eq hnone]

theorem joined_fold : ∀ (l : List Str) (s : Joined), (l.foldl Joined.push s).sw = s.sw ++ l.flatten ∧
    (l.foldl Joined.push s).st = s.st ++ (offsets s.acc l).tail
  | [], s => by simp [offsets]
  | g :: l, s => by
    obtain ⟨hsw, hst⟩ := joined_fold l (s.push g)
    rw [foldl_cons, hsw, hst]
    refine ⟨by simp [Joined.push], ?_⟩
    cases l <;> simp [Joined.push, offsets]

theorem map_range' (wc : List Str) {a b : Nat} (hb : b ≤ wc.length) :
    (List.range' a (b - a)).map (fun t => wc.getD t []) = slice wc a b := by
  refine ext_getElem (by simp [slice]; omega) fun k hk hk' => ?_
  have hk : k < b - a := by simpa using hk
  simp only [getElem_map, getElem_range', slice, getElem_take, getElem_drop, one_mul]
  rw [getD_eq_getElem?_getD, getElem?_eq_getElem (by omega), Option.getD_some]

theorem joinChars_eq (wc : List Str) {a b : Nat} (hb : b ≤ wc.length) :
    (joinChars wc a b).sw = (slice wc a b).flatten ∧ (joinChars wc a b).st = offsets 0 (slice wc a b) := by
  have hfold : joinChars wc a b = (slice wc a b).foldl Joined.push ⟨[], [0], 0⟩ := by
    rw [← map_range' wc hb, List.foldl_map, joinChars]
  obtain ⟨hsw, hst⟩ := joined_fold (slice wc a b) ⟨[], [0], 0⟩
  rw [hfold, hsw, hst]
  refine ⟨rfl, ?_⟩
  cases slice wc a b <;> rfl

variable (vocab merges : Table Int)

/-- **What `bpe_chars` returns for a segment.** -/
theorem bpeChars_eq (wc : List Str) {a b : Nat} (hb : b ≤ wc.length) :
    bpeChars vocab merges wc a b = (Bpe.bpe (pairRankOf merges) (slice wc a b)).flatMap (tokenIds vocab) := by
  obtain ⟨hsw, hst⟩ := joinChars_eq wc (a := a) hb
  rw [bpeChars, bpeWordIds, hsw, hst, wordTokens_offsets]

/-! ## 8. The segments of a text are the text -/

theorem cls_cases (b : Nat) : cls b = 0 ∨ cls b = 1 ∨ cls b = 2 := by
  unfold cls
  split_ifs <;> simp

/-- Every round takes a glyph. -/
theorem segmentEnd_spec (wc : List Str) {n i : Nat} (hi : i < n) :
    i < segmentEnd wc n i ∧ segmentEnd wc n i ≤ n := by
  have hbehind : ∀ c, i + 1 ≤ n → i < clsRun wc n c (i + 1) ∧ clsRun wc n c (i + 1) ≤ n := by
    intro c hn
    obtain ⟨hle, hbound, -⟩ := advanceTo_spec (p := fun k => clsAt wc k == c) hn
    exact ⟨hle, hbound⟩
  have hhere : ∀ c, clsAt wc i = c → i < clsRun wc n c i ∧ clsRun wc n c i ≤ n := by
    intro c hc
    obtain ⟨-, hbound, -⟩ := advanceTo_spec (p := fun k => clsAt wc k == c) hi.le
    exact ⟨lt_advanceTo hi (by simpa using hc), hbound⟩
  simp only [segmentEnd]
  split_ifs with h0 h196 hnext hnx hnx h1 hnext hnx
  · exact hbehind 2 hi
  · exact hhere 0 h0
  · exact hbehind 2 hi
  · exact hhere 0 h0
  · exact hhere 0 h0
  · exact ⟨lt_succ_self i, hi⟩
  · exact hbehind 0 hi
  · exact hhere 2 (((cls_cases _).resolve_left h0).resolve_left h1)
  · exact ⟨lt_succ_self i, hi⟩

theorem slice_append_drop (l : List Str) {i r : Nat} (h : i ≤ r) : slice l i r ++ l.drop r = l.drop i := by
  have hr : l.drop r = (l.drop i).drop (r - i) := by
    rw [drop_drop]
    congr 1
    omega
  rw [slice, hr, take_append_drop]

/-- The segments of a word. -/
def segments (wc : List Str) : List (List Str) :=
  (segmentBounds wc wc.length wc.length 0).map fun b => slice wc b.1 b.2

theorem segmentBounds_spec (wc : List Str) : ∀ fuel i : Nat, i ≤ wc.length → wc.length ≤ i + fuel →
    ((segmentBounds wc wc.length fuel i).map fun b => slice wc b.1 b.2).flatten = wc.drop i ∧
      ∀ b ∈ segmentBounds wc wc.length fuel i, b.2 ≤ wc.length
  | 0, i, hi, h => by
    rw [segmentBounds, drop_eq_nil_of_le (by omega)]
    exact ⟨rfl, fun b hb => absurd hb not_mem_nil⟩
  | fuel + 1, i, hi, h => by
    rw [segmentBounds]
    split
    · rename_i hlt
      obtain ⟨hprogress, hbound⟩ := segmentEnd_spec wc hlt
      obtain ⟨hflat, hall⟩ := segmentBounds_spec wc fuel _ hbound (by omega)
      refine ⟨?_, fun b hb => ?_⟩
      · rw [map_cons, flatten_cons, hflat, slice_append_drop wc hprogress.le]
      · rcases mem_cons.mp hb with rfl | hb
        · exact hbound
        · exact hall b hb
    · rw [drop_eq_nil_of_le (by omega)]
      exact ⟨rfl, fun b hb => absurd hb not_mem_nil⟩

theorem segments_flatten (wc : List Str) : (segments wc).flatten = wc :=
  (segmentBounds_spec wc _ 0 (zero_le _) (by omega)).1

theorem segmentWord_eq (wc : List Str) :
    segmentWord vocab merges wc =
      (segments wc).flatMap fun seg => (Bpe.bpe (pairRankOf merges) seg).flatMap (tokenIds vocab) := by
  rw [segmentWord, segments, flatMap_map]
  refine flatMap_congr fun b hb => ?_
  exact bpeChars_eq vocab merges wc ((segmentBounds_spec wc _ 0 (zero_le _) (by omega)).2 b hb)

/-- A run of one glyph. -/
theorem replicate_run {sp : Str} {chars : List Str} {i j : Nat} (hij : i ≤ j) (hj : j ≤ chars.length)
    (hall : ∀ q, i ≤ q → q < j → (chars.getD q [] == sp) = true) :
    List.replicate (j - i) sp = slice chars i j := by
  refine ext_getElem (by simp [slice]; omega) fun k hk hk' => ?_
  have hk : k < j - i := by simpa using hk
  have hsp := hall (i + k) (by omega) (by omega)
  rw [getD_eq_getElem?_getD, getElem?_eq_getElem (by omega), Option.getD_some, beq_iff_eq] at hsp
  simp only [getElem_replicate, slice, getElem_take, getElem_drop, hsp]

theorem words_flatten (sp : Str) (chars : List Str) : ∀ fuel i : Nat, i ≤ chars.length →
    chars.length ≤ i + fuel → (words sp chars fuel i).flatten = chars.drop i
  | 0, i, hi, h => by rw [words, drop_eq_nil_of_le (by omega)]; rfl
  | fuel + 1, i, hi, h => by
    rw [words]
    dsimp only
    split
    · rename_i hlt
      split
      · rename_i hsp
        obtain ⟨hij, hj, hall, hstop⟩ := advanceTo_spec (p := fun j => chars.getD j [] == sp) hi
        have hprogress := lt_advanceTo (p := fun j => chars.getD j [] == sp) hlt hsp
        generalize advanceTo (fun j => chars.getD j [] == sp) chars.length i = j at *
        split
        · rw [flatten_cons, words_flatten sp chars fuel j hj (by omega), replicate_run hij hj hall,
            slice_append_drop chars hij]
        · obtain ⟨hle, hbound, -⟩ := advanceTo_spec (p := fun h => !(chars.getD h [] == sp)) hj
          generalize advanceTo (fun h => !(chars.getD h [] == sp)) chars.length j = hi' at *
          have hlast : replicate (j - i - 1) sp = slice chars i (j - 1) := by
            rw [← replicate_run (by omega) (by omega) fun q h1 h2 => hall q h1 (by omega)]
            congr 1
            omega
          have hfirst : (if 0 < j - i - 1 then [replicate (j - i - 1) sp] else []).flatten =
              slice chars i (j - 1) := by
            split
            · rw [flatten_singleton, hlast]
            · have hnone : j - 1 - i = 0 := by omega
              rw [slice, hnone]
              rfl
          rw [flatten_append, hfirst, flatten_cons, words_flatten sp chars fuel hi' hbound (by omega),
            slice_append_drop chars (by omega), slice_append_drop chars (by omega)]
      · rename_i hsp
        obtain ⟨hle, hbound, -⟩ := advanceTo_spec (p := fun h => !(chars.getD h [] == sp)) hi
        have hprogress := lt_advanceTo (p := fun h => !(chars.getD h [] == sp)) hlt (by simpa using hsp)
        generalize advanceTo (fun h => !(chars.getD h [] == sp)) chars.length i = hi' at *
        rw [flatten_cons, words_flatten sp chars fuel hi' hbound (by omega), slice_append_drop chars hle]
    · rw [drop_eq_nil_of_le (by omega)]
      rfl

/-- The segments of a text. -/
def pieces (sp input : Str) : List (List Str) :=
  (words sp (textToChars input) (textToChars input).length 0).flatMap segments

/-- **The segments, one behind the other, are the glyphs of the text.** -/
theorem pieces_flatten (sp input : Str) : (pieces sp input).flatten = textToChars input := by
  have hwords := words_flatten sp (textToChars input) (textToChars input).length 0 (zero_le _) (by omega)
  rw [pieces, ← flatMap_id, flatMap_assoc]
  simp only [flatMap_id, segments_flatten]
  rw [flatMap_id', hwords, drop_zero]

/-- **What `encode_with` returns.** -/
theorem encodeWith_eq (sp input : Str) :
    encodeWith vocab merges sp input =
      (pieces sp input).flatMap fun seg => (Bpe.bpe (pairRankOf merges) seg).flatMap (tokenIds vocab) := by
  rw [encodeWith, pieces, flatMap_assoc]
  exact flatMap_congr fun wc _ => segmentWord_eq vocab merges wc

end Vyb.Stdlib.Vllm
