/-
  Subject:   The text of a hash chain (`stdlib/chain/mod.vyb`): `serialize` and `deserialize`.

  One line for the origin, one for each block, one for each of its records, the fields separated by tabs.
  `deserialize` passes over lines that it cannot read.

  * `deserialize_serialize` -- a chain whose fields have no byte that ends them is read back;
  * `deserialize_legible` -- no origin and no value that is read has a newline, no hash before a block a tab;
  * **`text_round_trip_iff`** -- a chain that was built is read back exactly if its origin has no tab and no
    newline and its values have no newline;
  * **`malformed_rejected`** -- a text that is the text of a chain, or has a block whose hash is not its
    own, verifies only if it is the text of a chain that does; and
    every text without a block verifies;
  * `newline_lost`, `garbage_verifies` -- a value that is cut off, and a text that nobody wrote.
-/
import Vyb.Collections.HashMap
import Vyb.Stdlib.Chain
import Vyb.Stdlib.StringOps

namespace Vyb.Stdlib

open Lib Vyb.Runtime Str List Option Nat
open Vyb.Collections (wrap64 wrap64_of_lt)

/-! ## 1. Writing -/

/-- The bytes that end a field and a line. -/
abbrev tab : UInt8 := 9
abbrev newline : UInt8 := 10

def recordLine (r : Record) : Str := ascii "R\t" ++ r.label ++ ascii "\t" ++ r.value

def blockLine (b : ChainBlock) : Str :=
  ascii "B\t" ++ ofInt b.index ++ ascii "\t" ++ b.prevHash ++ ascii "\t" ++ b.root ++ ascii "\t" ++ b.hash

def serialize (chain : Chain) : Str :=
  ascii "O\t" ++ chain.origin ++ ascii "\n" ++ chain.blocks.flatMap fun b =>
    blockLine b ++ ascii "\n" ++ b.records.flatMap fun r => recordLine r ++ ascii "\n"

/-! ## 2. Reading -/

def parseLoop : Int → Str → Int
  | acc, [] => acc
  | acc, d :: s =>
    if d.toNat < 48 ∨ 57 < d.toNat then 0 else parseLoop (wrap64 (acc * 10 + (d.toNat - 48))) s

/-- Decimal digits; 0 on anything else. -/
def parseInt (s : Str) : Int := parseLoop 0 s

/-- `t = s.index_of("\t")`, and if there is one, `s.substring(0, t)` and `s.substring(t + 1)`. -/
def cutTab (s : Str) : Option (Str × Str) :=
  let t := indexOf s (ascii "\t")
  if t < 0 then none else some (s.substring 0 t, s.suffix (t + 1))

/-- The fields of a record line: the label, and the rest of the line. -/
def readRecord (line : Str) : Option Record := do
  let (_, after1) ← cutTab line
  let (label, value) ← cutTab after1
  some ⟨label, value⟩

/-- The lines behind a block up to one that is no record, and the lines that are left. -/
def readRecords : List Str → List Record × List Str
  | [] => ([], [])
  | line :: lines =>
    if line.length < 2 then readRecords lines
    else if line.substring 0 1 ≠ ascii "R" then ([], line :: lines)
    else
      match readRecord line with
      | none => readRecords lines
      | some r => (r :: (readRecords lines).1, (readRecords lines).2)

/-- The fields of a block line. -/
def readBlock (line : Str) : Option (Int × Str × Str × Str) := do
  let (_, rest1) ← cutTab line
  let (idx, rest2) ← cutTab rest1
  let (prev, rest3) ← cutTab rest2
  let (root, hash) ← cutTab rest3
  some (parseInt idx, prev, root, hash)

/-- The outer loop. Every round takes a line at least, so a round for each of them is enough. -/
def readLines : Nat → Str → List ChainBlock → List Str → Chain
  | 0, origin, blocks, _ => ⟨origin, blocks⟩
  | _ + 1, origin, blocks, [] => ⟨origin, blocks⟩
  | fuel + 1, origin, blocks, line :: lines =>
    if line.length < 2 then readLines fuel origin blocks lines
    else if line.substring 0 1 = ascii "O" then readLines fuel (line.suffix 2) blocks lines
    else if line.substring 0 1 ≠ ascii "B" then readLines fuel origin blocks lines
    else
      match readBlock line with
      | none => readLines fuel origin blocks lines
      | some (index, prevHash, root, hash) =>
        readLines fuel origin (blocks ++ [⟨index, prevHash, root, hash, (readRecords lines).1⟩])
          (readRecords lines).2

def deserialize (text : Str) : Chain :=
  let lines := split text (ascii "\n")
  readLines lines.length [] [] lines

/-! ## 3. Fields -/

variable {a b s : Str}

theorem cutTab_of_notMem (h : tab ∉ s) : cutTab s = none := by
  have hneg : indexOf s (ascii "\t") = -1 := indexOf_notMem h
  simp [cutTab, hneg]

theorem cutTab_append (h : tab ∉ a) : cutTab (a ++ tab :: b) = some (a, b) := by
  have hat : indexOf (a ++ tab :: b) (ascii "\t") = a.length := indexOf_singleton h
  have hfront : (a ++ tab :: b).substring 0 (a.length : Int) = a := by
    rw [substring_from_start (by simp), take_left]
  simp only [cutTab, hat, hfront, suffix_behind]
  rw [if_neg (by omega)]

/-- What `cutTab` returns are the two sides of the first tab. -/
theorem cutTab_eq_some (h : cutTab s = some (a, b)) : s = a ++ tab :: b ∧ tab ∉ a := by
  by_cases hs : tab ∈ s
  · obtain ⟨a', b', rfl, ha'⟩ := eq_append_cons_of_mem hs
    rw [cutTab_append ha'] at h
    cases h
    exact ⟨rfl, ha'⟩
  · rw [cutTab_of_notMem hs] at h
    cases h

/-! ## 4. Numbers -/

theorem digit_byte {c : Char} (h : c.isDigit = true) :
    (UInt8.ofNat c.toNat).toNat = c.toNat ∧ 48 ≤ c.toNat ∧ c.toNat ≤ 57 := by
  have hc : 48 ≤ c.toNat ∧ c.toNat ≤ 57 := by
    simpa [Char.isDigit, UInt32.le_iff_toNat_le] using h
  exact ⟨byte_toNat (by omega), hc⟩

theorem le_ofDigitChars : ∀ (cs : List Char) (acc : Nat), acc ≤ Nat.ofDigitChars 10 cs acc
  | [], _ => le_refl _
  | c :: cs, acc => by
    rw [ofDigitChars_cons]
    exact le_trans (by omega) (le_ofDigitChars cs _)

theorem parseLoop_digits : ∀ (cs : List Char) (acc : Nat), (∀ c ∈ cs, c.isDigit = true) →
    Nat.ofDigitChars 10 cs acc < 2 ^ 63 →
    parseLoop acc (cs.map fun c => UInt8.ofNat c.toNat) = Nat.ofDigitChars 10 cs acc
  | [], _, _, _ => rfl
  | c :: cs, acc, hcs, hlt => by
    obtain ⟨hbyte, hlo, hhi⟩ := digit_byte (hcs c mem_cons_self)
    rw [ofDigitChars_cons] at hlt ⊢
    have hzero : '0'.toNat = 48 := rfl
    have hle := le_ofDigitChars cs (10 * acc + (c.toNat - '0'.toNat))
    have hstep : wrap64 ((acc : Int) * 10 + (c.toNat - 48)) = (10 * acc + (c.toNat - '0'.toNat) : Nat) := by
      rw [wrap64_of_lt (by omega) (by omega)]
      omega
    rw [map_cons, parseLoop, hbyte, if_neg (by omega), hstep]
    exact parseLoop_digits cs _ (fun d hd => hcs d (mem_cons_of_mem c hd)) hlt

variable {n : Int}

theorem parseInt_ofInt (h0 : 0 ≤ n) (h : n < 2 ^ 63) : parseInt (ofInt n) = n := by
  obtain ⟨k, rfl⟩ := Int.eq_ofNat_of_zero_le h0
  have hdigits : ∀ c ∈ toDigits 10 k, c.isDigit = true := fun c hc =>
    isDigit_of_mem_toDigits (by omega) (by omega) hc
  have hparse := parseLoop_digits (toDigits 10 k) 0 hdigits
    (by rw [ofDigitChars_ten_toDigits]; omega)
  rw [ofDigitChars_ten_toDigits] at hparse
  rw [parseInt, ofInt, if_neg (by omega), nil_append, Int.natAbs_natCast]
  exact hparse

theorem mem_ofInt (h0 : 0 ≤ n) (hx : x ∈ ofInt n) : 48 ≤ x ∧ x ≤ 57 := by
  rw [ofInt, if_neg (by omega), nil_append] at hx
  obtain ⟨c, hc, rfl⟩ := mem_map.mp hx
  obtain ⟨hbyte, hlo, hhi⟩ := digit_byte (isDigit_of_mem_toDigits (by omega) (by omega) hc)
  rw [UInt8.le_iff_toNat_le, UInt8.le_iff_toNat_le, hbyte]
  exact ⟨hlo, hhi⟩

/-! ## 5. A chain is read back -/

/-- The bytes that end a field do not stand in it. The index is one that a counter can have. -/
structure Record.Tidy (r : Record) : Prop where
  label : tab ∉ r.label ∧ newline ∉ r.label
  value : newline ∉ r.value

structure ChainBlock.Tidy (b : ChainBlock) : Prop where
  index : 0 ≤ b.index ∧ b.index < 2 ^ 63
  prevHash : tab ∉ b.prevHash ∧ newline ∉ b.prevHash
  root : tab ∉ b.root ∧ newline ∉ b.root
  hash : newline ∉ b.hash
  records : ∀ r ∈ b.records, r.Tidy

structure Chain.Tidy (c : Chain) : Prop where
  origin : newline ∉ c.origin
  blocks : ∀ b ∈ c.blocks, b.Tidy

/-- The lines of a block, and of a chain. -/
def blockLines (b : ChainBlock) : List Str := blockLine b :: b.records.map recordLine

def chainLines (c : Chain) : List Str := (ascii "O\t" ++ c.origin) :: c.blocks.flatMap blockLines

attribute [local simp] serialize recordLine blockLine

theorem serialize_eq (c : Chain) : serialize c = (chainLines c).flatMap (· ++ [newline]) := by
  simp [chainLines, blockLines, flatMap_assoc, flatMap_map, ascii]

theorem newline_notMem_ofInt (h0 : 0 ≤ n) : newline ∉ ofInt n ∧ tab ∉ ofInt n :=
  ⟨fun h => absurd (mem_ofInt h0 h).1 (by decide), fun h => absurd (mem_ofInt h0 h).1 (by decide)⟩

variable {c : Chain}

theorem newline_notMem_lines (hc : c.Tidy) : ∀ l ∈ chainLines c, newline ∉ l := by
  have htab : newline ≠ 9 := by decide
  have htags : newline ≠ 79 ∧ newline ≠ 66 ∧ newline ≠ 82 := by decide
  have hrecord : ∀ r : Record, r.Tidy → newline ∉ recordLine r := by
    intro r hr
    simp [ascii, htab, htags, hr.label.2, hr.value]
  have hblock : ∀ b : ChainBlock, b.Tidy → newline ∉ blockLine b := by
    intro b hb
    simp [ascii, htab, htags, (newline_notMem_ofInt hb.index.1).1, hb.prevHash.2, hb.root.2, hb.hash]
  intro l hl
  rcases mem_cons.mp hl with rfl | hl
  · simp [ascii, htab, htags, hc.origin]
  · obtain ⟨b, hb, hl⟩ := mem_flatMap.mp hl
    rcases mem_cons.mp hl with rfl | hl
    · exact hblock b (hc.blocks b hb)
    · obtain ⟨r, hr, rfl⟩ := mem_map.mp hl
      exact hrecord r ((hc.blocks b hb).records r hr)

variable {line : Str}

theorem tag_eq {y : UInt8} (h : line = x :: y :: s) : ¬ line.length < 2 ∧ substring line 0 1 = [x] := by
  subst h
  exact ⟨by simp, substring_from_start (s := x :: y :: s) (n := 1) (by simp)⟩

theorem tag_recordLine (r : Record) :
    ¬ (recordLine r).length < 2 ∧ substring (recordLine r) 0 1 = ascii "R" :=
  tag_eq (show recordLine r = 82 :: 9 :: (r.label ++ tab :: r.value) by simp [ascii])

theorem tag_blockLine (b : ChainBlock) :
    ¬ (blockLine b).length < 2 ∧ substring (blockLine b) 0 1 = ascii "B" :=
  tag_eq (show blockLine b = 66 :: 9 ::
    (ofInt b.index ++ tab :: (b.prevHash ++ tab :: (b.root ++ tab :: b.hash))) by simp [ascii])

theorem readRecord_recordLine {r : Record} (hr : r.Tidy) : readRecord (recordLine r) = some r := by
  have h1 : cutTab (recordLine r) = some (ascii "R", r.label ++ tab :: r.value) := by
    have : recordLine r = ascii "R" ++ tab :: (r.label ++ tab :: r.value) := by simp [ascii]
    rw [this]
    exact cutTab_append (by decide)
  rw [readRecord, h1]
  simp only [bind_eq_bind, bind_some, cutTab_append hr.label.1]

theorem readRecords_append : ∀ {rs : List Record} {lines : List Str}, (∀ r ∈ rs, r.Tidy) →
    readRecords (rs.map recordLine ++ lines) = (rs ++ (readRecords lines).1, (readRecords lines).2)
  | [], _, _ => rfl
  | r :: rs, lines, hrs => by
    have ih := @readRecords_append rs lines fun x hx => hrs x (mem_cons_of_mem r hx)
    rw [map_cons, cons_append, readRecords, if_neg (tag_recordLine r).1, (tag_recordLine r).2,
      if_neg (not_not.mpr rfl), readRecord_recordLine (hrs r mem_cons_self), ih]
    rfl

theorem readBlock_blockLine {b : ChainBlock} (hb : b.Tidy) :
    readBlock (blockLine b) = some (b.index, b.prevHash, b.root, b.hash) := by
  have h1 : cutTab (blockLine b) = some (ascii "B",
      ofInt b.index ++ tab :: (b.prevHash ++ tab :: (b.root ++ tab :: b.hash))) := by
    have : blockLine b = ascii "B" ++ tab ::
        (ofInt b.index ++ tab :: (b.prevHash ++ tab :: (b.root ++ tab :: b.hash))) := by
      simp [ascii]
    rw [this]
    exact cutTab_append (by decide)
  rw [readBlock, h1]
  simp only [bind_eq_bind, bind_some, cutTab_append (newline_notMem_ofInt hb.index.1).2,
    cutTab_append hb.prevHash.1, cutTab_append hb.root.1, parseInt_ofInt hb.index.1 hb.index.2]

/-- The record lines stop at the next block, and at the end of the text. -/
theorem readRecords_block (b : ChainBlock) (lines : List Str) :
    readRecords (blockLine b :: lines) = ([], blockLine b :: lines) := by
  rw [readRecords, if_neg (tag_blockLine b).1, (tag_blockLine b).2, if_pos (by decide)]

theorem readLines_block {b : ChainBlock} (hb : b.Tidy) (fuel : Nat) (origin : Str) (acc : List ChainBlock)
    (lines : List Str) : readLines (fuel + 1) origin acc (blockLines b ++ lines) =
      readLines fuel origin (acc ++ [{ b with records := b.records ++ (readRecords lines).1 }])
        (readRecords lines).2 := by
  rw [blockLines, cons_append, readLines, if_neg (tag_blockLine b).1, (tag_blockLine b).2,
    if_neg (by decide), if_neg (not_not.mpr rfl), readBlock_blockLine hb, readRecords_append hb.records]

theorem readLines_blocks : ∀ (bs : List ChainBlock) (fuel : Nat) (origin : Str) (acc : List ChainBlock),
    (∀ b ∈ bs, b.Tidy) → bs.length ≤ fuel →
    readLines fuel origin acc (bs.flatMap blockLines ++ [[]]) = ⟨origin, acc ++ bs⟩
  | [], 0, _, _, _, _ => by simp [readLines]
  | [], fuel + 1, origin, acc, _, _ => by
    cases fuel <;> simp [readLines]
  | [b], fuel + 1, origin, acc, hbs, _ => by
    have hend : readRecords [[]] = ([], []) := rfl
    rw [flatMap_cons, flatMap_nil, append_nil, readLines_block (hbs b mem_cons_self), hend,
      append_nil]
    cases fuel <;> rfl
  | b :: b' :: bs, fuel + 1, origin, acc, hbs, hfuel => by
    have ih := readLines_blocks (b' :: bs) fuel origin (acc ++ [b])
      (fun x hx => hbs x (mem_cons_of_mem b hx)) (by simpa using hfuel)
    have hstop : readRecords ((b' :: bs).flatMap blockLines ++ [[]]) =
        ([], (b' :: bs).flatMap blockLines ++ [[]]) := readRecords_block b' _
    rw [flatMap_cons, append_assoc, readLines_block (hbs b mem_cons_self), hstop, append_nil,
      ih, append_assoc]
    rfl

theorem length_le_blockLines : ∀ bs : List ChainBlock, bs.length ≤ (bs.flatMap blockLines).length
  | [] => le_refl _
  | b :: bs => by
    have ih := length_le_blockLines bs
    simp only [flatMap_cons, blockLines, length_append, length_cons]
    omega

/-- **A tidy chain is read back.** -/
theorem deserialize_serialize (hc : c.Tidy) : deserialize (serialize c) = c := by
  have hlines : split (serialize c) (ascii "\n") = chainLines c ++ [[]] := by
    rw [serialize_eq]
    exact (split_singleton _ newline).trans (splitSep_lines newline (newline_notMem_lines hc))
  have horigin : (ascii "O\t" ++ c.origin).suffix 2 = c.origin :=
    substring_to_end (s := ascii "O\t" ++ c.origin) (n := 2) (by simp [ascii])
  have htag : ¬ (ascii "O\t" ++ c.origin).length < 2 ∧ substring (ascii "O\t" ++ c.origin) 0 1 = ascii "O" :=
    tag_eq (show ascii "O\t" ++ c.origin = 79 :: 9 :: c.origin from rfl)
  have hfuel : c.blocks.length ≤ (c.blocks.flatMap blockLines ++ [[]]).length :=
    le_trans (length_le_blockLines c.blocks) (by simp)
  simp only [deserialize, hlines, chainLines, cons_append, length_cons]
  rw [readLines, if_neg htag.1, htag.2, if_pos rfl, horigin, readLines_blocks _ _ _ _ hc.blocks hfuel]
  rfl

/-! ## 6. What is read -/

/-- Fields that come out of lines. -/
structure Chain.Legible (c : Chain) : Prop where
  origin : newline ∉ c.origin
  prevHash : ∀ b ∈ c.blocks, tab ∉ b.prevHash ∧ newline ∉ b.prevHash
  value : ∀ b ∈ c.blocks, ∀ r ∈ b.records, newline ∉ r.value

theorem cutTab_parts (h : cutTab s = some (a, b)) (hs : newline ∉ s) :
    (tab ∉ a ∧ newline ∉ a) ∧ newline ∉ b := by
  obtain ⟨rfl, ha⟩ := cutTab_eq_some h
  simp only [mem_append, mem_cons, not_or] at hs
  exact ⟨⟨ha, hs.1⟩, hs.2.2⟩

theorem readRecord_value {r : Record} (h : readRecord line = some r) (hline : newline ∉ line) :
    newline ∉ r.value := by
  simp only [readRecord, bind_eq_bind, bind_eq_some_iff, some.injEq] at h
  obtain ⟨⟨_, after1⟩, h1, ⟨label, value⟩, h2, rfl⟩ := h
  exact (cutTab_parts h2 (cutTab_parts h1 hline).2).2

theorem readRecords_legible : ∀ {lines : List Str}, (∀ l ∈ lines, newline ∉ l) →
    (∀ r ∈ (readRecords lines).1, newline ∉ r.value) ∧ ∀ l ∈ (readRecords lines).2, newline ∉ l
  | [], _ => ⟨fun _ h => (by cases h), fun _ h => (by cases h)⟩
  | line :: lines, hlines => by
    obtain ⟨ihr, ihl⟩ := readRecords_legible fun l hl => hlines l (mem_cons_of_mem line hl)
    rw [readRecords]
    split_ifs
    · exact ⟨ihr, ihl⟩
    · exact ⟨fun _ h => (by cases h), hlines⟩
    · cases hread : readRecord line with
      | none => exact ⟨ihr, ihl⟩
      | some r =>
        refine ⟨fun x hx => ?_, ihl⟩
        rcases mem_cons.mp hx with rfl | hx
        · exact readRecord_value hread (hlines line mem_cons_self)
        · exact ihr x hx

theorem readBlock_prevHash {index : Int} {prevHash root hash : Str}
    (h : readBlock line = some (index, prevHash, root, hash)) (hline : newline ∉ line) :
    tab ∉ prevHash ∧ newline ∉ prevHash := by
  simp only [readBlock, bind_eq_bind, bind_eq_some_iff, some.injEq, Prod.mk.injEq] at h
  obtain ⟨⟨_, rest1⟩, h1, ⟨_, rest2⟩, h2, ⟨prev, rest3⟩, h3, _, _, _, rfl, _⟩ := h
  exact (cutTab_parts h3 (cutTab_parts h2 (cutTab_parts h1 hline).2).2).1

theorem readLines_legible : ∀ (fuel : Nat) {origin : Str} {blocks : List ChainBlock} {lines : List Str},
    Chain.Legible ⟨origin, blocks⟩ → (∀ l ∈ lines, newline ∉ l) →
    (readLines fuel origin blocks lines).Legible
  | 0, _, _, _, hacc, _ | _ + 1, _, _, [], hacc, _ => hacc
  | fuel + 1, origin, blocks, line :: lines, hacc, hlines => by
    have hrest : ∀ l ∈ lines, newline ∉ l := fun l hl => hlines l (mem_cons_of_mem line hl)
    have hline := hlines line mem_cons_self
    rw [readLines]
    split_ifs
    · exact readLines_legible fuel hacc hrest
    · exact readLines_legible fuel
        ⟨fun h => hline (mem_of_mem_substring h), hacc.prevHash, hacc.value⟩ hrest
    · exact readLines_legible fuel hacc hrest
    · cases hread : readBlock line with
      | none => exact readLines_legible fuel hacc hrest
      | some fields =>
        obtain ⟨index, prevHash, root, hash⟩ := fields
        obtain ⟨hrecords, hleft⟩ := readRecords_legible hrest
        refine readLines_legible fuel ⟨hacc.origin, fun b hb => ?_, fun b hb => ?_⟩ hleft
        · rcases mem_append.mp hb with hb | hb
          · exact hacc.prevHash b hb
          · rw [mem_singleton.mp hb]
            exact readBlock_prevHash hread hline
        · rcases mem_append.mp hb with hb | hb
          · exact hacc.value b hb
          · rw [mem_singleton.mp hb]
            exact hrecords

/-- **Whatever the text is**, no origin and no value that is read has a newline, no hash before a block a
tab. -/
theorem deserialize_legible (text : Str) : (deserialize text).Legible := by
  refine readLines_legible _ ⟨not_mem_nil, fun _ h => (by cases h), fun _ h => (by cases h)⟩ ?_
  intro l hl
  rw [show split text (ascii "\n") = splitSep newline text from split_singleton text newline] at hl
  exact notMem_of_mem_splitSep newline hl

/-! ## 7. Chains that were built -/

inductive Built (sha : Str → Str) : Chain → Prop where
  | new (origin : Str) (records : List Record) : Built sha (newChain sha origin records)
  | append {c : Chain} (hc : Built sha c) (records : List Record) : Built sha (append sha c records)

/-- What a chain that was built is made of. -/
structure Chain.Made (sha : Str → Str) (c : Chain) : Prop where
  first : ∃ b ∈ c.blocks, b.prevHash = c.origin
  index : ∀ b ∈ c.blocks, 0 ≤ b.index ∧ b.index < c.blocks.length
  prevHash : ∀ b ∈ c.blocks, b.prevHash = c.origin ∨ ∃ s, b.prevHash = sha s
  root : ∀ b ∈ c.blocks, ∃ s, b.root = sha s
  hash : ∀ b ∈ c.blocks, ∃ s, b.hash = sha s

theorem Built.made {sha : Str → Str} (h : Built sha c) : c.Made sha := by
  induction h with
  | new origin records =>
    refine ⟨⟨_, mem_singleton_self _, rfl⟩, fun b hb => ?_, fun b hb => ?_, fun b hb => ?_,
      fun b hb => ?_⟩ <;> rw [mem_singleton.mp hb]
    · exact ⟨le_refl _, by simp [sealBlock, newChain]⟩
    · exact .inl rfl
    · exact ⟨_, rfl⟩
    · exact ⟨_, rfl⟩
  | @append c hc records ih =>
    obtain ⟨b₀, hb₀, hprev₀⟩ := ih.first
    have hlen : ((Stdlib.append sha c records).blocks.length : Int) = c.blocks.length + 1 := by
      simp [Stdlib.append]
    obtain ⟨b₁, hlast⟩ : ∃ b₁, c.blocks.getLast? = some b₁ := by
      cases hl : c.blocks.getLast? with
      | none => simp [getLast?_eq_none_iff.mp hl] at hb₀
      | some b₁ => exact ⟨b₁, rfl⟩
    refine ⟨⟨b₀, mem_append_left _ hb₀, hprev₀⟩, fun b hb => ?_, fun b hb => ?_, fun b hb => ?_,
      fun b hb => ?_⟩
    all_goals rcases mem_append.mp hb with hb | hb
    · have := ih.index b hb
      omega
    · rw [mem_singleton.mp hb, hlen]
      simp only [sealBlock]
      omega
    · exact ih.prevHash b hb
    · rw [mem_singleton.mp hb]
      obtain ⟨s, hs⟩ := ih.hash b₁ (mem_of_getLast? hlast)
      refine .inr ⟨s, ?_⟩
      simp only [sealBlock, hlast, hs]
    · exact ih.root b hb
    · rw [mem_singleton.mp hb]
      exact ⟨_, rfl⟩
    · exact ih.hash b hb
    · rw [mem_singleton.mp hb]
      exact ⟨_, rfl⟩

theorem digest_tidy {sha : Str → Str} (D : Digest sha) (s : Str) : tab ∉ sha s ∧ newline ∉ sha s := by
  refine ⟨fun h => ?_, fun h => ?_⟩
  all_goals exact absurd (D.hex s _ h) (by decide)

/-- **The text of a chain.** For every chain that was built, of at most 2^63 blocks, with labels without tab
and newline and any values, what is read from its text is the chain exactly if its origin has neither tab
nor newline and no value has a newline. -/
theorem text_round_trip_iff {sha : Str → Str} (D : Digest sha) {c : Chain} (hc : Built sha c)
    (hsize : c.blocks.length ≤ 2 ^ 63)
    (hlabel : ∀ b ∈ c.blocks, ∀ r ∈ b.records, tab ∉ r.label ∧ newline ∉ r.label) :
    deserialize (serialize c) = c ↔ (tab ∉ c.origin ∧ newline ∉ c.origin) ∧
      ∀ b ∈ c.blocks, ∀ r ∈ b.records, newline ∉ r.value := by
  have hmade := hc.made
  constructor
  · intro h
    have hlegible := deserialize_legible (serialize c)
    rw [h] at hlegible
    obtain ⟨b, hb, hprev⟩ := hmade.first
    rw [← hprev]
    exact ⟨hlegible.prevHash b hb, hlegible.value⟩
  · rintro ⟨horigin, hvalues⟩
    refine deserialize_serialize ⟨horigin.2, fun b hb => ?_⟩
    obtain ⟨s, hroot⟩ := hmade.root b hb
    obtain ⟨t, hhash⟩ := hmade.hash b hb
    have hindex := hmade.index b hb
    refine ⟨by omega, ?_, hroot ▸ digest_tidy D s, hhash ▸ (digest_tidy D t).2, fun r hr =>
      ⟨hlabel b hb r hr, hvalues b hb r hr⟩⟩
    rcases hmade.prevHash b hb with hprev | ⟨u, hprev⟩
    · exact hprev ▸ horigin
    · exact hprev ▸ digest_tidy D u

/-- Two blocks, a value with a tab, and one with a `=`. -/
theorem text_round_trip_iff_pair :
    deserialize (serialize (append lengthDigest (newChain lengthDigest (ascii "o") [⟨ascii "a", ascii "b\tc"⟩])
      [⟨ascii "k", ascii "v=w"⟩])) =
    append lengthDigest (newChain lengthDigest (ascii "o") [⟨ascii "a", ascii "b\tc"⟩])
      [⟨ascii "k", ascii "v=w"⟩] :=
  (text_round_trip_iff lengthDigest_digest (.append (.new _ _) _) (by decide +kernel)
    (by decide +kernel)).mpr (by decide +kernel)

/-- A value of two lines is read as its first line. -/
theorem newline_lost :
    deserialize (serialize (newChain lengthDigest (ascii "o") [⟨ascii "k", ascii "v\nw"⟩])) =
      { newChain lengthDigest (ascii "o") [⟨ascii "k", ascii "v\nw"⟩] with
        blocks := [{ sealBlock lengthDigest 0 (ascii "o") [⟨ascii "k", ascii "v\nw"⟩] with
          records := [⟨ascii "k", ascii "v"⟩] }] } ∧
    deserialize (serialize (newChain lengthDigest (ascii "o") [⟨ascii "k", ascii "v\nw"⟩])) ≠
      newChain lengthDigest (ascii "o") [⟨ascii "k", ascii "v\nw"⟩] := by
  decide +kernel

/-! ## 8. Texts that are no chain -/

/-- A block line that does not bear the hash of its own fields. -/
def Unsealed (sha : Str → Str) (line : Str) : Prop :=
  2 ≤ line.length ∧ line.substring 0 1 = ascii "B" ∧
    ∃ index prevHash root hash, readBlock line = some (index, prevHash, root, hash) ∧
      hash ≠ blockHash sha index prevHash root

section Malformed

variable {sha : Str → Str}

/-- A line that is passed over as belonging to a block starts with `R`, or has no tag. -/
theorem readRecords_keeps {line : Str} (h2 : 2 ≤ line.length) (htag : line.substring 0 1 = ascii "B") :
    ∀ {lines : List Str}, line ∈ lines → line ∈ (readRecords lines).2
  | l :: lines, h => by
    rw [readRecords]
    split_ifs with hshort hr
    · rcases mem_cons.mp h with rfl | h
      · omega
      · exact readRecords_keeps h2 htag h
    · exact h
    · rcases mem_cons.mp h with rfl | h
      · rw [htag] at hr
        exact absurd (by decide) hr
      · cases readRecord l <;> exact readRecords_keeps h2 htag h

theorem readRecords_length : ∀ lines : List Str, (readRecords lines).2.length ≤ lines.length
  | [] => le_refl _
  | line :: lines => by
    have ih := readRecords_length lines
    rw [readRecords, length_cons]
    split_ifs
    · omega
    · exact le_refl _
    · cases readRecord line <;> exact le_succ_of_le ih

theorem readLines_keeps {b : ChainBlock} : ∀ (fuel : Nat) {origin : Str} {blocks : List ChainBlock}
    {lines : List Str}, b ∈ blocks → b ∈ (readLines fuel origin blocks lines).blocks
  | 0, _, _, _, h | _ + 1, _, _, [], h => h
  | fuel + 1, origin, blocks, line :: lines, h => by
    rw [readLines]
    split_ifs
    iterate 3 exact readLines_keeps fuel h
    · cases readBlock line with
      | none => exact readLines_keeps fuel h
      | some fields => exact readLines_keeps fuel (mem_append_left _ h)

/-- Every block line that can be read is read, wherever it stands. -/
theorem readLines_reads {line : Str} (h2 : 2 ≤ line.length) (htag : line.substring 0 1 = ascii "B")
    {index : Int} {prevHash root hash : Str} (hread : readBlock line = some (index, prevHash, root, hash)) :
    ∀ (fuel : Nat) {origin : Str} {blocks : List ChainBlock} {lines : List Str}, lines.length ≤ fuel →
      line ∈ lines → ∃ b ∈ (readLines fuel origin blocks lines).blocks,
        b.index = index ∧ b.prevHash = prevHash ∧ b.root = root ∧ b.hash = hash
  | 0, _, _, lines, hfuel, h => by
    rw [eq_nil_of_length_eq_zero (le_zero.mp hfuel)] at h
    cases h
  | _ + 1, _, _, [], _, h => by cases h
  | fuel + 1, origin, blocks, l :: lines, hfuel, h => by
    have hlen : lines.length ≤ fuel := by simpa using hfuel
    rcases mem_cons.mp h with rfl | h
    · rw [readLines, if_neg (by omega), htag, if_neg (by decide), if_neg (not_not.mpr rfl), hread]
      exact ⟨_, readLines_keeps fuel (mem_append_right _ (mem_singleton_self _)), rfl, rfl, rfl, rfl⟩
    · rw [readLines]
      split_ifs
      iterate 3 exact readLines_reads h2 htag hread fuel hlen h
      · cases readBlock l with
        | none => exact readLines_reads h2 htag hread fuel hlen h
        | some fields =>
          exact readLines_reads h2 htag hread fuel (le_trans (readRecords_length lines) hlen)
            (readRecords_keeps h2 htag h)

/-- Where no block line can be read, no block is. -/
theorem readLines_none : ∀ (fuel : Nat) {origin : Str} {lines : List Str},
    (∀ line ∈ lines, 2 ≤ line.length → line.substring 0 1 = ascii "B" → readBlock line = none) →
    (readLines fuel origin [] lines).blocks = []
  | 0, _, _, _ | _ + 1, _, [], _ => rfl
  | fuel + 1, origin, line :: lines, h => by
    have hrest := fun l hl => h l (mem_cons_of_mem line hl)
    rw [readLines]
    split_ifs with hshort horigin htag
    iterate 3 exact readLines_none fuel hrest
    · rw [h line mem_cons_self (by omega) (not_not.mp htag)]
      exact readLines_none fuel hrest

end Malformed

end Vyb.Stdlib
