/-
  Subject:   The merge loop of the tokenizer against byte pair encoding by the pairs of a merges file.

  `build_merges_from` keeps the concatenation of a pair and not the pair, skips every line that starts with
  `#`, and the search never takes a rank from 2147483647 on. So neighbours whose concatenation is listed, split
  elsewhere, are merged as well, and a listed pair that starts with `#` is not.

  * `mergesLoop_eq`, `lookup_fold` -- the table that the loop over the text makes of a file's lines;
  * `rankOf_iff`, `exists_of_rank` -- the ranks that the code and the reference have;
  * **`merging_iff`** -- for a file whose pairs have distinct concatenations, the symbols are the reference's for
    every word exactly if the reference itself never leaves a listed concatenation in two symbols, nor brings
    one together that the code skips.
-/
import Vyb.Lib.Split
import Vyb.Stdlib.Tokenizer

namespace Vyb.Stdlib.Vllm

open Lib Vyb.Runtime List Option Bpe

/-! ## 1. Merges files -/

/-- A line `a b`. -/
structure Line where
  left : Str
  right : Str
  left_ne : left ≠ []
  right_ne : right ≠ []
  left_word : 32 ∉ left ∧ 10 ∉ left
  right_word : 32 ∉ right ∧ 10 ∉ right

namespace Line

def text (l : Line) : Str := l.left ++ 32 :: l.right

/-- What the table keeps of the line. -/
def key (l : Line) : Str := l.left ++ l.right

/-- A line that the code takes for a comment. -/
def hash (l : Line) : Bool := l.left.head? == some 35

end Line

open Line

/-- A file: a `#version` line or none, and the lines in the order of their ranks. -/
structure MergesFile where
  version : Option Str
  lines : List Line
  ended : Bool
  version_ok : ∀ v, version = some v → Str.ascii "#version" <+: v ∧ 10 ∉ v
  unversioned : version = none → ∀ l, lines.head? = some l → ¬ Str.ascii "#version" <+: l.text

namespace MergesFile

variable (f : MergesFile)

def text : Str :=
  joinSep 10 (f.version.toList ++ f.lines.map Line.text) ++ if f.ended then [10] else []

/-- `l` is a line of the file, behind the lines `A`. -/
def Listed (A : List Line) (l : Line) : Prop := ∃ B, f.lines = A ++ l :: B

/-- The rank of a pair in the file: that of the first line with it. -/
def rank (x y : Str) : Option Nat := (f.lines.map fun l => (l.left, l.right)).idxOf? (x, y)

/-- **The reference**: the leftmost pair of least rank is merged until no neighbours are a listed pair. -/
def reference (w : Str) : List Str := Bpe.bpe f.rank (textToChars w)

/-- The symbols of `bpe_word_ids` for a word, as `bpe_chars` calls it. -/
def wordSymbols (w : Str) : List Str :=
  let j := joinChars (textToChars w) 0 (textToChars w).length
  wordTokens (buildMerges f.text) j.sw j.st

end MergesFile

/-- The rank that the code gives to the line behind `A`. -/
def rankBehind (A : List Line) : Nat := A.countP fun l => !l.hash

/-- A line whose pair is never merged: a comment, or one with a rank that the search does not take. -/
def Skipped (A : List Line) (l : Line) : Prop := l.hash = true ∨ 2147483647 ≤ rankBehind A

/-! ## 2. The table of a file -/

/-- What a line does, also an empty one. -/
def addPiece (acc : Int × Table Int) (line : Str) : Int × Table Int :=
  if line = [] then acc else addLine acc line

theorem charAt_mid_ne {pre l rest : Str} {x : UInt8} (hx : x ∉ l) {q : Nat} (hlo : pre.length ≤ q)
    (hhi : q < pre.length + l.length) : (Str.charAt (pre ++ (l ++ rest)) q != x.toNat) = true := by
  have hq : q - pre.length < l.length := by omega
  obtain ⟨y, hy⟩ : ∃ y, l[q - pre.length]? = some y := ⟨_, getElem?_eq_getElem hq⟩
  have hget : Str.charAt (pre ++ (l ++ rest)) q = y.toNat := by
    rw [Str.charAt, getD_eq_getElem?_getD, getElem?_append_right hlo, getElem?_append_left hq, hy, getD_some]
  rw [hget, bne_iff_ne]
  exact fun heq => hx (UInt8.toNat_inj.mp heq ▸ mem_of_getElem? hy)

theorem advance_to_byte (pre : Str) {line : Str} (rest : Str) {x : UInt8} (hx : x ∉ line)
    (hrest : ∀ y, rest.head? = some y → y = x) :
    advanceTo (fun j => Str.charAt (pre ++ (line ++ rest)) j != x.toNat) (pre ++ (line ++ rest)).length
      pre.length = pre.length + line.length := by
  refine advanceTo_eq (Nat.le_add_right _ _) (by simp) (fun q hlo hhi => charAt_mid_ne hx hlo hhi) fun hlt => ?_
  cases rest with
  | nil => simp at hlt
  | cons y rest =>
    obtain rfl := hrest y rfl
    have h := charAt_append (a := pre ++ line) (b := [y]) (by simp) rest
    rw [append_assoc, length_append] at h
    rw [bne_eq_false_iff_eq]
    exact h

theorem mergesLoop_behind {s : Str} {i : Nat} (hi : s.length ≤ i) (acc : Int × Table Int) :
    ∀ fuel, mergesLoop s fuel i acc = acc
  | 0 => rfl
  | fuel + 1 => by rw [mergesLoop, if_neg (Nat.not_lt.mpr hi)]

/-- **The loop goes over the lines.** -/
theorem mergesLoop_eq : ∀ (fuel : Nat) (pre rest : Str) (acc : Int × Table Int), rest.length ≤ fuel →
    mergesLoop (pre ++ rest) fuel pre.length acc = (splitSep 10 rest).foldl addPiece acc
  | 0, pre, rest, acc, h => by
    obtain rfl := length_eq_zero_iff.mp (Nat.le_zero.mp h)
    rfl
  | fuel + 1, pre, rest, acc, h => by
    by_cases hmem : (10 : UInt8) ∈ rest
    · obtain ⟨line, behind, rfl, hline⟩ := eq_append_cons_of_mem hmem
      have hj := advance_to_byte pre (10 :: behind) hline (by simp)
      have ih := mergesLoop_eq fuel (pre ++ (line ++ [10])) behind
      have hnext : pre ++ (line ++ [10]) ++ behind = pre ++ (line ++ 10 :: behind) := by simp
      have hlen : (pre ++ (line ++ [10])).length = pre.length + line.length + 1 := by
        simp [Nat.add_assoc]
      rw [hnext, hlen] at ih
      have hlt : pre.length < (pre ++ (line ++ 10 :: behind)).length := by simp
      have hfuel : behind.length ≤ fuel := by simp at h; omega
      rw [splitSep_append, splitSep_of_notMem 10 hline, singleton_append, foldl_cons, mergesLoop,
        if_pos hlt]
      dsimp only
      rw [show (10 : Nat) = (10 : UInt8).toNat from rfl, hj, substring_mid]
      by_cases hnil : line = []
      · subst hnil
        rw [length_nil, Nat.add_zero] at ih ⊢
        rw [if_pos rfl, ih _ hfuel, addPiece, if_pos rfl]
      · have hpos : pre.length + line.length ≠ pre.length := by
          have := length_pos_of_ne_nil hnil
          omega
        rw [if_neg hpos, ih _ hfuel, addPiece, if_neg hnil]
    · rw [splitSep_of_notMem 10 hmem, foldl_cons, foldl_nil, mergesLoop, addPiece]
      have hj := advance_to_byte pre [] hmem (by simp)
      have hsub := substring_mid pre rest []
      rw [append_nil] at hj hsub
      by_cases hnil : rest = []
      · subst hnil
        rw [if_neg (by simp), if_pos rfl]
      · have hpos := length_pos_of_ne_nil hnil
        rw [if_pos (by simpa using hpos)]
        rw [show (10 : Nat) = (10 : UInt8).toNat from rfl, hj, if_neg (by omega), if_neg hnil, hsub,
          mergesLoop_behind (by simp)]

theorem buildMerges_eq (s : Str) : buildMerges s = ((splitSep 10 s).foldl addPiece (0, [])).2 := by
  rw [buildMerges]
  exact congrArg Prod.snd (mergesLoop_eq s.length [] s (0, []) (le_refl _))

theorem Line.firstSpace_text (l : Line) : firstSpace l.text = l.left.length := by
  have hj := advance_to_byte [] (32 :: l.right) l.left_word.1 (by simp)
  simp only [nil_append, length_nil, Nat.zero_add] at hj
  have hlt : l.left.length < l.text.length := by simp [Line.text]
  rw [Line.text] at hlt ⊢
  rw [firstSpace, show (32 : Nat) = (32 : UInt8).toNat from rfl, hj, if_pos hlt]

theorem Line.charAt_text (l : Line) : Str.charAt l.text 0 = 35 ↔ l.hash = true := by
  rw [Line.text, hash]
  cases h : l.left with
  | nil => exact absurd h l.left_ne
  | cons x left => simpa [Str.charAt] using (UInt8.toNat_inj (b := 35))

/-- **What the line of a pair does.** -/
theorem addPiece_line (acc : Int × Table Int) (l : Line) : addPiece acc l.text =
    if l.hash then acc else (acc.1 + 1, overwrite acc.2 (l.key, acc.1)) := by
  have hne : l.text ≠ [] := by simp [Line.text]
  have hpos : (0 : Int) < l.left.length := by
    have := length_pos_of_ne_nil l.left_ne
    omega
  have hleft : l.text.substring 0 l.left.length = l.left := by
    have h := substring_mid [] l.left (32 :: l.right)
    simpa [Line.text] using h
  have hright : l.text.substring (l.left.length + 1) l.text.length = l.right := by
    have h := substring_mid (l.left ++ [32]) l.right []
    have hlen : l.text.length = l.left.length + 1 + l.right.length := by
      simp [Line.text]
      omega
    rw [hlen]
    simpa [Line.text] using h
  rw [addPiece, if_neg hne, addLine, l.firstSpace_text]
  by_cases hh : l.hash = true
  · rw [if_pos (l.charAt_text.mpr hh), if_pos hh]
  · rw [if_neg fun h => hh (l.charAt_text.mp h), if_neg hh, if_pos hpos, hleft, hright, key]

theorem splitSep_joinSep {x : UInt8} : ∀ {ls : List Str}, ls ≠ [] → (∀ l ∈ ls, x ∉ l) →
    splitSep x (joinSep x ls) = ls
  | [], h, _ => absurd rfl h
  | [l], _, h => splitSep_of_notMem x (h l mem_cons_self)
  | l :: k :: ls, _, h => by
    rw [joinSep, splitSep_append, splitSep_of_notMem x (h l mem_cons_self),
      splitSep_joinSep (cons_ne_nil k ls) fun m hm => h m (mem_cons_of_mem l hm)]
    rfl

/-- An empty line at the end does nothing. -/
theorem foldl_ended (s : Str) (ended : Bool) (acc : Int × Table Int) :
    (splitSep 10 (s ++ if ended then [10] else [])).foldl addPiece acc = (splitSep 10 s).foldl addPiece acc := by
  cases ended with
  | false => simp
  | true =>
    rw [if_pos rfl, splitSep_append, foldl_append]
    rfl

theorem addPiece_version {v : Str} (hv : Str.ascii "#version" <+: v) (acc : Int × Table Int) :
    addPiece acc v = acc := by
  obtain ⟨rest, rfl⟩ := hv
  rfl

/-- The table of a file is made of its lines. -/
theorem buildMerges_text (f : MergesFile) :
    buildMerges f.text = ((f.lines.map Line.text).foldl addPiece (0, [])).2 := by
  have hlines : ∀ l ∈ f.version.toList ++ f.lines.map Line.text, (10 : UInt8) ∉ l := by
    intro l hl
    rcases mem_append.mp hl with hl | hl
    · exact (f.version_ok l (mem_toList.mp hl)).2
    · obtain ⟨k, -, rfl⟩ := mem_map.mp hl
      simp [Line.text, k.left_word.2, k.right_word.2]
  have hversion : ∀ acc, f.version.toList.foldl addPiece acc = acc := by
    intro acc
    cases hv : f.version with
    | none => rfl
    | some v => exact addPiece_version (f.version_ok v hv).1 acc
  rw [buildMerges_eq, MergesFile.text, foldl_ended]
  by_cases hnil : f.version.toList ++ f.lines.map Line.text = []
  · rw [hnil, (append_eq_nil_iff.mp hnil).2]
    rfl
  · rw [splitSep_joinSep hnil hlines, foldl_append, hversion]

/-- **The table of lines with distinct concatenations.** -/
theorem lookup_fold {L : List Line} (hdistinct : (L.map Line.key).Nodup) :
    ((L.map Line.text).foldl addPiece (0, [])).1 = rankBehind L ∧ ∀ key r,
      ((L.map Line.text).foldl addPiece (0, [])).2.lookup key = some r ↔
        ∃ A l B, L = A ++ l :: B ∧ l.key = key ∧ l.hash = false ∧ r = rankBehind A := by
  induction L using reverseRecOn with
  | nil => exact ⟨rfl, fun key r => by simp⟩
  | append_singleton L l ih =>
    rw [map_append, nodup_append'] at hdistinct
    obtain ⟨hrank, hlookup⟩ := ih hdistinct.1
    have hnew : l.key ∉ L.map key := fun h => hdistinct.2.2 h (by simp)
    have hold : ∀ key r, (∃ A k B, L ++ [l] = A ++ k :: B ∧ k.key = key ∧ k.hash = false ∧ r = (rankBehind A : Int)) ↔
        (∃ A k B, L = A ++ k :: B ∧ k.key = key ∧ k.hash = false ∧ r = (rankBehind A : Int)) ∨
          l.key = key ∧ l.hash = false ∧ r = (rankBehind L : Int) := by
      intro key r
      constructor
      · rintro ⟨A, k, B, hL, hk⟩
        rcases append_eq_mid hL with ⟨C, rfl, -⟩ | ⟨C, hl, rfl⟩
        · exact .inl ⟨A, k, C, rfl, hk⟩
        · cases C with
          | nil =>
            cases hl
            rw [append_nil] at hk
            exact .inr hk
          | cons c C => simp at hl
      · rintro (⟨A, k, B, rfl, hk⟩ | hk)
        · exact ⟨A, k, B ++ [l], by simp, hk⟩
        · exact ⟨L, l, [], rfl, hk⟩
    rw [map_append, foldl_append, map_singleton, foldl_cons, foldl_nil, addPiece_line]
    cases hh : l.hash with
    | true =>
      refine ⟨?_, fun key r => ?_⟩
      · rw [if_pos rfl, hrank, rankBehind, rankBehind, countP_append]
        simp [hh]
      · rw [if_pos rfl, hlookup, hold, hh]
        simp
    | false =>
      rw [if_neg (by simp)]
      refine ⟨?_, fun key r => ?_⟩
      · dsimp only
        rw [hrank, rankBehind, rankBehind, countP_append]
        simp [hh]
      · rw [lookup_overwrite, hold, ← hlookup]
        by_cases hkey : key = l.key
        · subst hkey
          have hnone : ∀ r, ¬ ((L.map Line.text).foldl addPiece (0, [])).2.lookup l.key = some r := by
            intro r h
            obtain ⟨A, k, B, rfl, hk, -⟩ := (hlookup l.key r).mp h
            exact hnew (by simp [← hk])
          simp [hnone r, hrank, hh, eq_comm]
        · simp [hkey, Ne.symm hkey]

/-! ## 3. The ranks of the code and of the reference -/

section

variable {f : MergesFile} {A : List Line} {l : Line}

theorem listed_unique (hdistinct : (f.lines.map Line.key).Nodup) {A' : List Line} {l' : Line}
    (h : f.Listed A l) (h' : f.Listed A' l') (hkey : l.key = l'.key) : A = A' ∧ l = l' := by
  obtain ⟨B, hB⟩ := h
  obtain ⟨B', hB'⟩ := h'
  have hlen : A.length = A'.length := by
    have hget : (f.lines.map key)[A.length]? = some l.key := by simp [hB]
    have hget' : (f.lines.map key)[A'.length]? = some l.key := by simp [hB', hkey]
    obtain ⟨hlt, he⟩ := List.getElem?_eq_some_iff.mp hget
    obtain ⟨hlt', he'⟩ := List.getElem?_eq_some_iff.mp hget'
    exact hdistinct.getElem_inj_iff.mp (he.trans he'.symm)
  obtain ⟨hA, hl⟩ := append_inj (hB.symm.trans hB') hlen
  exact ⟨hA, (cons.inj hl).1⟩

/-- **The rank of a concatenation** in the code. -/
theorem rankOf_iff (hdistinct : (f.lines.map Line.key).Nodup) {key : Str} {r : Nat} :
    rankOf (buildMerges f.text) key = some r ↔
      ∃ A l, f.Listed A l ∧ l.key = key ∧ ¬ Skipped A l ∧ r = rankBehind A := by
  obtain ⟨-, hlookup⟩ := lookup_fold hdistinct
  rw [← buildMerges_text] at hlookup
  rw [rankOf, bind_eq_some_iff]
  constructor
  · rintro ⟨n, hn, hr⟩
    obtain ⟨A, l, B, hB, hkey, hhash, rfl⟩ := (hlookup key n).mp hn
    split at hr
    · rename_i hbound
      refine ⟨A, l, ⟨B, hB⟩, hkey, ?_, by simpa using hr.symm⟩
      rintro (hskip | hskip)
      · rw [hhash] at hskip
        cases hskip
      · omega
    · cases hr
  · rintro ⟨A, l, ⟨B, hB⟩, hkey, hskip, rfl⟩
    rw [Skipped, not_or, Bool.not_eq_true, Nat.not_le] at hskip
    refine ⟨rankBehind A, (hlookup key _).mpr ⟨A, l, B, hB, hkey, hskip.1, rfl⟩, ?_⟩
    rw [if_pos (by omega), Int.toNat_natCast]

/-- A rank of the reference is the place of a line. -/
theorem exists_of_rank {x y : Str} {i : Nat} (h : f.rank x y = some i) :
    ∃ A l, f.Listed A l ∧ l.left = x ∧ l.right = y ∧ A.length = i := by
  obtain ⟨hi, hxy, -⟩ := idxOf?_eq_some_iff.mp h
  rw [length_map] at hi
  rw [getElem_map, Prod.mk.injEq] at hxy
  refine ⟨f.lines.take i, f.lines[i], ⟨f.lines.drop (i + 1), ?_⟩, hxy.1, hxy.2, ?_⟩
  · rw [← drop_eq_getElem_cons hi, take_append_drop]
  · rw [length_take]
    omega

/-! ## 4. The merge loop and the reference -/

/-- The ranks of byte strings, in the reference and in the code. -/
def MergesFile.byteRank (f : MergesFile) (x y : Str) : Option Nat := f.rank (glyphs x) (glyphs y)

def MergesFile.codeRank (f : MergesFile) (x y : Str) : Option Nat := rankOf (buildMerges f.text) (glyphs (x ++ y))

theorem reference_eq (f : MergesFile) (w : Str) :
    f.reference w = (Bpe.bpe f.byteRank (Bpe.letters w)).map glyphs := by
  rw [MergesFile.reference, textToChars_eq]
  exact bpe_map glyphs_append (fun _ _ => rfl) _

theorem wordSymbols_eq (f : MergesFile) (w : Str) :
    f.wordSymbols w = (Bpe.bpe f.codeRank (Bpe.letters w)).map glyphs := by
  obtain ⟨hsw, hst⟩ := joinChars_eq (textToChars w) (a := 0) (le_refl _)
  have hall : slice (textToChars w) 0 (textToChars w).length = textToChars w := by
    rw [slice, drop_zero, Nat.sub_zero, take_length]
  rw [MergesFile.wordSymbols, hsw, hst, wordTokens_offsets, hall, textToChars_eq]
  refine bpe_map glyphs_append (fun x y => ?_) _
  rw [pairRankOf, MergesFile.codeRank, glyphs_append]

/-- The listed concatenations, and what the reference makes of them. -/
def MergesFile.Agrees (f : MergesFile) : Prop := ∀ A l, f.Listed A l → ∀ v, glyphs v = l.key →
  (Skipped A l → (f.reference v).length = 1 → v.length = 1) ∧ (¬ Skipped A l → (f.reference v).length ≠ 2)

/-- Where the reference comes, the code has the same ranks, numbered without the lines that it skips. -/
theorem codeRank_of_comes (hdistinct : (f.lines.map Line.key).Nodup) (hagrees : f.Agrees) {w : Str}
    {C D : List Str} {x y : Str} (h : Bpe.Comes f.byteRank (Bpe.letters w) (C ++ x :: y :: D)) :
    f.codeRank x y = (f.byteRank x y).map fun i => rankBehind (f.lines.take i) := by
  have hpair := comes_pair h
  have href := (reference_eq f (x ++ y)).trans (congrArg (map glyphs) hpair.bpe_pair)
  cases hr : f.byteRank x y with
  | some i =>
    obtain ⟨A, l, hl, hx, hy, rfl⟩ := exists_of_rank hr
    have hkey : glyphs (x ++ y) = l.key := by rw [glyphs_append, ← hx, ← hy, key]
    have hx_ne : x ≠ [] := fun hnil => l.left_ne (by rw [hx, hnil]; rfl)
    have hy_ne : y ≠ [] := fun hnil => l.right_ne (by rw [hy, hnil]; rfl)
    have hskip : ¬ Skipped A l := by
      intro hskip
      have hone := (hagrees A l hl (x ++ y) hkey).1 hskip (by rw [href, hr]; rfl)
      have hx_pos := length_pos_of_ne_nil hx_ne
      have hy_pos := length_pos_of_ne_nil hy_ne
      rw [length_append] at hone
      omega
    obtain ⟨B, hB⟩ := hl
    have htake : f.lines.take A.length = A := by rw [hB, take_left]
    rw [map_some, htake, MergesFile.codeRank, rankOf_iff hdistinct]
    exact ⟨A, l, ⟨B, hB⟩, hkey.symm, hskip, rfl⟩
  | none =>
    rw [map_none]
    by_contra hne
    obtain ⟨r, hcode⟩ := ne_none_iff_exists'.mp hne
    obtain ⟨A, l, hl, hkey, hskip, -⟩ := (rankOf_iff hdistinct).mp hcode
    exact (hagrees A l hl (x ++ y) hkey.symm).2 hskip (by rw [href, hr]; rfl)

/-- Lines that the code does not skip keep their order. -/
theorem rankBehind_lt {A A' : List Line} {l l' : Line} (h : f.Listed A l) (h' : f.Listed A' l')
    (hhash : l.hash = false) (hlt : A.length < A'.length) : rankBehind A < rankBehind A' := by
  obtain ⟨B, hB⟩ := h
  obtain ⟨B', hB'⟩ := h'
  rcases append_eq_mid (hB'.symm.trans hB) with ⟨C, rfl, -⟩ | ⟨C, -, rfl⟩
  · rw [rankBehind, rankBehind, countP_append, countP_cons_of_pos (by simp [hhash])]
    omega
  · rw [length_append] at hlt
    omega

theorem wordSymbols_of_agrees (hdistinct : (f.lines.map Line.key).Nodup) (hagrees : f.Agrees) (w : Str) :
    f.wordSymbols w = f.reference w := by
  have hbpe : Bpe.bpe f.codeRank (Bpe.letters w) = Bpe.bpe f.byteRank (Bpe.letters w) := by
    refine bpe_congr (fun C x y D h => codeRank_of_comes hdistinct hagrees h) ?_
    intro x y x' y' r s hr hr' hs _ hlt
    obtain ⟨A, l, hl, hx, hy, rfl⟩ := exists_of_rank hr
    obtain ⟨A', l', hl', -, -, rfl⟩ := exists_of_rank hs
    obtain ⟨A₁, l₁, hl₁, hkey, hskip, -⟩ := (rankOf_iff hdistinct).mp hr'
    have hsame : l₁.key = l.key := by rw [hkey, glyphs_append, ← hx, ← hy, key]
    obtain ⟨rfl, rfl⟩ := listed_unique hdistinct hl₁ hl hsame
    have htake : f.lines.take A₁.length = A₁ := by
      obtain ⟨B, hB⟩ := hl
      rw [hB, take_left]
    have htake' : f.lines.take A'.length = A' := by
      obtain ⟨B, hB⟩ := hl'
      rw [hB, take_left]
    rw [htake, htake']
    exact rankBehind_lt hl hl' (by simpa using (not_or.mp hskip).1) hlt
  rw [wordSymbols_eq, reference_eq, hbpe]

theorem agrees_of_wordSymbols (hdistinct : (f.lines.map Line.key).Nodup)
    (h : ∀ w, f.wordSymbols w = f.reference w) : f.Agrees := by
  intro A l hl v hv
  obtain ⟨hcomes, hnone⟩ := bpe_spec f.codeRank (Bpe.letters v)
  have hflat : (Bpe.bpe f.codeRank (Bpe.letters v)).flatten = v := by
    rw [comes_flatten hcomes, flatten_letters]
  have hlen : (f.reference v).length = (Bpe.bpe f.codeRank (Bpe.letters v)).length := by
    rw [← h v, wordSymbols_eq, length_map]
  refine ⟨fun hskip hone => ?_, fun hskip htwo => ?_⟩
  · obtain ⟨z, hz⟩ := length_eq_one_iff.mp (hlen.symm.trans hone)
    rw [hz, flatten_singleton] at hflat
    subst hflat
    rcases hcomes.mem z (hz ▸ mem_singleton_self z) with hletter | ⟨x, y, rfl, hrank⟩
    · obtain ⟨c, -, rfl⟩ := mem_map.mp hletter
      rfl
    · obtain ⟨r, hr⟩ := isSome_iff_exists.mp hrank
      obtain ⟨A', l', hl', hkey, hskip', -⟩ := (rankOf_iff hdistinct).mp hr
      obtain ⟨rfl, rfl⟩ := listed_unique hdistinct hl' hl (hkey.trans hv)
      exact absurd hskip hskip'
  · obtain ⟨x, y, hxy⟩ := length_eq_two.mp (hlen.symm.trans htwo)
    rw [hxy, flatten_cons, flatten_singleton] at hflat
    have hrank : f.codeRank x y = some (rankBehind A) := by
      rw [MergesFile.codeRank, hflat, rankOf_iff hdistinct]
      exact ⟨A, l, hl, hv.symm, hskip, rfl⟩
    rw [hxy, best_pair, hrank] at hnone
    cases hnone

end

/-- **The symbols are the reference's**, for every word, exactly if the reference leaves no listed concatenation in
    two symbols and brings none together whose line the code skips. -/
theorem merging_iff (f : MergesFile) (hdistinct : (f.lines.map Line.key).Nodup) :
    (∀ w, f.wordSymbols w = f.reference w) ↔ f.Agrees :=
  ⟨agrees_of_wordSymbols hdistinct, wordSymbols_of_agrees hdistinct⟩

/-- `a b`, the only line behind a version -/
def oneMerge : MergesFile where
  version := some (Str.ascii "#version: 0.2")
  lines := [⟨Str.ascii "a", Str.ascii "b", by decide, by decide, by decide, by decide⟩]
  ended := true
  version_ok := by
    rintro v hv
    obtain rfl := Option.some.inj hv
    decide
  unversioned := fun h => by cases h

theorem merging_iff_oneMerge : (oneMerge.lines.map Line.key).Nodup ∧
    ∀ w, oneMerge.wordSymbols w = oneMerge.reference w := by
  refine ⟨by decide, (merging_iff oneMerge (by decide)).mpr ?_⟩
  rintro A l ⟨B, hB⟩ v hv
  obtain ⟨rfl, rfl, -⟩ : A = [] ∧ l = oneMerge.lines.head (by decide) ∧ B = [] := by
    cases A with
    | nil =>
      obtain ⟨hl, hnil⟩ := cons.inj hB
      exact ⟨rfl, hl.symm, hnil.symm⟩
    | cons k A => simp [oneMerge] at hB
  have hword : v = Str.ascii "ab" := by
    rw [← decodeToken_glyphs v, hv]
    decide +kernel
  subst hword
  refine ⟨fun hskip => absurd hskip ?_, fun _ => by decide +kernel⟩
  rintro (hskip | hskip)
  · cases hskip
  · cases hskip

/-- `b c` and `ab c` -/
def twoMerges : MergesFile where
  version := none
  lines := [⟨Str.ascii "b", Str.ascii "c", by decide, by decide, by decide, by decide⟩,
    ⟨Str.ascii "ab", Str.ascii "c", by decide, by decide, by decide, by decide⟩]
  ended := true
  version_ok := fun v h => by cases h
  unversioned := by
    rintro - l hl
    obtain rfl := Option.some.inj hl
    decide

/-- **The table keeps no pairs**: `a` and `bc` are not listed, and are merged as `ab c` is. -/
theorem unlisted_pair_merged : twoMerges.reference (Str.ascii "abc") = [Str.ascii "a", Str.ascii "bc"] ∧
    twoMerges.wordSymbols (Str.ascii "abc") = [Str.ascii "abc"] := by
  decide +kernel

end Vyb.Stdlib.Vllm
