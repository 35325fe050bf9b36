/-
  Subject:   `split`, `index_of` and `index_of_from` on String (`stdlib/core/aspects.vyb`,
             `bind StringOps -> String`).

  The loops of the source go over positions and compare byte by byte. For a separator of one byte they
  are what one expects: `split_singleton` cuts at every occurrence, `indexOf_singleton` finds the first.
  **`indexOf_cases`** says it for any needle: the first occurrence, or -1 where there is none.

  **`split_index_laws`** is about any separator, also one that overlaps itself: the loop never steps over an
  occurrence, so that no part holds one, and the parts with the separator between them are the String.
-/
import Vyb.Lib.Split
import Vyb.Runtime.Str

namespace Vyb.Stdlib

open Lib Vyb.Runtime Str List Nat

/-! ## 1. The loops -/

/-- The inner loop: `needle` stands at position `i`. -/
def matchesAt (s needle : Str) (i : Nat) : Bool :=
  (List.range needle.length).all fun j => charAt s (i + j) == charAt needle j

/-- The rounds of `split` from position `i` on; the current part began at `start`. Every round goes at least
one position further, so `fuel` for all positions is enough. -/
def splitLoop (s sep : Str) : Nat → Nat → Nat → List Str
  | 0, start, _ => [s.substring start s.length]
  | fuel + 1, start, i =>
    if i + sep.length ≤ s.length then
      if matchesAt s sep i then
        s.substring start i :: splitLoop s sep fuel (i + sep.length) (i + sep.length)
      else splitLoop s sep fuel start (i + 1)
    else [s.substring start s.length]

def split (s sep : Str) : List Str :=
  if sep.length = 0 then [s] else splitLoop s sep (s.length + 1) 0 0

def indexLoop (s needle : Str) : Nat → Nat → Int
  | 0, _ => -1
  | fuel + 1, i =>
    if i + needle.length ≤ s.length then
      if matchesAt s needle i then i else indexLoop s needle fuel (i + 1)
    else -1

/-- The position of the first occurrence, or -1. -/
def indexOf (s needle : Str) : Int :=
  if needle.length = 0 then 0
  else if s.length < needle.length then -1
  else indexLoop s needle (s.length + 1) 0

/-- The first occurrence at `start` or later, or -1; a negative `start` counts as 0. -/
def indexOfFrom (s needle : Str) (start : Int) : Int :=
  let off := if start < 0 then 0 else start
  if needle.length = 0 then if (s.length : Int) < off then -1 else off
  else if s.length < needle.length ∨ (s.length : Int) - needle.length < off then -1
  else indexLoop s needle (s.length + 1) off.toNat

/-! ## 2. One byte -/

variable {s : Str} {x : UInt8} {i : Nat}

theorem matchesAt_singleton (hi : i < s.length) : matchesAt s [x] i = true ↔ s[i] = x := by
  simp [matchesAt, range_succ, charAt, hi, UInt8.toNat_inj]

theorem substring_drop {start : Nat} (h : start ≤ i) (hi : i ≤ s.length) :
    s.substring start i = (s.take i).drop start := by
  have hin : InBounds s.length start i := ⟨by omega, by omega, by omega, by omega⟩
  rw [substring, if_pos hin, drop_take, Int.toNat_natCast]
  congr 1
  omega

/-- What the loop returns: the part that was begun, and the pieces of what is left. -/
theorem splitLoop_singleton {s : Str} {x : UInt8} : ∀ {fuel start i : Nat}, start ≤ i → i ≤ s.length →
    s.length < fuel + i → ∃ w ws, splitSep x (s.drop i) = w :: ws ∧
      splitLoop s [x] fuel start i = ((s.take i).drop start ++ w) :: ws
  | 0, start, i, _, hi, hfuel => by omega
  | fuel + 1, start, i, hstart, hi, hfuel => by
    by_cases hlt : i < s.length
    · have hle : i + [x].length ≤ s.length := hlt
      have hdrop : s.drop i = s[i] :: s.drop (i + 1) := drop_eq_getElem_cons hlt
      rw [splitLoop, if_pos hle]
      by_cases hx : s[i] = x
      · obtain ⟨w, ws, hsplit, hloop⟩ := @splitLoop_singleton s x fuel (i + 1) (i + 1) (le_refl _) hlt
          (by omega)
        refine ⟨[], w :: ws, by rw [hdrop, splitSep, if_pos hx, hsplit], ?_⟩
        rw [if_pos ((matchesAt_singleton hlt).mpr hx), substring_drop hstart hi, append_nil]
        have hnil : (s.take (i + 1)).drop (i + 1) = [] := drop_eq_nil_of_le (length_take_le _ _)
        rw [hnil, nil_append] at hloop
        rw [length_singleton, hloop]
      · obtain ⟨w, ws, hsplit, hloop⟩ := @splitLoop_singleton s x fuel start (i + 1) (by omega) hlt
          (by omega)
        refine ⟨s[i] :: w, ws, by rw [hdrop, splitSep, if_neg hx, hsplit], ?_⟩
        rw [if_neg (fun h => hx ((matchesAt_singleton hlt).mp h)), hloop,
          take_succ_eq_append_getElem hlt, drop_append_of_le_length (by rw [length_take]; omega),
          append_assoc]
        rfl
    · obtain rfl : i = s.length := by omega
      refine ⟨[], [], by rw [drop_length]; rfl, ?_⟩
      rw [splitLoop, if_neg (by simp), substring_drop hstart (le_refl _), append_nil]

/-- **`split` at one byte.** -/
theorem split_singleton (s : Str) (x : UInt8) : split s [x] = splitSep x s := by
  obtain ⟨w, ws, hsplit, hloop⟩ := @splitLoop_singleton s x (s.length + 1) 0 0 (le_refl _) (zero_le _)
    (by omega)
  rw [split, if_neg (by simp), hloop, ← drop_zero (l := s), hsplit]
  simp

/-! ## 3. Any needle -/

variable {needle : Str}

theorem matchesAt_iff (hi : i + needle.length ≤ s.length) :
    matchesAt s needle i = true ↔ needle <+: s.drop i := by
  have hget : ∀ j, j < needle.length → (charAt s (i + j) = charAt needle j ↔
      (s.drop i)[j]? = needle[j]?) := by
    intro j hj
    have hs : i + j < s.length := by omega
    rw [getElem?_drop, charAt, charAt, UInt8.toNat_inj, getD_eq_getElem?_getD,
      getD_eq_getElem?_getD, getElem?_eq_getElem hs, getElem?_eq_getElem hj,
      Option.getD_some, Option.getD_some, Option.some_inj]
  simp only [matchesAt, all_eq_true, mem_range, beq_iff_eq]
  rw [prefix_iff_getElem?]
  constructor
  · intro h j hj
    rw [(hget j hj).mp (h j hj), getElem?_eq_getElem hj]
  · intro h j hj
    rw [hget j hj, h j hj, getElem?_eq_getElem hj]

/-- What the loop returns from position `i` on. -/
theorem indexLoop_cases {s needle : Str} (hne : needle ≠ []) : ∀ {fuel i : Nat}, s.length < fuel + i →
    (indexLoop s needle fuel i = -1 ∧ ∀ j, i ≤ j → ¬ needle <+: s.drop j) ∨
    ∃ k : Nat, indexLoop s needle fuel i = k ∧ needle <+: s.drop k ∧ i ≤ k ∧
      ∀ j, i ≤ j → needle <+: s.drop j → k ≤ j
  | 0, i, hfuel => by
    refine .inl ⟨rfl, fun j hj hp => hne ?_⟩
    rw [drop_eq_nil_of_le (by omega)] at hp
    exact prefix_nil.mp hp
  | fuel + 1, i, hfuel => by
    rw [indexLoop]
    by_cases hle : i + needle.length ≤ s.length
    · rw [if_pos hle]
      by_cases hat : needle <+: s.drop i
      · rw [if_pos ((matchesAt_iff hle).mpr hat)]
        exact .inr ⟨i, rfl, hat, le_refl i, fun j hj _ => hj⟩
      · rw [if_neg fun h => hat ((matchesAt_iff hle).mp h)]
        -- an occurrence at `i` or later is one at `i + 1` or later
        have hlater : ∀ j, i ≤ j → needle <+: s.drop j → i + 1 ≤ j := by
          intro j hj hp
          rcases eq_or_lt_of_le hj with rfl | hlt
          · exact absurd hp hat
          · exact hlt
        rcases @indexLoop_cases s needle hne fuel (i + 1) (by omega) with ⟨h, hno⟩ | ⟨k, h, hk, hik, hmin⟩
        · exact .inl ⟨h, fun j hj hp => hno j (hlater j hj hp) hp⟩
        · exact .inr ⟨k, h, hk, by omega, fun j hj hp => hmin j (hlater j hj hp) hp⟩
    · rw [if_neg hle]
      refine .inl ⟨rfl, fun j hj hp => ?_⟩
      have hlen := hp.length_le
      have hpos := length_pos_iff.mpr hne
      rw [length_drop] at hlen
      omega

/-- **`index_of`**: the first occurrence, or -1. -/
theorem indexOf_cases {s needle : Str} (hne : needle ≠ []) :
    (indexOf s needle = -1 ∧ ¬ needle <:+: s) ∨
    ∃ a b, s = a ++ needle ++ b ∧ indexOf s needle = a.length ∧
      ∀ a' b', s = a' ++ needle ++ b' → a.length ≤ a'.length := by
  have hdrop : ∀ a' b', s = a' ++ needle ++ b' → needle <+: s.drop a'.length := by
    intro a' b' h
    rw [h, append_assoc, drop_left]
    exact prefix_append needle b'
  rw [indexOf, if_neg (by simpa using hne)]
  split_ifs with hshort
  · exact .inl ⟨rfl, fun h => by have := h.length_le; omega⟩
  rcases @indexLoop_cases s needle hne (s.length + 1) 0 (by omega) with ⟨h, hno⟩ | ⟨k, h, hk, -, hmin⟩
  · refine .inl ⟨h, ?_⟩
    rintro ⟨a', b', hs⟩
    exact hno a'.length (zero_le _) (hdrop a' b' hs.symm)
  · obtain ⟨b, hb⟩ := hk
    have hks : k ≤ s.length := by
      by_contra hgt
      rw [drop_eq_nil_of_le (by omega)] at hb
      exact hne (append_eq_nil_iff.mp hb).1
    refine .inr ⟨s.take k, b, ?_, ?_, fun a' b' hs => ?_⟩
    · rw [append_assoc, hb, take_append_drop]
    · rw [h, length_take, min_eq_left hks]
    · rw [length_take, min_eq_left hks]
      exact hmin a'.length (zero_le _) (hdrop a' b' hs)

theorem indexOf_nonneg_iff (hne : needle ≠ []) : 0 ≤ indexOf s needle ↔ needle <:+: s := by
  rcases @indexOf_cases s needle hne with ⟨h, hno⟩ | ⟨a, b, hs, h, -⟩
  · exact ⟨fun h0 => by omega, fun hin => absurd hin hno⟩
  · exact iff_of_true (by omega) ⟨a, b, hs.symm⟩

theorem indexOf_eq_zero_iff (hne : needle ≠ []) : indexOf s needle = 0 ↔ needle <+: s := by
  rcases @indexOf_cases s needle hne with ⟨h, hno⟩ | ⟨a, b, hs, h, hmin⟩
  · exact ⟨fun h0 => by omega, fun hp => absurd hp.isInfix hno⟩
  · constructor
    · intro h0
      obtain rfl : a = [] := length_eq_zero_iff.mp (by omega)
      exact ⟨b, by rw [hs, nil_append]⟩
    · rintro ⟨b', hb'⟩
      have hle := hmin [] b' (by rw [← hb', nil_append])
      rw [length_nil] at hle
      omega

/-- The first occurrence of a needle whose first byte does not stand before it. -/
theorem indexOf_append {a b : Str} (hx : x ∉ a) (hneedle : needle.head? = some x) :
    indexOf (a ++ needle ++ b) needle = a.length := by
  have hne : needle ≠ [] := by rintro rfl; cases hneedle
  rcases @indexOf_cases (a ++ needle ++ b) needle hne with ⟨-, hno⟩ | ⟨a', b', hs, hidx, hmin⟩
  · exact absurd ⟨a, b, rfl⟩ hno
  · have hle : a'.length ≤ a.length := hmin a b rfl
    rcases eq_or_lt_of_le hle with heq | hlt
    · rw [hidx, heq]
    · -- otherwise the byte of `a` at that place would be `x`
      obtain ⟨n, rfl⟩ : ∃ n, needle = x :: n := ⟨needle.tail, (cons_head?_tail hneedle).symm⟩
      have hat := congrArg (fun l => l[a'.length]?) hs
      simp only [append_assoc, cons_append, getElem?_append_left hlt,
        getElem?_append_right (le_refl _), Nat.sub_self, getElem?_cons_zero] at hat
      exact absurd (mem_of_getElem? hat) hx

/-- **`index_of` one byte**: the place of the first one, or -1. -/
theorem indexOf_singleton {a b : Str} (hx : x ∉ a) : indexOf (a ++ x :: b) [x] = a.length := by
  rw [append_cons]
  exact indexOf_append hx rfl

theorem indexOf_notMem (hx : x ∉ s) : indexOf s [x] = -1 := by
  rcases @indexOf_cases s [x] (cons_ne_nil x []) with ⟨h, -⟩ | ⟨a, b, rfl, -, -⟩
  · exact h
  · exact absurd (by simp) hx

theorem substring_left (a b : Str) : Str.substring (a ++ b) 0 a.length = a := by
  rw [substring_from_start (by simp), take_left]

theorem suffix_right (a b : Str) : Str.suffix (a ++ b) a.length = b := by
  rw [suffix, substring_to_end (by simp), drop_left]

/-- Up to a byte and with it, -/
theorem substring_through (a : Str) (x : UInt8) (b : Str) :
    Str.substring (a ++ x :: b) 0 ((a.length : Int) + 1) = a ++ [x] := by
  have h := substring_left (a ++ [x]) b
  rw [length_append, append_assoc] at h
  exact_mod_cast h

/-- and what stands behind it. -/
theorem suffix_behind (a : Str) (x : UInt8) (b : Str) :
    Str.suffix (a ++ x :: b) ((a.length : Int) + 1) = b := by
  have h := suffix_right (a ++ [x]) b
  rw [length_append, append_assoc] at h
  exact_mod_cast h

/-! ## 4. The laws -/

/-- `needle` stands at position `k`. -/
def OccursAt (s needle : Str) (k : Nat) : Prop := k ≤ s.length ∧ needle <+: s.drop k

theorem occursAt_bound {k : Nat} (h : OccursAt s needle k) : k + needle.length ≤ s.length := by
  have hlen := h.2.length_le
  rw [length_drop] at hlen
  have hk := h.1
  omega

/-- A piece of `s` in which no occurrence begins does not hold one. -/
theorem not_infix_piece {sep : Str} {start : Nat} (hne : sep ≠ []) (hstart : start ≤ i) (hi : i ≤ s.length)
    (hno : ∀ j, start ≤ j → j < i → ¬ sep <+: s.drop j) : ¬ sep <:+: (s.take i).drop start := by
  rintro ⟨a, b, hab⟩
  have hlen := congrArg List.length hab
  simp only [length_append, length_drop, length_take, min_eq_left hi] at hlen
  have hpos := length_pos_iff.mpr hne
  have hrest : s.drop start = (s.take i).drop start ++ s.drop i := by
    conv_lhs => rw [← take_append_drop i s]
    rw [drop_append_of_le_length (by rw [length_take]; omega)]
  refine hno (start + a.length) (by omega) (by omega) ?_
  rw [← drop_drop, hrest, ← hab, append_assoc, append_assoc, drop_left]
  exact prefix_append sep _

/-- The loop of `split`: `start` is behind the last separator, and none begins between it and `i`. -/
theorem splitLoop_spec {s sep : Str} (hne : sep ≠ []) : ∀ {fuel start i : Nat}, start ≤ i → i ≤ s.length →
    s.length < fuel + i → (∀ j, start ≤ j → j < i → ¬ sep <+: s.drop j) →
    splitLoop s sep fuel start i ≠ [] ∧ (∀ p ∈ splitLoop s sep fuel start i, ¬ sep <:+: p) ∧
      sep.intercalate (splitLoop s sep fuel start i) = s.drop start
  | 0, start, i, _, hi, hfuel, _ => by omega
  | fuel + 1, start, i, hstart, hi, hfuel, hno => by
    have hpos := length_pos_iff.mpr hne
    rw [splitLoop]
    by_cases hle : i + sep.length ≤ s.length
    · rw [if_pos hle]
      by_cases hat : sep <+: s.drop i
      · -- a separator: the part before it is done
        obtain ⟨hnil, hparts, hjoin⟩ := @splitLoop_spec s sep hne fuel (i + sep.length) (i + sep.length)
          (le_refl _) hle (by omega) (fun j hj hlt => by omega)
        rw [if_pos ((matchesAt_iff hle).mpr hat), substring_drop hstart hi]
        refine ⟨cons_ne_nil _ _, fun p hp => ?_, ?_⟩
        · rcases mem_cons.mp hp with rfl | hp
          · exact not_infix_piece hne hstart hi hno
          · exact hparts p hp
        · obtain ⟨b, hb⟩ := hat
          have hafter : s.drop (i + sep.length) = b := by
            rw [← drop_drop, ← hb, drop_left]
          rw [intercalate_cons_of_ne_nil hnil, hjoin, hafter, append_assoc, hb]
          conv_rhs => rw [← take_append_drop i s]
          rw [drop_append_of_le_length (by rw [length_take]; omega)]
      · rw [if_neg fun h => hat ((matchesAt_iff hle).mp h)]
        refine splitLoop_spec hne (by omega) (by omega) (by omega) fun j hj hlt hp => ?_
        rcases eq_or_lt_of_le (le_of_lt_succ hlt) with rfl | hji
        · exact hat hp
        · exact hno j hj hji hp
    · -- no room for another one
      rw [if_neg hle, substring_drop (by omega) (le_refl _), take_length]
      refine ⟨cons_ne_nil _ _, fun p hp => ?_, intercalate_singleton⟩
      rw [mem_singleton.mp hp]
      have hpiece := not_infix_piece hne (hstart.trans hi) (le_refl _) fun j hj hlt hp => by
        by_cases hji : j < i
        · exact hno j hj hji hp
        · have hlen := hp.length_le
          rw [length_drop] at hlen
          omega
      rwa [take_length] at hpiece

theorem split_spec {sep : Str} (hne : sep ≠ []) :
    (∀ p ∈ split s sep, ¬ sep <:+: p) ∧ sep.intercalate (split s sep) = s := by
  obtain ⟨-, hparts, hjoin⟩ := @splitLoop_spec s sep hne (s.length + 1) 0 0 (le_refl _) (zero_le _)
    (by omega) (fun j hj hlt => by omega)
  rw [split, if_neg (by simpa using hne)]
  exact ⟨hparts, hjoin⟩

theorem indexOfFrom_spec (s needle : Str) (start : Int) :
    (indexOfFrom s needle start = -1 ∧ ∀ k : Nat, max start 0 ≤ k → ¬ OccursAt s needle k) ∨
    ∃ k : Nat, indexOfFrom s needle start = k ∧
      IsLeast {j : Nat | max start 0 ≤ j ∧ OccursAt s needle j} k := by
  have hoff : (if start < 0 then 0 else start) = max start 0 := by
    split <;> omega
  obtain ⟨off, hmax⟩ : ∃ off : Nat, max start 0 = off := ⟨(max start 0).toNat, by omega⟩
  rw [indexOfFrom, hoff, hmax]
  by_cases hnil : needle = []
  · subst hnil
    simp only [length_nil, if_true]
    by_cases hlt : (s.length : Int) < off
    · rw [if_pos hlt]
      refine .inl ⟨rfl, fun k hk hocc => ?_⟩
      have hle := hocc.1
      omega
    · rw [if_neg hlt]
      exact .inr ⟨off, rfl, ⟨le_refl _, by omega, nil_prefix⟩, fun j hj => by exact_mod_cast hj.1⟩
  · rw [if_neg (by simpa using hnil)]
    by_cases hshort : s.length < needle.length ∨ (s.length : Int) - needle.length < off
    · rw [if_pos hshort]
      refine .inl ⟨rfl, fun k hk hocc => ?_⟩
      have hle := occursAt_bound hocc
      omega
    · rw [if_neg hshort, Int.toNat_natCast]
      rcases @indexLoop_cases s needle hnil (s.length + 1) off (by omega) with ⟨h, hno⟩ | ⟨k, h, hat, hk, hmin⟩
      · exact .inl ⟨h, fun k hk hocc => hno k (by exact_mod_cast hk) hocc.2⟩
      · have hks : k ≤ s.length := by
          by_contra hgt
          rw [drop_eq_nil_of_le (by omega)] at hat
          exact hnil (prefix_nil.mp hat)
        exact .inr ⟨k, h, ⟨by exact_mod_cast hk, hks, hat⟩, fun j hj => hmin j (by exact_mod_cast hj.1) hj.2.2⟩

/-- **`split` and `index_of_from`**: no part holds the separator, and the parts with it between them are the
String; the position is the least one at or after `start` where the needle stands, or -1 for none. -/
theorem split_index_laws :
    (∀ s sep : Str, sep ≠ [] →
      (∀ p ∈ split s sep, ¬ sep <:+: p) ∧ sep.intercalate (split s sep) = s) ∧
    ∀ (s needle : Str) (start : Int),
      (indexOfFrom s needle start = -1 ∧ ∀ k : Nat, max start 0 ≤ k → ¬ OccursAt s needle k) ∨
      ∃ k : Nat, indexOfFrom s needle start = k ∧
        IsLeast {j : Nat | max start 0 ≤ j ∧ OccursAt s needle j} k :=
  ⟨fun _ _ hne => split_spec hne, indexOfFrom_spec⟩

/-- A separator that overlaps itself. -/
theorem split_index_laws_overlap :
    split (ascii "aaaba") (ascii "aa") = [[], ascii "aba"] ∧
      (ascii "aa").intercalate (split (ascii "aaaba") (ascii "aa")) = ascii "aaaba" :=
  ⟨by decide +kernel, (split_index_laws.1 (ascii "aaaba") (ascii "aa") (by decide +kernel)).2⟩

end Vyb.Stdlib
