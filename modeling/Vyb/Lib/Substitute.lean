/-
  Subject:   Matches in a text, and what becomes of the text when they are replaced.

  A matcher says for every position of a text of length `n` whether a match begins there, and where it ends;
  a match may be empty.

  * `find pos` -- the leftmost match at or behind `pos`; `found pos` -- the matches that a scan from `pos`
    comes to, one byte further on after an empty one;
  * `Disjoint pos ms` -- matches from the left to the right, none of them twice and none into another;
  * `substitute s pos ms r` -- the text behind `pos` with the matches `ms` replaced by `r`;
  * `leapfrog s pos ms r` -- the same, except that the place behind an empty match is left out;
  * **`leapfrog_eq_iff`** -- the two scans agree for every replacement exactly if no empty match is found in
    front of the end. A replacement that does not occur shifted in itself, a `marker`, tells them apart;
  * `occurrences s a` -- a word as a matcher. **`find_occurrences`**: it is found exactly if it is a block of
    the text; `replaced s a b` -- its leftmost occurrences replaced; `substituteEach` -- each by a text of its
    own.
-/
import Mathlib.Tactic

namespace Vyb.Lib

open List Option Nat

universe u

/-! ## 1. Matches -/

/-- The matches in a text of length `n`: where one begins, `ends` says where it ends. -/
structure Matcher (n : Nat) where
  ends : Nat → Option Nat
  bounds : ∀ {so eo : Nat}, ends so = some eo → so ≤ eo ∧ eo ≤ n

/-- Where a scan goes on: behind the match, or one further if it is empty. -/
def afterMatch (so eo : Nat) : Nat := if eo > so then eo else so + 1

variable {pos so eo : Nat}

namespace Matcher

variable {n : Nat} (M : Matcher n)

/-- The leftmost match at or behind `pos`. -/
def find (pos : Nat) : Option (Nat × Nat) :=
  (List.range' pos (n + 1 - pos)).findSome? fun so => (M.ends so).map fun eo => (so, eo)

variable {M : Matcher n}

theorem find_some (h : M.find pos = some (so, eo)) :
    pos ≤ so ∧ M.ends so = some eo ∧ ∀ q, pos ≤ q → q < so → M.ends q = none := by
  obtain ⟨l, a, l', hl, ha, hnone⟩ := findSome?_eq_some_iff.mp h
  obtain ⟨e, he, heq⟩ := map_eq_some_iff.mp ha
  obtain ⟨rfl, rfl⟩ := Prod.mk.inj heq
  have hget : ∀ i, i < (n + 1 - pos) → (range' pos (n + 1 - pos))[i]? = some (pos + i) := fun i hi => by
    rw [getElem?_range' hi, one_mul]
  have hlen : l.length < n + 1 - pos := by
    have := congrArg length hl
    simp only [length_range', length_append, length_cons] at this
    omega
  have hso : a = pos + l.length := by
    have := hget l.length hlen
    rw [hl, getElem?_append_right (le_refl _), Nat.sub_self, getElem?_cons_zero] at this
    exact Option.some.inj this
  refine ⟨by omega, he, fun q hq hlt => ?_⟩
  have hmem : q ∈ l := by
    have := hget (q - pos) (by omega)
    rw [hl, getElem?_append_left (by omega)] at this
    exact mem_of_getElem? (this.trans (congrArg some (by omega)))
  exact map_eq_none_iff.mp (hnone q hmem)

theorem find_none (h : M.find pos = none) : ∀ q, pos ≤ q → M.ends q = none := by
  intro q hq
  by_contra hne
  obtain ⟨eo, he⟩ := ne_none_iff_exists'.mp hne
  have hbounds := M.bounds he
  have hmem : q ∈ range' pos (n + 1 - pos) := mem_range'_1.mpr ⟨hq, by omega⟩
  have := findSome?_eq_none_iff.mp h q hmem
  rw [he] at this
  cases this

theorem find_here (h : M.ends pos = some eo) : M.find pos = some (pos, eo) := by
  have hb := M.bounds h
  rw [find, show n + 1 - pos = n - pos + 1 by omega, range'_succ, findSome?_cons, h]
  rfl

theorem find_skip (h : M.ends pos = none) : M.find pos = M.find (pos + 1) := by
  rcases lt_or_ge n pos with hlt | hle
  · rw [find, find, show n + 1 - pos = 0 by omega, show n + 1 - (pos + 1) = 0 by omega]
    rfl
  · rw [find, find, show n + 1 - pos = n - pos + 1 by omega, range'_succ, findSome?_cons, h,
      show n + 1 - (pos + 1) = n - pos by omega]
    rfl

theorem find_bounds (h : M.find pos = some (so, eo)) :
    pos ≤ so ∧ so ≤ eo ∧ eo ≤ n ∧ pos < afterMatch so eo := by
  obtain ⟨hpos, hends, -⟩ := find_some h
  obtain ⟨hle, hn⟩ := M.bounds hends
  refine ⟨hpos, hle, hn, ?_⟩
  unfold afterMatch
  split <;> omega

/-- Matches from the left to the right, none of them into another. -/
def Disjoint : Nat → List (Nat × Nat) → Prop
  | _, [] => True
  | pos, (so, eo) :: ms => pos ≤ so ∧ M.ends so = some eo ∧ Disjoint (afterMatch so eo) ms

/-- The matches that a scan from `pos` comes to. -/
def found (pos : Nat) : List (Nat × Nat) :=
  match _h : M.find pos with
  | none => []
  | some (so, eo) => (so, eo) :: found (afterMatch so eo)
termination_by n + 1 - pos
decreasing_by
  have := find_bounds _h
  omega

theorem found_none (h : M.find pos = none) : M.found pos = [] := by
  rw [found]
  split
  · rfl
  · rename_i hsome
    rw [h] at hsome
    cases hsome

theorem found_some (h : M.find pos = some (so, eo)) :
    M.found pos = (so, eo) :: M.found (afterMatch so eo) := by
  rw [found]
  split
  · rename_i hnone
    rw [h] at hnone
    cases hnone
  · rename_i so' eo' hsome
    rw [h] at hsome
    cases hsome
    rfl

theorem found_skip (h : M.ends pos = none) : M.found pos = M.found (pos + 1) := by
  cases hfind : M.find (pos + 1) with
  | none => rw [found_none hfind, found_none ((find_skip h).trans hfind)]
  | some m =>
    obtain ⟨so, eo⟩ := m
    rw [found_some hfind, found_some ((find_skip h).trans hfind)]

/-- The rule of a scan: no match is left, or one is found and the scan goes on behind it. -/
theorem scan_induction {P : Nat → Prop} (hnone : ∀ pos, M.find pos = none → P pos)
    (hsome : ∀ pos so eo, M.find pos = some (so, eo) → P (afterMatch so eo) → P pos) (pos : Nat) : P pos := by
  induction hk : n + 1 - pos using Nat.strong_induction_on generalizing pos with
  | _ k ih =>
    cases h : M.find pos with
    | none => exact hnone pos h
    | some m =>
      obtain ⟨so, eo⟩ := m
      have hb := find_bounds h
      exact hsome pos so eo h (ih _ (by omega) _ rfl)

theorem found_disjoint (pos : Nat) : M.Disjoint pos (M.found pos) := by
  induction pos using M.scan_induction with
  | hnone pos h => rw [found_none h]; trivial
  | hsome pos so eo h ih =>
    rw [found_some h]
    exact ⟨(find_some h).1, (find_some h).2.1, ih⟩

/-- A scan over matches that are not empty. -/
def Passes (pos next : Nat) : Prop := ∃ so, M.find pos = some (so, next) ∧ so < next

/-- A scan from the beginning comes to `pos`, over matches that are not empty. -/
def Reaches (pos : Nat) : Prop := Relation.ReflTransGen M.Passes 0 pos

end Matcher

open Matcher

/-! ## 2. Replacing -/

variable {ms : List (Nat × Nat)}

section Replace

variable {α : Type u} {n : Nat}

/-- The text behind `pos`, with the matches `ms` replaced. -/
def substitute (s : List α) (pos : Nat) : List (Nat × Nat) → List α → List α
  | [], _ => s.drop pos
  | (so, eo) :: ms, r => (s.drop pos).take (so - pos) ++ (r ++ substitute s eo ms r)

/-- The text that is put together when the scan copies nothing but what it passes over. -/
def leapfrog (s : List α) (pos : Nat) : List (Nat × Nat) → List α → List α
  | [], _ => s.drop pos
  | (so, eo) :: ms, r => (s.drop pos).take (so - pos) ++ (r ++ leapfrog s (afterMatch so eo) ms r)

/-- No empty match is found in front of the end. -/
def Matcher.NoGap (M : Matcher n) : Prop := ∀ pos so, M.Reaches pos → M.find pos = some (so, so) → so = n

theorem Matcher.Disjoint.eq_nil {M : Matcher n} (h : M.Disjoint pos ms) (hpos : n < pos) : ms = [] := by
  cases ms with
  | nil => rfl
  | cons m ms =>
    obtain ⟨so, eo⟩ := m
    have := M.bounds h.2.1
    have := h.1
    omega

variable {s : List α}

/-- **Without such a match nothing is left out.** -/
theorem leapfrog_found {M : Matcher s.length} (hgap : M.NoGap) (r : List α) (pos : Nat) :
    M.Reaches pos → leapfrog s pos (M.found pos) r = substitute s pos (M.found pos) r := by
  induction pos using M.scan_induction with
  | hnone pos h =>
    intro _
    rw [found_none h]
    rfl
  | hsome pos so eo h ih =>
    intro hpos
    rw [found_some h, leapfrog, substitute]
    have hb := find_bounds h
    by_cases hempty : so < eo
    · have hnext : afterMatch so eo = eo := if_pos hempty
      rw [hnext] at ih ⊢
      rw [ih (hpos.tail ⟨so, h, hempty⟩)]
    · -- the match is empty, hence at the end, and no other one follows it
      obtain rfl : so = eo := by omega
      have hend : so = s.length := hgap pos so hpos h
      have hnext : afterMatch so so = so + 1 := if_neg (lt_irrefl so)
      have hnil := (M.found_disjoint (so + 1)).eq_nil (by omega)
      have hdrop : s.drop (so + 1) = [] ∧ s.drop so = [] :=
        ⟨drop_eq_nil_of_le (by omega), drop_eq_nil_of_le (by omega)⟩
      rw [hnext, hnil, leapfrog, substitute, hdrop.1, hdrop.2]

/-- A text that does not overlap with itself when it is moved by 1 to `n` places. -/
def marker (a b : α) (n : Nat) : List α := List.replicate (n + 1) a ++ [b]

theorem length_marker (a b : α) (n : Nat) : (marker a b n).length = n + 2 := by simp [marker]

variable {x : List α}

theorem getElem?_marker (a b : α) {n : Nat} {g : List α} {i : Nat} (hi : g.length ≤ i)
    (hi' : i < g.length + n + 2) :
    (g ++ (marker a b n ++ x))[i]? = some (if i = g.length + n + 1 then b else a) := by
  have hmarker : (g ++ (marker a b n ++ x))[i]? = (marker a b n)[i - g.length]? := by
    rw [getElem?_append_right hi, getElem?_append_left (by rw [length_marker]; omega)]
  rw [hmarker, marker]
  by_cases hlast : i = g.length + n + 1
  · rw [if_pos hlast, getElem?_append_right (by rw [length_replicate]; omega), length_replicate,
      show i - g.length - (n + 1) = 0 by omega, getElem?_cons_zero]
  · rw [if_neg hlast, getElem?_append_left (by rw [length_replicate]; omega),
      getElem?_replicate, if_pos (by omega)]

/-- **How much is in front of a marker can be read off.** -/
theorem marker_front {a b : α} (hab : a ≠ b) {n : Nat} {g₁ g₂ x₁ x₂ : List α} (h₂ : g₂.length ≤ n)
    (h : g₁ ++ (marker a b n ++ x₁) = g₂ ++ (marker a b n ++ x₂)) : g₂.length ≤ g₁.length := by
  by_contra hlt
  -- the end of the first marker is somewhere inside of the second one
  have hfirst := getElem?_marker a b (n := n) (g := g₁) (x := x₁) (i := g₁.length + n + 1) (by omega) (by omega)
  have hsecond := getElem?_marker a b (n := n) (g := g₂) (x := x₂) (i := g₁.length + n + 1) (by omega) (by omega)
  rw [if_pos rfl] at hfirst
  rw [if_neg (by omega), ← h, hfirst] at hsecond
  exact hab (Option.some.inj hsecond).symm

theorem length_gap (hpos : pos ≤ so) (hso : so ≤ s.length) :
    ((s.drop pos).take (so - pos)).length = so - pos := by
  rw [length_take, length_drop]
  omega

/-- Two texts that begin with a gap and a marker have gaps of one length, and go on equally. -/
theorem marker_cancel {a b : α} (hab : a ≠ b) {p q so' : Nat} {y : List α} (hp : p ≤ so)
    (hso : so ≤ s.length) (hq : q ≤ so') (hso' : so' ≤ s.length)
    (h : (s.drop p).take (so - p) ++ (marker a b s.length ++ x) =
      (s.drop q).take (so' - q) ++ (marker a b s.length ++ y)) : so - p = so' - q ∧ x = y := by
  have h₁ := length_gap hp hso
  have h₂ := length_gap hq hso'
  have hle := marker_front hab (by omega) h
  have hge := marker_front hab (by omega) h.symm
  refine ⟨by omega, ?_⟩
  exact append_cancel_left (append_inj_right h (by omega))

/-- A text with a marker is too long for a text without. -/
theorem marker_ne_drop {a b : α} {g : List α} :
    g ++ (marker a b s.length ++ x) ≠ s.drop pos := by
  intro h
  have := congrArg length h
  simp only [length_append, length_marker, length_drop] at this
  omega

section Marked

variable {s : List α} {M : Matcher s.length} {a b : α} (hab : a ≠ b)

include hab

/-- Behind an empty match the scan has lost its place. -/
theorem leapfrog_ne_behind (hso : so < s.length) (hms : M.Disjoint (so + 1) ms) :
    leapfrog s (so + 1) (M.found (so + 1)) (marker a b s.length) ≠ substitute s so ms (marker a b s.length) := by
  intro h
  cases hfind : M.find (so + 1) with
  | none =>
    rw [found_none hfind, leapfrog] at h
    cases ms with
    | nil =>
      have := congrArg length h
      rw [substitute, length_drop, length_drop] at this
      omega
    | cons m ms => exact marker_ne_drop h.symm
  | some m =>
    obtain ⟨so₁, eo₁⟩ := m
    rw [found_some hfind, leapfrog] at h
    obtain ⟨hle₁, hends₁, hleft⟩ := find_some hfind
    cases ms with
    | nil => exact marker_ne_drop h
    | cons m ms =>
      obtain ⟨so₂, eo₂⟩ := m
      obtain ⟨hle₂, hends₂, -⟩ := hms
      have hb₁ := M.bounds hends₁
      have hb₂ := M.bounds hends₂
      have hgap := (marker_cancel hab hle₁ (by omega) (by omega) (by omega) h).1
      have hbefore : M.ends so₂ = none := hleft so₂ hle₂ (by omega)
      rw [hbefore] at hends₂
      cases hends₂

/-- **An empty match in front of the end shows**, for a marker as the replacement. -/
theorem leapfrog_ne (hfind : M.find pos = some (so, so)) (hso : so < s.length) {start : Nat}
    (hreach : Relation.ReflTransGen M.Passes start pos) :
    ∀ {ms : List (Nat × Nat)}, M.Disjoint start ms →
      leapfrog s start (M.found start) (marker a b s.length) ≠ substitute s start ms (marker a b s.length) := by
  induction hreach using Relation.ReflTransGen.head_induction_on with
  | refl =>
    intro ms hms h
    rw [found_some hfind, leapfrog] at h
    obtain ⟨hle, hends, hleft⟩ := find_some hfind
    cases ms with
    | nil => exact marker_ne_drop h
    | cons m ms =>
      obtain ⟨so', eo'⟩ := m
      obtain ⟨hle', hends', hms⟩ := hms
      obtain ⟨hgap, hrest⟩ := marker_cancel hab hle (by omega) hle' (by have := M.bounds hends'; omega) h
      obtain rfl : so = so' := by omega
      obtain rfl : so = eo' := Option.some.inj (hends.symm.trans hends')
      have hnext : afterMatch so so = so + 1 := if_neg (lt_irrefl so)
      rw [hnext] at hrest hms
      exact leapfrog_ne_behind hab hso hms hrest
  | @head start next hpass _ ih =>
    intro ms hms h
    obtain ⟨so₁, hfind₁, hlt⟩ := hpass
    have hnext : afterMatch so₁ next = next := if_pos hlt
    rw [found_some hfind₁, leapfrog, hnext] at h
    obtain ⟨hle, hends, -⟩ := find_some hfind₁
    cases ms with
    | nil => exact marker_ne_drop h
    | cons m ms =>
      obtain ⟨so', eo'⟩ := m
      obtain ⟨hle', hends', hms⟩ := hms
      have hb := M.bounds hends
      have hb' := M.bounds hends'
      obtain ⟨hgap, hrest⟩ := marker_cancel hab hle (by omega) hle' (by omega) h
      obtain rfl : so₁ = so' := by omega
      obtain rfl : next = eo' := Option.some.inj (hends.symm.trans hends')
      rw [hnext] at hms
      exact ih hms hrest

/-- **The two ways of replacing agree, for every replacement, exactly if nothing is left out.** -/
theorem leapfrog_eq_iff : (∀ r, ∃ ms, M.Disjoint 0 ms ∧ leapfrog s 0 (M.found 0) r = substitute s 0 ms r) ↔
    M.NoGap := by
  constructor
  · intro h pos so hreach hfind
    by_contra hne
    have hb := find_bounds hfind
    obtain ⟨ms, hms, heq⟩ := h (marker a b s.length)
    exact leapfrog_ne hab hfind (by omega) hreach hms heq
  · intro hgap r
    exact ⟨M.found 0, M.found_disjoint 0, leapfrog_found hgap r 0 .refl⟩

end Marked

end Replace

/-! ## 3. The occurrences of a word -/

section Occurrences

variable {α : Type u} [DecidableEq α]

/-- `a` as a matcher: it matches where it stands. -/
def occurrences (s a : List α) : Matcher s.length where
  ends so := if so + a.length ≤ s.length ∧ (s.drop so).take a.length = a then some (so + a.length) else none
  bounds h := by
    split at h
    · rename_i hat
      obtain rfl := Option.some.inj h
      exact ⟨le_add_right _ _, hat.1⟩
    · cases h

variable {s a : List α}

theorem occurrences_ends : (occurrences s a).ends so = some eo ↔
    (so + a.length ≤ s.length ∧ (s.drop so).take a.length = a) ∧ so + a.length = eo := by
  simp only [occurrences, ite_none_right_eq_some, some.injEq]

/-- **A word is found exactly if it is a block of the text.** -/
theorem find_occurrences : ((occurrences s a).find 0).isSome = true ↔ a <:+: s := by
  constructor
  · intro h
    obtain ⟨⟨so, eo⟩, hfind⟩ := isSome_iff_exists.mp h
    obtain ⟨-, hends, -⟩ := find_some hfind
    obtain ⟨⟨-, hat⟩, -⟩ := occurrences_ends.mp hends
    rw [← hat]
    exact (List.take_prefix _ _).isInfix.trans (drop_suffix _ _).isInfix
  · rintro ⟨x, y, rfl⟩
    by_contra hnone
    have hends := find_none (not_isSome_iff_eq_none.mp hnone) x.length (zero_le _)
    have hsome : (occurrences (x ++ a ++ y) a).ends x.length = some (x.length + a.length) :=
      occurrences_ends.mpr ⟨⟨by simp, by simp [append_assoc]⟩, rfl⟩
    rw [hends] at hsome
    cases hsome

theorem afterMatch_occurrences (ha : a ≠ []) (h : (occurrences s a).ends so = some eo) :
    afterMatch so eo = eo ∧ eo = so + a.length := by
  have hpos : 0 < a.length := length_pos_of_ne_nil ha
  obtain ⟨-, rfl⟩ := occurrences_ends.mp h
  exact ⟨if_pos (by omega), rfl⟩

/-- The text with the leftmost occurrences of `a`, none into another, replaced by `b`. -/
def replaced (s a b : List α) : List α := substitute s 0 ((occurrences s a).found 0) b

/-- Every occurrence that is replaced changes the length by as much. -/
theorem length_replaced (ha : a ≠ []) (b : List α) (pos : Nat) : pos ≤ s.length →
    (substitute s pos ((occurrences s a).found pos) b).length + ((occurrences s a).found pos).length * a.length =
      s.length - pos + ((occurrences s a).found pos).length * b.length := by
  induction pos using (occurrences s a).scan_induction with
  | hnone pos h =>
    intro _
    simp [found_none h, substitute]
  | hsome pos so eo h ih =>
    intro _
    obtain ⟨hpos, hends, -⟩ := find_some h
    obtain ⟨hnext, heo⟩ := afterMatch_occurrences ha hends
    have hb := (occurrences s a).bounds hends
    rw [hnext] at ih
    have hgap := length_gap hpos (hb.1.trans hb.2)
    rw [found_some h, hnext, substitute, length_append, length_append, hgap, length_cons, succ_mul, succ_mul]
    omega

/-- The text with the first matches replaced by the texts of a list, one by one. -/
def substituteEach (s : List α) (pos : Nat) : List (Nat × Nat) → List (List α) → List α
  | (so, eo) :: ms, r :: rs => (s.drop pos).take (so - pos) ++ (r ++ substituteEach s eo ms rs)
  | _, _ => s.drop pos

omit [DecidableEq α] in
theorem substituteEach_nil (s : List α) (pos : Nat) (ms : List (Nat × Nat)) :
    substituteEach s pos ms [] = s.drop pos := by
  cases ms <;> rfl

omit [DecidableEq α] in
theorem substituteEach_no_match (s : List α) (pos : Nat) (rs : List (List α)) :
    substituteEach s pos [] rs = s.drop pos := rfl

omit [DecidableEq α] in
/-- A place that no match begins at is kept. -/
theorem substituteEach_step {M : Matcher s.length} (hpos : pos < s.length) (hms : M.Disjoint (pos + 1) ms)
    (rs : List (List α)) : substituteEach s pos ms rs = s[pos] :: substituteEach s (pos + 1) ms rs := by
  have hdrop : s.drop pos = s[pos] :: s.drop (pos + 1) := drop_eq_getElem_cons hpos
  cases ms with
  | nil => exact hdrop
  | cons m ms =>
    obtain ⟨so, eo⟩ := m
    cases rs with
    | nil => exact hdrop
    | cons r rs =>
      have hle : pos + 1 ≤ so := hms.1
      rw [substituteEach, substituteEach, hdrop, show so - pos = so - (pos + 1) + 1 by omega,
        take_succ_cons, cons_append]

end Occurrences

end Vyb.Lib
