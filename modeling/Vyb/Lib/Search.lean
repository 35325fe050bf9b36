/-
  Subject:   Searching a list for another one.

  * `search pat s` -- what is left of `s` from the first occurrence of `pat` on; `search_eq_some_iff`
    says which suffix that is, `search_isSome_iff` when there is one;
  * `takeUntil x s`, `cutAt x s` -- `s` before the first `x`, and both sides of it;
  * `cutPair x y s` -- both sides of the first `x` that a `y` follows;
  * `upToNth x n s` -- `s` up to its `n`-th `x`; `exists_nth` and `exists_last` find it;
  * `span_append` -- a list cut where its elements stop being of one kind;
  * `find?_perm_iff` -- what is found whatever the order.
-/
import Mathlib.Data.List.TakeWhile
import Mathlib.Tactic

namespace Vyb.Lib

open List Nat

universe u

variable {α : Type u} [DecidableEq α]

omit [DecidableEq α] in
/-- A run of elements of one kind, cut off where the next one is not of it. -/
theorem span_append {p : α → Bool} {l r : List α} (hl : ∀ a ∈ l, p a = true)
    (hr : ∀ a, r.head? = some a → p a = false) : (l ++ r).takeWhile p = l ∧ (l ++ r).dropWhile p = r := by
  have hstop : r.takeWhile p = [] ∧ r.dropWhile p = r := by
    cases r with
    | nil => exact ⟨rfl, rfl⟩
    | cons a r => simp [hr a rfl]
  rw [takeWhile_append_of_pos hl, dropWhile_append_of_pos hl, hstop.1, hstop.2, append_nil]
  exact ⟨rfl, rfl⟩

/-- The suffix of `s` that starts at the first occurrence of `pat`. -/
def search (pat : List α) : List α → Option (List α)
  | [] => if pat.isPrefixOf [] then some [] else none
  | c :: cs => if pat.isPrefixOf (c :: cs) then some (c :: cs) else search pat cs

def occurs (pat s : List α) : Bool := (search pat s).isSome

/-- `s` up to the first `x`. -/
def takeUntil (x : α) (s : List α) : List α := s.takeWhile (· ≠ x)

/-- `s` before and after the first `x`. -/
def cutAt (x : α) (s : List α) : Option (List α × List α) :=
  if x ∈ s then some (takeUntil x s, (s.dropWhile (· ≠ x)).tail) else none

/-- **The first occurrence**: `t` is the longest suffix of `s` that starts with `pat`. -/
theorem search_eq_some_iff {pat : List α} : ∀ {s t : List α}, search pat s = some t ↔
    t <:+ s ∧ pat <+: t ∧ ∀ u, u <:+ s → pat <+: u → u.length ≤ t.length
  | [], t => by
    rw [search]
    constructor
    · intro h
      split at h
      · rename_i hp
        cases h
        refine ⟨suffix_rfl, isPrefixOf_iff_prefix.mp hp, fun u hu _ => ?_⟩
        exact hu.length_le
      · cases h
    · intro ⟨ht, hp, _⟩
      obtain rfl := suffix_nil.mp ht
      rw [if_pos ( isPrefixOf_iff_prefix.mpr hp)]
  | c :: cs, t => by
    rw [search]
    by_cases hp : pat <+: c :: cs
    · rw [if_pos ( isPrefixOf_iff_prefix.mpr hp)]
      constructor
      · intro h
        cases h
        exact ⟨suffix_rfl, hp, fun u hu _ => hu.length_le⟩
      · intro ⟨ht, _, hmax⟩
        have hle := hmax _ suffix_rfl hp
        rw [ht.eq_of_length_le hle]
    · rw [if_neg fun h => hp ( isPrefixOf_iff_prefix.mp h), search_eq_some_iff]
      constructor
      · intro ⟨ht, htp, hmax⟩
        refine ⟨ht.trans (suffix_cons c cs), htp, fun u hu hup => ?_⟩
        rcases suffix_cons_iff.mp hu with rfl | hu
        · exact absurd hup hp
        · exact hmax u hu hup
      · intro ⟨ht, htp, hmax⟩
        rcases suffix_cons_iff.mp ht with rfl | ht
        · exact absurd htp hp
        · exact ⟨ht, htp, fun u hu => hmax u (hu.trans (suffix_cons c cs))⟩

theorem search_suffix {pat s t : List α} (h : search pat s = some t) : t <:+ s :=
  (search_eq_some_iff.mp h).1

theorem search_isSome_iff {pat : List α} : ∀ {s : List α}, (search pat s).isSome = true ↔ pat <:+: s
  | [] => by
    rw [search]
    by_cases hp : pat <+: []
    · simp [ isPrefixOf_iff_prefix.mpr hp, hp.isInfix]
    · rw [if_neg fun h => hp ( isPrefixOf_iff_prefix.mp h)]
      simp only [Option.isSome_none, Bool.false_eq_true, false_iff]
      intro hi
      exact hp (infix_nil.mp hi ▸ prefix_rfl)
  | c :: cs => by
    rw [search]
    by_cases hp : pat <+: c :: cs
    · simp [ isPrefixOf_iff_prefix.mpr hp, hp.isInfix]
    · rw [if_neg fun h => hp ( isPrefixOf_iff_prefix.mp h), search_isSome_iff, infix_cons_iff]
      simp [hp]

theorem cutAt_eq {x : α} {s a b : List α} (h : cutAt x s = some (a, b)) : s = a ++ x :: b := by
  unfold cutAt at h
  split at h
  · rename_i hx
    cases h
    have hne : s.dropWhile (· ≠ x) ≠ [] := fun hnil => by
      simpa using dropWhile_eq_nil_iff.mp hnil x hx
    have hhead : (s.dropWhile (· ≠ x)).head hne = x := by
      simpa using head_dropWhile_not (· ≠ x) hne
    calc s = s.takeWhile (· ≠ x) ++ s.dropWhile (· ≠ x) := takeWhile_append_dropWhile.symm
      _ = _ := by rw [takeUntil, ← cons_head_tail hne, hhead, tail_cons]
  · cases h

theorem occurs_iff {pat s : List α} : occurs pat s = true ↔ pat <:+: s := search_isSome_iff

theorem takeUntil_append {x : α} {u v : List α} (hu : x ∉ u) :
    takeUntil x (u ++ x :: v) = u ∧ (u ++ x :: v).dropWhile (· ≠ x) = x :: v :=
  span_append (fun _ ha => decide_eq_true fun h => hu (h ▸ ha)) (by simp)

variable {l : List α}

theorem takeUntil_notMem {x : α} (h : x ∉ l) : takeUntil x l = l :=
  takeWhile_eq_self_iff.mpr fun _ ha => decide_eq_true fun heq => h (heq ▸ ha)

/-- Both sides of the first `x` with a `y` behind it; everything and nothing where there is none. -/
def cutPair (x y : α) : List α → List α × List α
  | [] => ([], [])
  | a :: l => if a = x ∧ l.head? = some y then ([], l.tail) else (a :: (cutPair x y l).1, (cutPair x y l).2)

omit [DecidableEq α] in
theorem pair_prefix_iff {x y a : α} : [x, y] <+: a :: l ↔ a = x ∧ l.head? = some y := by
  cases l with
  | nil => simp [cons_prefix_cons]
  | cons b l => simp [cons_prefix_cons, eq_comm]

theorem cutPair_of_not_infix {x y : α} : ∀ {l : List α}, ¬ [x, y] <:+: l → cutPair x y l = (l, [])
  | [], _ => rfl
  | a :: l, h => by
    have hfirst : ¬ (a = x ∧ l.head? = some y) := fun hp => h (pair_prefix_iff.mpr hp).isInfix
    have hrest : ¬ [x, y] <:+: l := fun hin => h (hin.trans (suffix_cons a l).isInfix)
    rw [cutPair, if_neg hfirst, cutPair_of_not_infix hrest]

theorem cutPair_append {x y : α} : ∀ {a : List α} {b : List α}, ¬ [x, y] <:+: a ++ [x] →
    cutPair x y (a ++ x :: y :: b) = (a, b)
  | [], b, _ => by simp [cutPair]
  | c :: a, b, h => by
    have hfirst : ¬ (c = x ∧ (a ++ x :: y :: b).head? = some y) := by
      intro hp
      refine h (IsPrefix.isInfix (pair_prefix_iff.mpr ⟨hp.1, ?_⟩))
      cases a with
      | nil | cons d a => simpa using hp.2
    have hrest : ¬ [x, y] <:+: a ++ [x] := fun hin => h (hin.trans (suffix_cons c _).isInfix)
    rw [cons_append, cutPair, if_neg hfirst, cutPair_append hrest]

theorem cutPair_length_lt {x y : α} : ∀ {l : List α}, l ≠ [] → (cutPair x y l).2.length < l.length
  | [], h => absurd rfl h
  | a :: l, _ => by
    rw [cutPair]
    split
    · exact lt_succ_of_le (tail_suffix l).length_le
    · cases l with
      | nil => exact zero_lt_one
      | cons b l => exact lt_succ_of_lt (cutPair_length_lt (cons_ne_nil b l))

theorem cutPair_suffix {x y : α} : ∀ l : List α, (cutPair x y l).2 <:+ l
  | [] => suffix_rfl
  | a :: l => by
    rw [cutPair]
    split
    · exact (tail_suffix l).trans (suffix_cons a l)
    · exact (cutPair_suffix l).trans (suffix_cons a l)

/-- `l` up to and with its `n`-th `x`. -/
def upToNth (x : α) : Nat → List α → List α
  | 0, _ => []
  | _ + 1, [] => []
  | n + 1, a :: l => a :: upToNth x (if a = x then n else n + 1) l

theorem upToNth_append {x : α} : ∀ {a c : List α}, upToNth x (a.count x + 1) (a ++ x :: c) = a ++ [x]
  | [], c => by simp [upToNth]
  | b :: a, c => by
    by_cases hb : b = x
    · subst hb
      rw [count_cons_self, cons_append, upToNth, if_pos rfl, upToNth_append, cons_append]
    · rw [count_cons_of_ne hb, cons_append, upToNth, if_neg hb, upToNth_append, cons_append]

theorem exists_nth {x : α} : ∀ {l : List α} {m : Nat}, m < l.count x → ∃ a c, l = a ++ x :: c ∧ a.count x = m
  | [], m, h => nomatch h
  | b :: l, m, h => by
    by_cases hb : b = x
    · subst hb
      cases m with
      | zero => exact ⟨[], l, rfl, rfl⟩
      | succ m =>
        rw [count_cons_self] at h
        obtain ⟨a, c, rfl, hm⟩ := exists_nth (lt_of_succ_lt_succ h)
        exact ⟨b :: a, c, rfl, by rw [count_cons_self, hm]⟩
    · rw [count_cons_of_ne hb] at h
      obtain ⟨a, c, rfl, hm⟩ := exists_nth h
      exact ⟨b :: a, c, rfl, by rw [count_cons_of_ne hb, hm]⟩

theorem exists_last {x : α} (h : x ∈ l) : ∃ a b, l = a ++ x :: b ∧ x ∉ b := by
  have hpos : 0 < l.count x := count_pos_iff.mpr h
  obtain ⟨a, b, hl, ha⟩ := exists_nth (x := x) (l := l) (m := l.count x - 1) (by omega)
  refine ⟨a, b, hl, fun hb => ?_⟩
  have hcount := congrArg (count x) hl
  have hbpos : 0 < b.count x := count_pos_iff.mpr hb
  rw [count_append, count_cons_self] at hcount
  omega

omit [DecidableEq α] in
/-- What is found in every order of a list is all that can be found. -/
theorem find?_perm_iff {p : α → Bool} (hnd : l.Nodup) {o : Option α} :
    (∀ l' : List α, l'.Perm l → l'.find? p = o) ↔ l.filter p = o.toList := by
  constructor
  · intro h
    have hhead : (l.filter p).head? = o := by rw [head?_filter]; exact h l (.refl l)
    cases hl : l.filter p with
    | nil => rw [← hhead, hl]; rfl
    | cons b tl =>
      have hall : ∀ a ∈ l.filter p, o = some a := by
        intro a ha
        obtain ⟨hmem, hpa⟩ := mem_filter.mp ha
        obtain ⟨s, t, rfl⟩ := append_of_mem hmem
        rw [← h (a :: (s ++ t)) perm_middle.symm, find?_cons_of_pos hpa]
      have hnd' := hnd.filter p
      rw [hl] at hall hnd'
      rw [hall b mem_cons_self]
      cases tl with
      | nil => rfl
      | cons c tl =>
        have hbc := (hall b mem_cons_self).symm.trans (hall c (by simp))
        simp [Option.some.inj hbc] at hnd'
  · intro h l' hl'
    have hperm := hl'.filter p
    rw [h] at hperm
    rw [← head?_filter]
    cases o with
    | none => rw [hperm.eq_nil]; rfl
    | some b => rw [perm_singleton.mp hperm]; rfl

end Vyb.Lib
