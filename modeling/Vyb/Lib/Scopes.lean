/-
  Subject:   Stacks of scopes: named entries, the innermost scope first.

  In a scope the latest entry of a name counts, and an entry hides those of the scopes around it.

  * `find`, `put`, `modify`, `erase` -- the visible entry of a name; a new entry in the innermost scope;
    a change of the visible entry; no entry for a name in any scope;
  * `find_drop_modify` -- what a change of the visible entry means for the scopes around;
  * `At`, `at_put_erase` -- the entry of a certain scope, for stacks where a new entry replaces all others
    of its name.
-/
import Mathlib.Data.List.Lookmap
import Mathlib.Tactic

namespace Vyb.Lib

open List

/-- A stack of scopes over names `K` and values `V`. -/
abbrev Scopes (K V : Type) := List (List (K × V))

namespace Scopes

variable {K V W : Type} [DecidableEq K]

/-- The visible entry. -/
def find (x : K) : Scopes K V → Option V
  | [] => none
  | f :: fs => (f.lookup x).or (find x fs)

/-- A new entry in the innermost scope. -/
def put (x : K) (v : V) : Scopes K V → Scopes K V
  | [] => []
  | f :: fs => ((x, v) :: f) :: fs

/-- The entries of one scope with those of a name changed. -/
def modifyIn (x : K) (g : V → V) (f : List (K × V)) : List (K × V) :=
  f.map fun e => if e.1 = x then (e.1, g e.2) else e

/-- The visible entry is changed. -/
def modify (x : K) (g : V → V) : Scopes K V → Scopes K V
  | [] => []
  | f :: fs => if (f.lookup x).isSome then modifyIn x g f :: fs else f :: modify x g fs

/-- No scope has an entry for the name. -/
def erase (x : K) (s : Scopes K V) : Scopes K V := s.map fun f => f.filter fun e => e.1 ≠ x

/-- The names, from the innermost scope on. -/
def names (s : Scopes K V) : List K := s.flatMap fun f => f.map Prod.fst

/-- The scope with `k` scopes inside it has an entry for the name. -/
def At (s : Scopes K V) (k : Nat) (x : K) (v : V) : Prop := ∃ f, s[k]? = some f ∧ f.lookup x = some v

/-- The values go through `h`. -/
def mapVal (h : V → W) (s : Scopes K V) : Scopes K W := s.map fun f => f.map fun e => (e.1, h e.2)

/-! ## 1. One scope -/

theorem lookup_cons (x y : K) (v : V) (f : List (K × V)) :
    ((y, v) :: f).lookup x = if x = y then some v else f.lookup x := by
  rw [List.lookup_cons]
  by_cases h : x = y
  · simp [h]
  · simp [h, beq_eq_false_iff_ne.mpr h]

theorem lookup_mapVal (h : V → W) (x : K) : ∀ f : List (K × V),
    (f.map fun e => (e.1, h e.2)).lookup x = (f.lookup x).map h
  | [] => rfl
  | (y, v) :: f => by
    rw [map_cons, lookup_cons, lookup_cons, lookup_mapVal h x f]
    split <;> rfl

theorem lookup_modifyIn (x y : K) (g : V → V) : ∀ f : List (K × V),
    (modifyIn x g f).lookup y = if y = x then (f.lookup y).map g else f.lookup y
  | [] => by simp [modifyIn]
  | (z, v) :: f => by
    have ih := lookup_modifyIn x y g f
    simp only [modifyIn, map_cons] at ih ⊢
    by_cases hz : z = x
    · subst hz
      rw [if_pos rfl, lookup_cons, lookup_cons, ih]
      by_cases hy : y = z <;> simp [hy]
    · rw [if_neg hz, lookup_cons, lookup_cons, ih]
      by_cases hy : y = z
      · subst hy; simp [hz]
      · simp [hy]

theorem lookup_filter_ne (x y : K) : ∀ f : List (K × V),
    (f.filter fun e => e.1 ≠ x).lookup y = if y = x then none else f.lookup y
  | [] => by simp
  | (z, v) :: f => by
    have ih := lookup_filter_ne x y f
    by_cases hz : z = x
    · subst hz
      rw [filter_cons_of_neg (by simp), ih, lookup_cons]
      by_cases hy : y = z <;> simp [hy]
    · rw [filter_cons_of_pos (by simpa using hz), lookup_cons, lookup_cons, ih]
      by_cases hy : y = z
      · subst hy; simp [hz]
      · simp [hy]

/-! ## 2. The stack -/

@[simp] theorem find_nil (x : K) : find x ([] : Scopes K V) = none := rfl

theorem find_cons (x : K) (f : List (K × V)) (fs : Scopes K V) :
    find x (f :: fs) = (f.lookup x).or (find x fs) := rfl

@[simp] theorem find_enter (x : K) (fs : Scopes K V) : find x ([] :: fs) = find x fs := rfl

theorem find_append (x : K) : ∀ (s t : Scopes K V), find x (s ++ t) = (find x s).or (find x t)
  | [], _ => rfl
  | f :: s, t => by rw [cons_append, find_cons, find_cons, find_append x s t, Option.or_assoc]

theorem find_take_drop (x : K) (k : Nat) (s : Scopes K V) :
    find x s = (find x (s.take k)).or (find x (s.drop k)) := by
  rw [← find_append, take_append_drop]

theorem find_mapVal (h : V → W) (x : K) : ∀ s : Scopes K V,
    find x (mapVal h s) = (find x s).map h
  | [] => rfl
  | f :: fs => by
    have ih := find_mapVal h x fs
    simp only [mapVal, map_cons, find_cons, lookup_mapVal] at ih ⊢
    rw [ih]
    cases f.lookup x <;> simp

omit [DecidableEq K] in
theorem drop_mapVal (h : V → W) (k : Nat) (s : Scopes K V) :
    (mapVal h s).drop k = mapVal h (s.drop k) := map_drop.symm

omit [DecidableEq K] in
theorem take_mapVal (h : V → W) (k : Nat) (s : Scopes K V) :
    (mapVal h s).take k = mapVal h (s.take k) := map_take.symm

omit [DecidableEq K] in
theorem mapVal_put (h : V → W) (x : K) (v : V) : ∀ s : Scopes K V,
    mapVal h (put x v s) = put x (h v) (mapVal h s)
  | [] | _ :: _ => rfl

theorem mapVal_modify {h : V → W} {g : V → V} (hg : ∀ v, h (g v) = h v) (x : K) :
    ∀ s : Scopes K V, mapVal h (modify x g s) = mapVal h s
  | [] => rfl
  | f :: fs => by
    have ih := mapVal_modify hg x fs
    simp only [mapVal] at ih ⊢
    unfold modify
    split
    · simp only [map_cons, modifyIn, map_map, List.cons.injEq, and_true]
      refine map_congr_left fun e _ => ?_
      by_cases he : e.1 = x <;> simp [he, hg]
    · rw [map_cons, ih, map_cons]

variable {s : Scopes K V} {x : K} {v : V}

theorem find_put {y : K} (hs : s ≠ []) : find y (put x v s) = if y = x then some v else find y s := by
  cases s with
  | nil => exact absurd rfl hs
  | cons f fs =>
    rw [put, find_cons, lookup_cons]
    by_cases h : y = x
    · simp [h]
    · simp [h, find_cons]

omit [DecidableEq K] in
@[simp] theorem drop_succ_put (x : K) (v : V) (k : Nat) (s : Scopes K V) :
    (put x v s).drop (k + 1) = s.drop (k + 1) := by
  cases s <;> rfl

omit [DecidableEq K] in
@[simp] theorem length_put (x : K) (v : V) (s : Scopes K V) : (put x v s).length = s.length := by
  cases s <;> rfl

@[simp] theorem length_modify (x : K) (g : V → V) : ∀ s : Scopes K V,
    (modify x g s).length = s.length
  | [] => rfl
  | f :: fs => by
    unfold modify
    split
    · rfl
    · rw [length_cons, length_modify x g fs, length_cons]

@[simp] theorem length_erase (x : K) (s : Scopes K V) : (erase x s).length = s.length := by
  simp [erase]

/-- A change of the visible entry reaches a scope unless one further inside has the name. -/
theorem find_drop_modify (x y : K) (g : V → V) : ∀ (k : Nat) (s : Scopes K V),
    find y ((modify x g s).drop k) =
      if y = x ∧ find x (s.take k) = none then (find y (s.drop k)).map g else find y (s.drop k)
  | _, [] => by simp [modify]
  | 0, f :: fs => by
    have ih := find_drop_modify x y g 0 fs
    simp only [drop_zero, take_zero, find_nil, and_true] at ih ⊢
    unfold modify
    split
    · rename_i hf
      rw [find_cons, lookup_modifyIn, find_cons]
      by_cases hy : y = x
      · subst hy
        obtain ⟨v, hv⟩ := Option.isSome_iff_exists.mp hf
        simp [hv]
      · simp [hy]
    · rename_i hf
      rw [find_cons, ih, find_cons]
      by_cases hy : y = x
      · subst hy
        simp [Option.not_isSome_iff_eq_none.mp hf]
      · simp [hy]
  | k + 1, f :: fs => by
    unfold modify
    split
    · rename_i hf
      obtain ⟨v, hv⟩ := Option.isSome_iff_exists.mp hf
      simp [take_succ_cons, find_cons, hv]
    · rename_i hf
      rw [drop_succ_cons, find_drop_modify x y g k fs, take_succ_cons, find_cons,
        Option.not_isSome_iff_eq_none.mp hf, drop_succ_cons, Option.none_or]

theorem find_modify (x y : K) (g : V → V) (s : Scopes K V) :
    find y (modify x g s) = if y = x then (find y s).map g else find y s := by
  have h := find_drop_modify x y g 0 s
  simpa using h

/-! ## 3. Names and the entries of one scope -/

theorem lookup_isSome_iff (x : K) : ∀ f : List (K × V), (f.lookup x).isSome ↔ x ∈ f.map Prod.fst
  | [] => by simp
  | (y, v) :: f => by
    by_cases h : x = y <;> simp [h]

theorem find_isSome_iff (x : K) : ∀ s : Scopes K V, (find x s).isSome ↔ x ∈ names s
  | [] => by simp [names]
  | f :: fs => by
    rw [find_cons, Option.isSome_or, Bool.or_eq_true, lookup_isSome_iff, find_isSome_iff x fs]
    simp [names]

omit [DecidableEq K] in
theorem names_mapVal (h : V → W) (s : Scopes K V) : names (mapVal h s) = names s := by
  simp [names, mapVal, flatMap_map, Function.comp_def]

omit [DecidableEq K] in
theorem names_put (hs : s ≠ []) : names (put x v s) = x :: names s := by
  cases s with
  | nil => exact absurd rfl hs
  | cons f fs => rfl

/-- Without a name that is hidden, ending a scope shows no other entry. -/
theorem find_of_tail {f : List (K × V)} {fs : Scopes K V} (hn : (names (f :: fs)).Nodup)
    (h : find x fs = some v) : find x (f :: fs) = some v := by
  have hx : x ∈ names fs := (find_isSome_iff x fs).mp (by rw [h]; rfl)
  have hf : f.lookup x = none := by
    rw [← Option.not_isSome_iff_eq_none, lookup_isSome_iff]
    exact fun hf => disjoint_of_nodup_append hn hf hx
  rw [find_cons, hf, h]
  rfl

theorem mem_of_lookup {x : K} {v : V} {f : List (K × V)} (h : f.lookup x = some v) : (x, v) ∈ f := by
  obtain ⟨before, after, rfl, -⟩ := lookup_eq_some_iff.mp h
  exact mem_append_right _ mem_cons_self

theorem at_of_find {x : K} {v : V} : ∀ {s : Scopes K V}, find x s = some v → ∃ k, At s k x v
  | [], h => by cases h
  | f :: fs, h => by
    rw [find_cons, Option.or_eq_some_iff] at h
    rcases h with h | ⟨_, h⟩
    · exact ⟨0, f, rfl, h⟩
    · obtain ⟨k, g, hg, hv⟩ := at_of_find h
      exact ⟨k + 1, g, hg, hv⟩

theorem mem_of_find (h : find x s = some v) : ∃ f ∈ s, (x, v) ∈ f := by
  obtain ⟨k, f, hf, hv⟩ := at_of_find h
  exact ⟨f, mem_of_getElem? hf, mem_of_lookup hv⟩

variable {k : Nat}

theorem at_enter : At ([] :: s) k x v ↔ ∃ j, k = j + 1 ∧ At s j x v := by
  cases k with
  | zero | succ k => simp [At]

theorem at_tail (h : At s.tail k x v) : At s (k + 1) x v := by
  cases s with
  | nil => simp [At] at h
  | cons f fs => exact h

/-- The new entry replaces all of its name. -/
theorem at_put_erase {z : K} {w : V} (h : At (put x v (erase x s)) k z w) :
    (z = x ∧ k = 0 ∧ w = v) ∨ (z ≠ x ∧ At s k z w) := by
  obtain ⟨g, hg, hw⟩ := h
  cases s with
  | nil => simp [erase, put] at hg
  | cons f fs =>
    cases k with
    | zero =>
      obtain rfl : _ = g := Option.some.inj hg
      rw [lookup_cons] at hw
      split at hw
      · rename_i hz
        exact .inl ⟨hz, rfl, (Option.some.inj hw).symm⟩
      · rename_i hz
        rw [lookup_filter_ne, if_neg hz] at hw
        exact .inr ⟨hz, f, rfl, hw⟩
    | succ k =>
      rw [erase, map_cons, put, getElem?_cons_succ, getElem?_map] at hg
      obtain ⟨g', hg', rfl⟩ := Option.map_eq_some_iff.mp hg
      rw [lookup_filter_ne] at hw
      split at hw
      · cases hw
      · rename_i hz
        exact .inr ⟨hz, g', hg', hw⟩

end Scopes

end Vyb.Lib
