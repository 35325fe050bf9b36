/-
  Subject:   `OrderedMap` with the library's own order of `Int` (`bind Comparable -> Int`).

  `compare` of two integers is their difference, and that is a difference of 64 bits: it wraps. Between
  keys less than `2^63` apart it has the right sign, and then it is the usual order; from there on it says
  that the greater key is the smaller one.

  * `compare_eq` -- the difference of keys that are near enough;
  * `put_apart` -- two keys that are not: the greater one, put first, stays in front;
  * **`orderedMap_int_works_iff`** -- with keys from a given set every sequence of `put`s goes well exactly
    if no two keys of the set are `2^63` or more apart.
-/
import Vyb.Collections.OrderedMap

namespace Vyb.Collections.OrderedInt

open Lib List OrderedMap

universe v

variable {V : Type v}

/-! ## 1. The comparison -/

/-- `compare(self, other)` of `Int`: `self - other`, in 64 bits. -/
def compare (self other : Int64) : Int := (self - other).toInt

/-- The usual order. -/
def usual : OrdKey Int64 where
  compare a b := a.toInt - b.toInt
  flip a b := by constructor <;> intro h <;> omega
  le_trans a b c h h' := by omega

/-- Keys that are not too far apart, either way. -/
def Near (a b : Int64) : Prop := b.toInt - a.toInt < 2 ^ 63

variable {a b : Int64}

theorem compare_eq (h : Near a b) (h' : Near b a) : compare a b = usual.compare a b := by
  unfold Near at h h'
  rw [compare, Int64.toInt_sub]
  exact Int.bmod_eq_of_le (by omega) (by omega)

/-- Of two keys that are too far apart the greater one is less. -/
theorem compare_neg_of_apart (h : ¬ Near a b) : compare b a < 0 := by
  have ha := a.le_toInt
  have hb := b.toInt_lt
  unfold Near at h
  rw [compare, Int64.toInt_sub, Int.bmod]
  omega

theorem usual_lt : usual.lt a b ↔ a.toInt < b.toInt := by
  simp only [OrdKey.lt, usual]
  omega

theorem cls_injective (h : usual.cls a = usual.cls b) : a = b := by
  obtain ⟨h1, h2⟩ := usual.cls_eq.mp h
  rw [usual_lt] at h1 h2
  exact Int64.toInt_inj.mp (by omega)

/-! ## 2. Maps with such keys -/

/-- The map after a sequence of `put`s. -/
def build (puts : List (Int64 × V)) : OrderedMap Int64 V := OrderedMap.putAll compare OrderedMap.empty puts

/-- Two keys that are too far apart: the greater one, put first, stays in front. -/
theorem put_apart (h : ¬ Near a b) (u w : V) : build [(b, u), (a, w)] = ⟨[b, a], [u, w]⟩ := by
  have hlt : cmpLt compare b a = true := by
    rw [cmpLt, decide_eq_true_eq]
    exact compare_neg_of_apart h
  have hfirst : OrderedMap.put compare (OrderedMap.empty : OrderedMap Int64 V) b u = (⟨[b], [u]⟩, true) := rfl
  have hsearch : OrderedMap.search compare (⟨[b], [u]⟩ : OrderedMap Int64 V) a = 1 := by
    have hmid : cmpLt compare (Vec.get [b] ((0 + (1 - 0) / 2 : Nat) : Int)) a = true := hlt
    simp only [OrderedMap.search, lowerBound, length_singleton, searchLoop, Nat.zero_lt_one, if_true, hmid]
  have hsecond : OrderedMap.put compare (⟨[b], [u]⟩ : OrderedMap Int64 V) a w = (⟨[b, a], [u, w]⟩, true) := by
    rw [OrderedMap.put, hsearch]
    rfl
  simp only [build, OrderedMap.putAll, foldl_cons, foldl_nil, hfirst, hsecond]

variable [Inhabited V]

/-- What is expected of it: `get` finds the last value of every key, and a loop over the map visits keys
    that strictly increase. -/
structure Works (puts : List (Int64 × V)) : Prop where
  found : ∀ before key val after, puts = before ++ (key, val) :: after → key ∉ after.map (·.1) →
    OrderedMap.get compare (build puts) key = some val
  increasing : ∃ es, (collect OrderedMapIter.next (build puts).iter).Returns es ∧
    es.Pairwise fun e e' => e.1.toInt < e'.1.toInt

/-- Keys that are near each other: all goes well. -/
theorem works_of_near {S : Set Int64} (hS : ∀ a ∈ S, ∀ b ∈ S, Near a b) {puts : List (Int64 × V)}
    (hputs : ∀ p ∈ puts, p.1 ∈ S) : Works puts := by
  have hcmp : ∀ a ∈ S, ∀ b ∈ S, compare a b = usual.compare a b := fun a ha b hb =>
    compare_eq (hS a ha b hb) (hS b hb a ha)
  obtain ⟨hbuild, hkeys⟩ := putAll_congr (O := usual) hcmp puts ok_empty
    (fun k hk => by cases hk) hputs
  obtain ⟨hes, hok⟩ := putAll_entries puts (ok_empty (O := usual) (V := V))
  obtain ⟨-, hmap, -⟩ := putLists_spec puts (List.Pairwise.nil : SortedKeys usual ([] : List (Int64 × V)))
  refine ⟨fun before key val after hsplit hlast => ?_, ?_⟩
  · have hkey : key ∈ S := hputs (key, val) (by rw [hsplit]; simp)
    rw [build, hbuild, get_congr ⟨fun k hk => hcmp k (hkeys k hk) key hkey,
      fun k hk => hcmp key hkey k (hkeys k hk)⟩, get_spec hok, hes]
    refine (congrArg (Finmap.lookup (usual.cls key)) hmap).trans ?_
    rw [hsplit]
    refine lookup_foldl_insert_last _ fun op hop hcls => hlast ?_
    rw [← cls_injective hcls]
    exact mem_map_of_mem hop
  · rw [build, hbuild]
    exact ⟨_, collect_of_yields (iter_yields hok.vals), hok.sorted.imp usual_lt.mp⟩

theorem not_works_of_apart (h : ¬ Near a b) (u w : V) : ¬ Works [(b, u), (a, w)] := by
  rintro ⟨-, es, hes, hinc⟩
  rw [put_apart h] at hes
  have hyields : (collect OrderedMapIter.next (OrderedMap.iter ⟨[b, a], [u, w]⟩)).Returns [(b, u), (a, w)] :=
    collect_of_yields (iter_yields (m := ⟨[b, a], [u, w]⟩) rfl)
  rw [hes.unique hyields, pairwise_cons] at hinc
  have hab := hinc.1 (a, w) mem_cons_self
  unfold Near at h
  have : b.toInt < a.toInt := hab
  omega

/-- **`OrderedMap` and `Int` keys.** With keys from a set, every sequence of `put`s has the expected outcome
    exactly if no two keys of the set are `2^63` or more apart. -/
theorem orderedMap_int_works_iff (S : Set Int64) :
    (∀ puts : List (Int64 × V), (∀ p ∈ puts, p.1 ∈ S) → Works puts) ↔
      ∀ a ∈ S, ∀ b ∈ S, b.toInt - a.toInt < 2 ^ 63 := by
  constructor
  · intro hall a ha b hb
    by_contra hapart
    refine not_works_of_apart (V := V) hapart default default (hall _ fun p hp => ?_)
    rcases mem_cons.mp hp with rfl | hp
    · exact hb
    · rw [mem_singleton.mp hp]
      exact ha
  · exact fun hS puts hputs => works_of_near hS hputs

/-- `0`, and then the least integer: `0` is no longer found, and stands in front of it. -/
theorem put_least_after_zero :
    OrderedMap.get compare (build [(0, 1), (Int64.minValue, 2)]) 0 = (none : Option Int) ∧
      OrderedMap.entries (build [(0, (1 : Int)), (Int64.minValue, 2)]) = [(0, 1), (Int64.minValue, 2)] ∧
      ¬ Works [(0, (1 : Int)), (Int64.minValue, 2)] := by
  refine ⟨by decide +kernel, by decide +kernel, fun h => ?_⟩
  have hfound := h.found [] 0 1 [(Int64.minValue, 2)] rfl (by decide)
  exact absurd hfound (by decide +kernel)

end Vyb.Collections.OrderedInt
