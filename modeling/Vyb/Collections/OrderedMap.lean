/-
  Subject:   `OrderedMap<K, V>` of `stdlib/collections/mod.vyb`: two parallel vectors, the keys ascending.

  A map does to its vectors what a `BTreeMap` does to those of a leaf (`asNode`): the same binary search,
  the same insertion by swaps. There is no limit to the size.

  * `put_spec` -- `put` is `putList` on the entries;
  * `putAll_entries` -- after every sequence of `put`s;
  * `putAll_congr` -- a comparison that is right between the keys in play does what a right one does;
  * `get_spec`, `containsKey_spec` -- reading looks the key up;
  * `iter_yields` -- an iterator hands out the entries in order.
-/
import Vyb.Lib.Generator
import Vyb.Collections.BTreeMap

namespace Vyb.Collections

open Lib List

universe u v

/-! ## 1. The code -/

structure OrderedMap (K : Type u) (V : Type v) where
  keys : Vec K
  vals : Vec V

structure OrderedMapIter (K : Type u) (V : Type v) where
  map : OrderedMap K V
  index : Int

namespace OrderedMap

variable {K : Type u} {V : Type v}

/-- `OrderedMap<K, V>()`. -/
def empty : OrderedMap K V := ⟨[], []⟩

section Code

variable [Inhabited K] [Inhabited V] (compare : K → K → Int)

/-- The binary search: `keys[lo]` is the first key that is not below `key`. -/
def search (m : OrderedMap K V) (key : K) : Nat :=
  lowerBound m.keys.length fun i => cmpLt compare (m.keys.get i) key

/-- `keys[lo]` is the key. -/
def exactAt (m : OrderedMap K V) (key : K) (lo : Nat) : Bool :=
  decide (lo < m.keys.length) && !cmpLt compare key (m.keys.get lo)

/-- `m.put(key, val)`. -/
def put (m : OrderedMap K V) (key : K) (val : V) : OrderedMap K V × Bool :=
  let lo := search compare m key
  if exactAt compare m key lo then ({ m with vals := m.vals.set lo val }, true)
  else
    let keys := m.keys.push key
    let vals := m.vals.push val
    let p := keys.length - 1
    ({ keys := bubbleFrom (p - lo) p keys, vals := bubbleFrom (p - lo) p vals }, true)

/-- `m.get(key)`. -/
def get (m : OrderedMap K V) (key : K) : Option V :=
  let lo := search compare m key
  if exactAt compare m key lo then some (m.vals.get lo) else none

/-- `m.contains_key(key)`. -/
def containsKey (m : OrderedMap K V) (key : K) : Bool := exactAt compare m key (search compare m key)

/-- `m.size()`. -/
def size (m : OrderedMap K V) : Int := m.keys.len

/-- A sequence of `put` calls. -/
def putAll (m : OrderedMap K V) (ops : List (K × V)) : OrderedMap K V :=
  ops.foldl (fun m op => (put compare m op.1 op.2).1) m

end Code

/-- `m.iter()`. -/
def iter (m : OrderedMap K V) : OrderedMapIter K V := ⟨m, 0⟩

end OrderedMap

/-- `it.next()`. -/
def OrderedMapIter.next {K : Type u} {V : Type v} [Inhabited K] [Inhabited V] (it : OrderedMapIter K V) :
    Fueled (Option (K × V) × OrderedMapIter K V) :=
  pure (if it.index < it.map.keys.len then
      (some (it.map.keys.get it.index, it.map.vals.get it.index), { it with index := it.index + 1 })
    else (none, it))

namespace OrderedMap

variable {K : Type u} {V : Type v}

/-! ## 2. The entries -/

/-- The two vectors as those of a leaf. -/
def asNode (m : OrderedMap K V) : BTreeNode K V := ⟨m.keys, m.vals, []⟩

/-- A map's key/value pairs. -/
def entries (m : OrderedMap K V) : List (K × V) := m.keys.zip m.vals

/-- Each key has its value, and the keys ascend. -/
structure Ok (O : OrdKey K) (m : OrderedMap K V) : Prop where
  vals : m.vals.length = m.keys.length
  sorted : SortedKeys O (entries m)

theorem ok_empty {O : OrdKey K} : Ok O (empty : OrderedMap K V) := ⟨rfl, .nil⟩

theorem length_entries {m : OrderedMap K V} (hv : m.vals.length = m.keys.length) :
    (entries m).length = m.keys.length := @BTreeMap.length_entries K V (asNode m) hv

section Spec

variable [Inhabited K] {O : OrdKey K} {m : OrderedMap K V}

/-- Where the binary search stops, as in a node. -/
theorem search_cases (hm : Ok O m) (key : K) :
    ∃ X Y, entries m = X ++ Y ∧ X.length = search O.compare m key ∧ (∀ e ∈ X, O.lt e.1 key) ∧
      ((exactAt O.compare m key (search O.compare m key) = true ∧
          ∃ e Y', Y = e :: Y' ∧ ¬ O.lt e.1 key ∧ ¬ O.lt key e.1) ∨
        (exactAt O.compare m key (search O.compare m key) = false ∧ ∀ e ∈ Y, O.lt key e.1)) :=
  @BTreeMap.search_cases K V (asNode m) _ O hm.vals hm.sorted key

/-- **`put`** is `putList`. -/
theorem put_spec (hm : Ok O m) (key : K) (val : V) :
    entries (put O.compare m key val).1 = putList O key val (entries m) ∧ Ok O (put O.compare m key val).1 := by
  have hboth : entries (put O.compare m key val).1 = putList O key val (entries m) ∧
      (put O.compare m key val).1.vals.length = (put O.compare m key val).1.keys.length := by
    obtain ⟨X, Y, he, hX, hlt, ⟨hex, e, Y', rfl, h1, h2⟩ | ⟨hex, hgt⟩⟩ := search_cases hm key
    · rw [put, if_pos hex, he, putList_mid_eq hlt h1 h2, ← hX]
      refine ⟨@BTreeMap.entries_overwrite K V (asNode m) hm.vals X Y' e he val, ?_⟩
      exact (Vec.length_set m.vals X.length val).trans hm.vals
    · rw [put, if_neg (by rw [hex]; simp), he, putList_mid_new hlt hgt, ← hX]
      have hkeys := @BTreeMap.keys_insertAt K V (asNode m) hm.vals X Y he key val
      have hvals := @BTreeMap.vals_insertAt K V (asNode m) hm.vals X Y he key val
      refine ⟨@BTreeMap.entries_insertAt K V (asNode m) hm.vals X Y he key val, ?_⟩
      exact (congrArg List.length hvals).trans
        (by rw [length_map, ← length_map]; exact (congrArg List.length hkeys).symm)
  refine ⟨hboth.1, hboth.2, ?_⟩
  rw [hboth.1]
  exact (putList_spec hm.sorted key val).1

theorem mem_keys_put (hm : Ok O m) {key k : K} {val : V} (hk : k ∈ (put O.compare m key val).1.keys) :
    k = key ∨ k ∈ m.keys := by
  obtain ⟨hput, hok⟩ := put_spec hm key val
  have hkeys : ∀ {m' : OrderedMap K V}, Ok O m' → m'.keys = (entries m').map (·.1) := fun h =>
    (map_fst_zip (le_of_eq h.vals.symm)).symm
  rw [hkeys hok, hput] at hk
  rw [hkeys hm]
  obtain ⟨e, he, rfl⟩ := mem_map.mp hk
  exact mem_putList he

/-- **A sequence of `put`s.** -/
theorem putAll_entries : ∀ (ops : List (K × V)) {m : OrderedMap K V}, Ok O m →
    entries (putAll O.compare m ops) = putLists O (entries m) ops ∧ Ok O (putAll O.compare m ops)
  | [], _, hm => ⟨rfl, hm⟩
  | op :: ops, m, hm => by
    obtain ⟨hput, hm'⟩ := put_spec hm op.1 op.2
    obtain ⟨hall, hok⟩ := putAll_entries ops hm'
    rw [hput] at hall
    exact ⟨hall, hok⟩

/-! ## 3. Another comparison -/

section Congr

variable {compare : K → K → Int}

/-- A comparison that agrees with `O` between `key` and the keys of the map. -/
structure AgreesAt (O : OrdKey K) (compare : K → K → Int) (m : OrderedMap K V) (key : K) : Prop where
  left : ∀ k ∈ m.keys, compare k key = O.compare k key
  right : ∀ k ∈ m.keys, compare key k = O.compare key k

theorem search_congr {key : K} (h : AgreesAt O compare m key) :
    search compare m key = search O.compare m key := by
  refine searchLoop_congr fun i hi => ?_
  rw [cmpLt, cmpLt, Vec.get_of_lt m.keys hi, h.left _ (getElem_mem hi)]

theorem exactAt_congr {key : K} (h : AgreesAt O compare m key) (lo : Nat) :
    exactAt compare m key lo = exactAt O.compare m key lo := by
  rw [exactAt, exactAt]
  by_cases hlo : lo < m.keys.length
  · rw [cmpLt, cmpLt, Vec.get_of_lt m.keys hlo, h.right _ (getElem_mem hlo)]
  · simp [hlo]

theorem put_congr {key : K} (h : AgreesAt O compare m key) (val : V) :
    put compare m key val = put O.compare m key val := by
  simp only [put, search_congr h, exactAt_congr h]

/-- **A sequence of `put`s** with keys on which the comparison is that of `O` is one with that of `O`. -/
theorem putAll_congr {S : Set K} (hS : ∀ a ∈ S, ∀ b ∈ S, compare a b = O.compare a b) :
    ∀ (ops : List (K × V)) {m : OrderedMap K V}, Ok O m → (∀ k ∈ m.keys, k ∈ S) → (∀ op ∈ ops, op.1 ∈ S) →
    putAll compare m ops = putAll O.compare m ops ∧ ∀ k ∈ (putAll O.compare m ops).keys, k ∈ S
  | [], _, _, hk, _ => ⟨rfl, hk⟩
  | op :: ops, m, hm, hk, hops => by
    have hop : op.1 ∈ S := hops op mem_cons_self
    have hagree : AgreesAt O compare m op.1 :=
      ⟨fun k hk' => hS k (hk k hk') _ hop, fun k hk' => hS _ hop k (hk k hk')⟩
    have hkeys : ∀ k ∈ (put O.compare m op.1 op.2).1.keys, k ∈ S := fun k hk' => by
      rcases mem_keys_put hm hk' with rfl | hin
      · exact hop
      · exact hk k hin
    have ih := putAll_congr hS ops (put_spec hm op.1 op.2).2 hkeys fun o ho => hops o (mem_cons_of_mem _ ho)
    refine ⟨?_, ih.2⟩
    have hput := put_congr hagree op.2
    simp only [putAll, foldl_cons, hput]
    exact ih.1

end Congr

/-! ## 4. Reading -/

variable [Inhabited V]

theorem get_congr {compare : K → K → Int} {key : K} (h : AgreesAt O compare m key) :
    get compare m key = get O.compare m key := by
  simp only [get, search_congr h, exactAt_congr h]

/-- **`get`** looks the key up. -/
theorem get_spec (hm : Ok O m) (key : K) :
    get O.compare m key = (toMap O.cls (entries m)).lookup (O.cls key) := by
  obtain ⟨X, Y, he, hX, hlt, ⟨hex, e, Y', rfl, h1, h2⟩ | ⟨hex, hgt⟩⟩ := search_cases hm key
  · rw [get, if_pos hex, he, ← hX]
    have hval : m.vals.get (X.length : Int) = e.2 := @BTreeMap.vals_get K V (asNode m) _ hm.vals X Y' e he
    rw [hval]
    exact (lookup_toMap_mid O.cls (O.cls_eq.mpr ⟨h1, h2⟩) fun e he => O.cls_ne_of_lt (hlt e he)).symm
  · rw [get, if_neg (by rw [hex]; simp), he]
    refine (lookup_toMap_of_forall_ne O.cls fun e he => ?_).symm
    rcases mem_append.mp he with he | he
    · exact O.cls_ne_of_lt (hlt e he)
    · exact O.cls_ne_of_gt (hgt e he)

theorem containsKey_spec (hm : Ok O m) (key : K) :
    containsKey O.compare m key = ((toMap O.cls (entries m)).lookup (O.cls key)).isSome := by
  rw [← get_spec hm key, get]
  cases h : exactAt O.compare m key (search O.compare m key) with
  | true | false => simpa [containsKey] using h

/-- From position `i` on, an iterator hands out the entries behind it. -/
theorem yields_drop (hv : m.vals.length = m.keys.length) : ∀ (n i : Nat), i + n = m.keys.length →
    Yields OrderedMapIter.next ⟨m, i⟩ ((entries m).drop i)
  | 0, i, hi => by
    have hlen := length_entries hv
    rw [drop_eq_nil_of_le (by omega)]
    exact .done (Fueled.returns_pure.mpr (if_neg (by simp only [Vec.len]; omega)))
  | n + 1, i, hi => by
    have hlt : i < (entries m).length := by rw [length_entries hv]; omega
    rw [drop_eq_getElem_cons hlt]
    refine .more (Fueled.returns_pure.mpr ((if_pos (by simp only [Vec.len]; omega)).trans ?_))
      (yields_drop hv n (i + 1) (by omega))
    have hentry : (m.keys.get (i : Int), m.vals.get (i : Int)) = (entries m)[i] :=
      @BTreeMap.entry_get K V (asNode m) _ _ hv i hlt
    rw [hentry]
    rfl

/-- **Iteration** hands out the entries in order. -/
theorem iter_yields (hv : m.vals.length = m.keys.length) : Yields OrderedMapIter.next m.iter (entries m) :=
  yields_drop hv m.keys.length 0 (zero_add _)

end Spec

end OrderedMap

end Vyb.Collections
