/-
  Subject:   `BTreeMap<K, V>` of `stdlib/collections/mod.vyb`: an index-arena B-tree of minimum
             degree two, and what its operations do to ONE node.

  Nodes live in a single arena `nodes` and refer to each other by `Int` index; `root` is `-1` for
  the empty map. `put` splits full nodes on the way down, so the leaf it reaches has room.
  `while` loops whose length is not a counter take `fuel` and answer `none` when it runs out.

  A node stands for the list `entries` of its key/value pairs. In terms of that list:

  * `search_cases` -- where the binary search of a sorted node stops, and what the test for an
    exact match then says;
  * `entries_overwrite`, `entries_insertAt` -- overwriting and inserting at the position found;
  * `splitNode_spec` -- the two halves and the median of a full node.
-/
import Vyb.Lib.Loop
import Vyb.Lib.Ordered
import Vyb.Collections.Vec

namespace Vyb.Collections

open Lib List

universe u v

/-! ## 1. The code -/

structure BTreeNode (K : Type u) (V : Type v) where
  keys : Vec K
  vals : Vec V
  children : Vec Int

structure BTreeMap (K : Type u) (V : Type v) where
  nodes : Vec (BTreeNode K V)
  root : Int
  size : Int

instance {K : Type u} {V : Type v} : Inhabited (BTreeNode K V) := ⟨⟨[], [], []⟩⟩

/-- `cmp_lt(a, b)` over a key's `compare`. -/
def cmpLt {K : Type u} (compare : K → K → Int) (a b : K) : Bool := decide (compare a b < 0)

namespace BTreeMap

variable {K : Type u} {V : Type v}

/-- `BTreeMap<K, V>()`. -/
def empty : BTreeMap K V := ⟨[], -1, 0⟩

section Code

variable [Inhabited K] [Inhabited V] (compare : K → K → Int)

/-- The inner binary search: the first position of `nd.keys` that is not below `key`. -/
def search (nd : BTreeNode K V) (key : K) : Nat :=
  lowerBound nd.keys.length fun i => cmpLt compare (nd.keys.get i) key

/-- `lo < nd.keys.len() && !cmp_lt(key, nd.keys.get(lo))`: the key found is `key`. -/
def exactAt (nd : BTreeNode K V) (key : K) (lo : Nat) : Bool :=
  decide (lo < nd.keys.length) && !cmpLt compare key (nd.keys.get lo)

/-- Push `key`, `val` and swap them down to position `lo`; the one counter runs over both. -/
def insertAt (nd : BTreeNode K V) (lo : Nat) (key : K) (val : V) : BTreeNode K V :=
  let keys := nd.keys.push key
  let vals := nd.vals.push val
  let pp := keys.length - 1
  { nd with keys := bubbleFrom (pp - lo) pp keys, vals := bubbleFrom (pp - lo) pp vals }

/-- Split a full node: what stays, the median entry, and the new right sibling. -/
def splitNode (full : BTreeNode K V) : BTreeNode K V × (K × V) × BTreeNode K V :=
  let mid := (full.keys.get 1, full.vals.get 1)
  let inner := decide (0 < full.children.len)
  let right : BTreeNode K V :=
    { keys := [full.keys.get 2]
      vals := [full.vals.get 2]
      children := if inner then [full.children.get 2, full.children.get 3] else [] }
  let left : BTreeNode K V :=
    { keys := (full.keys.removeAt 2).removeAt 1
      vals := (full.vals.removeAt 2).removeAt 1
      children := if inner then (full.children.removeAt 3).removeAt 2 else full.children }
  (left, mid, right)

/-- A full root: its median becomes the only entry of a new root over the two halves. -/
def growRoot (m : BTreeMap K V) : BTreeMap K V :=
  let fullIdx := m.root
  let (left, mid, right) := splitNode (m.nodes.get fullIdx)
  let nodes := m.nodes.set fullIdx left
  let rightIdx := nodes.len
  let nodes := nodes.push right
  let nodes := nodes.push { keys := [mid.1], vals := [mid.2], children := [fullIdx, rightIdx] }
  { m with nodes := nodes, root := nodes.len - 1 }

/-- The median `mid` rises into `pnode` at key `lo`, the new sibling takes child seat `lo + 1`. -/
def raise (pnode : BTreeNode K V) (lo : Nat) (mid : K × V) (rightIdx : Int) : BTreeNode K V :=
  let pnode := insertAt pnode lo mid.1 mid.2
  { pnode with children := bubble (pnode.children.push rightIdx) (lo + 1) }

/-- Split the full child at seat `lo` of the node `nd` at `cur`. -/
def splitChild (m : BTreeMap K V) (cur : Int) (nd : BTreeNode K V) (lo : Nat) : BTreeMap K V :=
  let fullIdx := nd.children.get lo
  let (left, mid, right) := splitNode (m.nodes.get fullIdx)
  let nodes := m.nodes.set fullIdx left
  let rightIdx := nodes.len
  let nodes := nodes.push right
  { m with nodes := nodes.set cur (raise nd lo mid rightIdx) }

/-- Exact match: overwrite the value in place. -/
def overwrite (m : BTreeMap K V) (cur : Int) (nd : BTreeNode K V) (lo : Nat) (val : V) :
    BTreeMap K V :=
  { m with nodes := m.nodes.set cur { nd with vals := nd.vals.set lo val } }

/-- Leaf with capacity: insert at the sorted position. -/
def insertLeaf (m : BTreeMap K V) (cur : Int) (nd : BTreeNode K V) (lo : Nat) (key : K) (val : V) :
    BTreeMap K V :=
  { m with nodes := m.nodes.set cur (insertAt nd lo key val), size := m.size + 1 }

/-- The descent of `put`, splitting every full child before stepping into it. -/
def descend (key : K) (val : V) : Nat → BTreeMap K V → Int → Option (BTreeMap K V × Bool)
  | 0, _, _ => none
  | fuel + 1, m, cur =>
    let nd := m.nodes.get cur
    let lo := search compare nd key
    if exactAt compare nd key lo then some (overwrite m cur nd lo val, true)
    else if nd.children.len = 0 then some (insertLeaf m cur nd lo key val, true)
    else if (m.nodes.get (nd.children.get lo)).keys.len = 3 then
      let m := splitChild m cur nd lo
      -- the child seat may have moved: search again
      let nd := m.nodes.get cur
      let lo := search compare nd key
      if exactAt compare nd key lo then some (overwrite m cur nd lo val, true)
      else descend key val fuel m (nd.children.get lo)
    else descend key val fuel m (nd.children.get lo)

/-- `m.put(key, val)`. -/
def put (fuel : Nat) (m : BTreeMap K V) (key : K) (val : V) : Option (BTreeMap K V × Bool) :=
  if m.root = -1 then
    some ({ nodes := m.nodes.push { keys := [key], vals := [val], children := [] },
            root := 0, size := 1 }, true)
  else
    let m := if (m.nodes.get m.root).keys.len = 3 then growRoot m else m
    descend compare key val fuel m m.root

def getLoop (m : BTreeMap K V) (key : K) : Nat → Int → Option (Option V)
  | 0, _ => none
  | fuel + 1, cur =>
    if cur ≠ -1 then
      if m.nodes.len ≤ cur then some none
      else
        let nd := m.nodes.get cur
        let lo := search compare nd key
        if exactAt compare nd key lo then some (some (nd.vals.get lo))
        else if nd.children.len = 0 then some none
        else getLoop m key fuel (nd.children.get lo)
    else some none

/-- `m.get(key)`. -/
def get (fuel : Nat) (m : BTreeMap K V) (key : K) : Option (Option V) :=
  getLoop compare m key fuel m.root

def containsLoop (m : BTreeMap K V) (key : K) : Nat → Int → Option Bool
  | 0, _ => none
  | fuel + 1, cur =>
    if cur ≠ -1 ∧ cur < m.nodes.len then
      let nd := m.nodes.get cur
      let lo := search compare nd key
      if exactAt compare nd key lo then some true
      else if nd.children.len = 0 then some false
      else containsLoop m key fuel (nd.children.get lo)
    else some false

/-- `m.contains_key(key)`. -/
def containsKey (fuel : Nat) (m : BTreeMap K V) (key : K) : Option Bool :=
  containsLoop compare m key fuel m.root

end Code

/-! ## 2. One node as a list of entries -/

/-- A node's key/value pairs. -/
def entries (nd : BTreeNode K V) : List (K × V) := nd.keys.zip nd.vals

/-- One to three keys, each with its value. -/
structure NodeOk (nd : BTreeNode K V) : Prop where
  vals : nd.vals.length = nd.keys.length
  pos : 1 ≤ nd.keys.length
  cap : nd.keys.length ≤ 3

section Node

variable {nd : BTreeNode K V}

section

variable (h : nd.vals.length = nd.keys.length)
include h

theorem keys_eq : nd.keys = (entries nd).map (·.1) := by
  rw [entries, map_fst_zip (le_of_eq h.symm)]

theorem vals_eq : nd.vals = (entries nd).map (·.2) := by
  rw [entries, map_snd_zip (le_of_eq h)]

theorem length_entries : (entries nd).length = nd.keys.length := by
  rw [entries, length_zip, h, Nat.min_self]

end

theorem entries_of_map {nd : BTreeNode K V} {es : List (K × V)} (hk : nd.keys = es.map (·.1))
    (hv : nd.vals = es.map (·.2)) : entries nd = es := by
  rw [entries, hk, hv, zip_map']
  simp

theorem get_mid {α : Type u} [Inhabited α] (l r : List α) (x : α) {n : Nat} (h : l.length = n) :
    Vec.get (l ++ x :: r) n = x :=
  Vec.get_eq_of_getElem? (by subst h; simp)

theorem keys_get [Inhabited K] (hv : nd.vals.length = nd.keys.length) {i : Nat} (hi : i < (entries nd).length) :
    nd.keys.get (i : Int) = ((entries nd)[i]).1 := by
  have hlen := length_entries hv
  have hi' : i < nd.keys.length := by omega
  rw [Vec.get_of_lt _ hi']
  simp [entries]

theorem entry_get [Inhabited K] [Inhabited V] (hv : nd.vals.length = nd.keys.length) {i : Nat}
    (hi : i < (entries nd).length) : (nd.keys.get (i : Int), nd.vals.get (i : Int)) = (entries nd)[i] := by
  have hlen := length_entries hv
  have hval : nd.vals.get (i : Int) = ((entries nd)[i]).2 := by
    rw [Vec.get_of_lt _ (by omega)]
    simp [entries]
  rw [keys_get hv hi, hval]

/-- **Where the binary search stops.** The entries before `lo` are smaller; either the entry at
    `lo` is `key` and the test for an exact match says so, or it does not and the rest is
    larger. -/
theorem search_cases [Inhabited K] (O : OrdKey K) (hv : nd.vals.length = nd.keys.length)
    (hs : SortedKeys O (entries nd)) (key : K) :
    ∃ X Y, entries nd = X ++ Y ∧ X.length = search O.compare nd key ∧
      (∀ e ∈ X, O.lt e.1 key) ∧
      ((exactAt O.compare nd key (search O.compare nd key) = true ∧
          ∃ e Y', Y = e :: Y' ∧ ¬ O.lt e.1 key ∧ ¬ O.lt key e.1) ∨
        (exactAt O.compare nd key (search O.compare nd key) = false ∧
          ∀ e ∈ Y, O.lt key e.1)) := by
  have hlen := length_entries hv
  have hprobe := fun (i : Nat) (hi : i < (entries nd).length) => keys_get hv hi
  have hmono : ∀ i j, i < j → j < nd.keys.length →
      cmpLt O.compare (nd.keys.get (j : Int)) key = true →
      cmpLt O.compare (nd.keys.get (i : Int)) key = true := by
    intro i j hij hj h
    rw [hprobe j (by omega)] at h
    rw [hprobe i (by omega)]
    have h1 : O.lt ((entries nd)[i]).1 ((entries nd)[j]).1 :=
      pairwise_iff_getElem.mp hs i j (by omega) (by omega) hij
    exact decide_eq_true (O.lt_trans h1 (of_decide_eq_true h))
  obtain ⟨hle, hlow, hhigh⟩ := lowerBound_spec hmono
  -- from here on only what `lowerBound_spec` says of the position matters
  generalize hk : search O.compare nd key = k
  rw [search] at hk
  rw [hk] at hle hlow hhigh
  refine ⟨(entries nd).take k, (entries nd).drop k, (take_append_drop _ _).symm, ?_, ?_, ?_⟩
  · rw [length_take]
    omega
  · intro e he
    obtain ⟨i, hi, rfl⟩ := getElem_of_mem he
    rw [length_take] at hi
    have h := hlow i (by omega)
    rw [hprobe i (by omega)] at h
    rw [getElem_take]
    exact of_decide_eq_true h
  · rcases lt_or_ge k nd.keys.length with hlt | hge
    · have hlt' : k < (entries nd).length := by omega
      have hn : ¬ O.lt ((entries nd)[k]).1 key := by
        have h := hhigh _ (le_refl _) hlt
        rw [hprobe _ hlt'] at h
        exact of_decide_eq_false h
      have hd := drop_eq_getElem_cons hlt'
      by_cases hgt : O.lt key ((entries nd)[k]).1
      · right
        refine ⟨?_, fun e he => ?_⟩
        · have hc : cmpLt O.compare key ((entries nd)[k]).1 = true := decide_eq_true hgt
          rw [exactAt, hprobe _ hlt', hc]
          simp
        · rw [hd] at he
          rcases mem_cons.mp he with rfl | he
          · exact hgt
          · have hp : SortedKeys O ((entries nd).drop k) := hs.sublist (drop_sublist _ _)
            rw [hd, SortedKeys, pairwise_cons] at hp
            exact O.lt_trans hgt (hp.1 e he)
      · left
        refine ⟨?_, _, _, hd, hn, hgt⟩
        have hc : cmpLt O.compare key ((entries nd)[k]).1 = false := decide_eq_false hgt
        rw [exactAt, hprobe _ hlt', hc]
        simp [hlt]
    · right
      refine ⟨by simp [exactAt, hge], fun e he => ?_⟩
      rw [drop_eq_nil_of_le (by omega)] at he
      cases he

theorem entries_overwrite (hv : nd.vals.length = nd.keys.length) {X Y : List (K × V)} {e : K × V}
    (h : entries nd = X ++ e :: Y) (val : V) :
    entries { nd with vals := nd.vals.set (X.length : Int) val } = X ++ (e.1, val) :: Y := by
  refine entries_of_map ?_ ?_
  · show nd.keys = _
    rw [keys_eq hv, h]
    simp
  · show nd.vals.set (X.length : Int) val = _
    rw [vals_eq hv, h, Vec.set_natCast]
    simp

theorem vals_get [Inhabited V] (hv : nd.vals.length = nd.keys.length) {X Y : List (K × V)} {e : K × V}
    (h : entries nd = X ++ e :: Y) : nd.vals.get (X.length : Int) = e.2 := by
  rw [vals_eq hv, h, map_append, map_cons]
  exact get_mid _ _ _ (by simp)

theorem bubbleFrom_push {α : Type u} (l r : List α) (x : α) :
    bubbleFrom ((l ++ r).length - l.length) (l ++ r).length (Vec.push (l ++ r) x) = l ++ x :: r := by
  have h := bubbleFrom_mid l x r []
  rw [append_nil] at h
  rw [Vec.push, length_append, Nat.add_sub_cancel_left]
  exact h

section

variable (hv : nd.vals.length = nd.keys.length) {X Y : List (K × V)} (h : entries nd = X ++ Y) (key : K) (val : V)
include hv h

theorem keys_insertAt : (insertAt nd X.length key val).keys = (X ++ (key, val) :: Y).map (·.1) := by
  have hk : nd.keys = X.map (·.1) ++ Y.map (·.1) := by rw [keys_eq hv, h, map_append]
  have e := bubbleFrom_push (X.map (·.1)) (Y.map (·.1)) key
  rw [← hk, length_map] at e
  simp only [insertAt, Vec.push, length_append, length_singleton, Nat.add_sub_cancel]
  rw [Vec.push] at e
  rw [e]
  simp

theorem vals_insertAt : (insertAt nd X.length key val).vals = (X ++ (key, val) :: Y).map (·.2) := by
  have hk : nd.vals = X.map (·.2) ++ Y.map (·.2) := by rw [vals_eq hv, h, map_append]
  have e := bubbleFrom_push (X.map (·.2)) (Y.map (·.2)) val
  rw [← hk, length_map, hv] at e
  simp only [insertAt, Vec.push, length_append, length_singleton, Nat.add_sub_cancel]
  rw [Vec.push] at e
  rw [e]
  simp

/-- **Inserting at the position found.** -/
theorem entries_insertAt : entries (insertAt nd X.length key val) = X ++ (key, val) :: Y :=
  entries_of_map (keys_insertAt hv h key val) (vals_insertAt hv h key val)

end

theorem insertAt_ok (hok : NodeOk nd) {X Y : List (K × V)} (h : entries nd = X ++ Y) (key : K) (val : V)
    (hcap : nd.keys.length < 3) : NodeOk (insertAt nd X.length key val) := by
  have hl : X.length + Y.length = nd.keys.length := by
    rw [← length_entries hok.vals, h, length_append]
  have hk := congrArg List.length (keys_insertAt hok.vals h key val)
  have hv := congrArg List.length (vals_insertAt hok.vals h key val)
  simp only [length_map, length_append, length_cons] at hk hv
  exact ⟨by omega, by omega, by omega⟩

theorem raise_ok (hok : NodeOk nd) {X Y : List (K × V)} (h : entries nd = X ++ Y) (mid : K × V) (r : Int)
    (hcap : nd.keys.length < 3) : NodeOk (raise nd X.length mid r) :=
  have hi := insertAt_ok hok h mid.1 mid.2 hcap
  ⟨hi.vals, hi.pos, hi.cap⟩

/-- The new sibling stands right after the child that was split. -/
theorem children_raise {A B : List Int} {c : Int} (h : nd.children = A ++ c :: B) (mid : K × V) (r : Int) :
    (raise nd A.length mid r).children = A ++ c :: r :: B := by
  have e : A ++ c :: B = (A ++ [c]) ++ B := by simp
  have hl : (A ++ [c]).length = A.length + 1 := by simp
  show bubble (nd.children.push r) (A.length + 1) = _
  rw [Vec.push, h, bubble_append _ _ _ (by simp), e, ← hl, take_left, drop_left]
  simp

/-- **A full node splits into one entry, the median, and one entry**; an inner node's four
    children are shared out two and two. -/
theorem splitNode_spec [Inhabited K] [Inhabited V] {full : BTreeNode K V} (hok : NodeOk full)
    (h3 : full.keys.length = 3) :
    ∃ e₀ e₁ e₂, entries full = [e₀, e₁, e₂] ∧ (splitNode full).2.1 = e₁ ∧
      (splitNode full).1.keys = [e₀.1] ∧ (splitNode full).1.vals = [e₀.2] ∧
      (splitNode full).2.2.keys = [e₂.1] ∧ (splitNode full).2.2.vals = [e₂.2] ∧
      (full.children = [] → (splitNode full).1.children = [] ∧ (splitNode full).2.2.children = []) ∧
      (∀ c₀ c₁ c₂ c₃, full.children = [c₀, c₁, c₂, c₃] →
        (splitNode full).1.children = [c₀, c₁] ∧ (splitNode full).2.2.children = [c₂, c₃]) := by
  obtain ⟨ks, vs, cs⟩ := full
  obtain ⟨k₀, k₁, k₂, rfl⟩ := length_eq_three.mp h3
  obtain ⟨v₀, v₁, v₂, rfl⟩ := length_eq_three.mp (hok.vals.trans h3)
  refine ⟨(k₀, v₀), (k₁, v₁), (k₂, v₂), rfl, rfl, rfl, rfl, rfl, rfl, ?_, ?_⟩
  · rintro rfl
    exact ⟨rfl, rfl⟩
  · rintro c₀ c₁ c₂ c₃ rfl
    exact ⟨rfl, rfl⟩

end Node

end BTreeMap

end Vyb.Collections
