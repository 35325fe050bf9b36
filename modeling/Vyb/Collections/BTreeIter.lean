/-
  Subject:   The iterator of `BTreeMap<K, V>` (`stdlib/collections/mod.vyb`), and `OrderedMap` beside it.

  The iterator keeps a stack of nodes and, for each of them, how far it has come in the sequence
  child 0, key 0, child 1, key 1, …: at an even number there is a child to go into, at an odd one a key to
  hand out. In a leaf the number is that of the key.

  * `trace_rep` -- from a node at its beginning, the rounds hand out the contents of its subtree and end
    with the node taken off the stack;
  * `iter_yields` -- so an iterator hands out the contents of the map;
  * **`maps_agree`** -- after every sequence of `put`s that is what an `OrderedMap` holds and hands out.
-/
import Vyb.Collections.BTreeRefine
import Vyb.Collections.OrderedMap

namespace Vyb.Collections

open Lib List Vec BTreeMap

universe u v

/-! ## 1. The code -/

structure BTreeMapIter (K : Type u) (V : Type v) where
  map : BTreeMap K V
  stk : Vec Int
  pos : Vec Int

variable {K : Type u} {V : Type v}

/-- `m.iter()`. -/
def BTreeMap.iter (m : BTreeMap K V) : BTreeMapIter K V :=
  if m.root ≠ -1 then ⟨m, [m.root], [0]⟩ else ⟨m, [], []⟩

namespace BTreeMapIter

variable [Inhabited K] [Inhabited V]

/-- One round of the loop of `next`. -/
def round (it : BTreeMapIter K V) : Round (BTreeMapIter K V) (K × V) :=
  if it.stk.len = 0 then .finished
  else
    let ndx := it.stk.len - 1
    let nid := it.stk.get ndx
    let nd := it.map.nodes.get nid
    let pp := it.pos.get ndx
    let popped := { it with stk := it.stk.pop, pos := it.pos.pop }
    if nd.children.len = 0 then
      if pp < nd.keys.len then .emit (nd.keys.get pp, nd.vals.get pp) { it with pos := it.pos.set ndx (pp + 1) }
      else .silent popped
    else if pp % 2 = 0 then
      let ci := pp / 2
      if ci < nd.children.len then
        let cid := nd.children.get ci
        .silent { it with stk := it.stk.push cid, pos := (it.pos.set ndx (pp + 1)).push 0 }
      else .silent popped
    else
      let ki := pp / 2
      if ki < nd.keys.len then .emit (nd.keys.get ki, nd.vals.get ki) { it with pos := it.pos.set ndx (pp + 1) }
      else .silent popped

/-- `it.next()`. -/
def next (it : BTreeMapIter K V) : Fueled (Option (K × V) × BTreeMapIter K V) := nextOf round it

/-! ## 2. The node on top of the stack -/

section Top

variable {m : BTreeMap K V} {S P : Vec Int} {n : Nat} {nd : BTreeNode K V}

theorem round_empty : round (⟨m, [], P⟩ : BTreeMapIter K V) = .finished := rfl

/-- What a round sees of a stack that is not empty. -/
theorem round_top (hSP : S.length = P.length) (hn : m.nodes[n]? = some nd) (pp : Nat) :
    round ⟨m, S ++ [(n : Int)], P ++ [(pp : Int)]⟩ =
      if nd.children.length = 0 then
        if pp < nd.keys.length then .emit (nd.keys.get pp, nd.vals.get pp) ⟨m, S ++ [(n : Int)], P ++ [(pp + 1 : Int)]⟩
        else .silent ⟨m, S, P⟩
      else if pp % 2 = 0 then
        if pp / 2 < nd.children.length then
          .silent ⟨m, S ++ [(n : Int)] ++ [nd.children.get ((pp / 2 : Nat) : Int)], P ++ [(pp + 1 : Int)] ++ [0]⟩
        else .silent ⟨m, S, P⟩
      else
        if pp / 2 < nd.keys.length then
          .emit (nd.keys.get ((pp / 2 : Nat) : Int), nd.vals.get ((pp / 2 : Nat) : Int))
            ⟨m, S ++ [(n : Int)], P ++ [(pp + 1 : Int)]⟩
        else .silent ⟨m, S, P⟩ := by
  have hlen : len (S ++ [(n : Int)]) = (S.length : Int) + 1 := by simp [len]
  have hndx : len (S ++ [(n : Int)]) - 1 = (S.length : Int) := by omega
  have hne : ¬ len (S ++ [(n : Int)]) = 0 := by omega
  have hnid : get (S ++ [(n : Int)]) (S.length : Int) = n := get_push_self S _
  have hpp : get (P ++ [(pp : Int)]) (S.length : Int) = pp := by
    rw [hSP]
    exact get_push_self P _
  have hnd : m.nodes.get (n : Int) = nd := get_eq_of_getElem? hn
  have hset : set (P ++ [(pp : Int)]) (S.length : Int) (pp + 1 : Int) = P ++ [(pp + 1 : Int)] :=
    set_append P _ _ hSP.symm
  have heven : ((pp : Int) % 2 = 0) = (pp % 2 = 0) := propext (by omega)
  have hdiv : (pp : Int) / 2 = ((pp / 2 : Nat) : Int) := by omega
  simp only [round, hndx, if_neg hne, hnid, hnd, hpp, hset, pop_append, heven, hdiv]
  simp only [len, push, Nat.cast_lt, Nat.cast_eq_zero]

/-- A leaf from its `i`-th key on. -/
theorem trace_leaf (hSP : S.length = P.length) (hn : m.nodes[n]? = some nd) (hok : BTreeMap.NodeOk nd)
    (hc : nd.children = []) : ∀ k i : Nat, i + k = nd.keys.length →
    Trace round ⟨m, S ++ [(n : Int)], P ++ [(i : Int)]⟩ ((BTreeMap.entries nd).drop i) ⟨m, S, P⟩
  | 0, i, hi => by
    have hlen := length_entries hok.vals
    rw [drop_eq_nil_of_le (by omega)]
    refine .silent ((round_top hSP hn i).trans ?_) (.refl _)
    rw [if_pos (by simp [hc]), if_neg (by omega)]
  | k + 1, i, hi => by
    have hlen := length_entries hok.vals
    have hlt : i < (BTreeMap.entries nd).length := by omega
    rw [drop_eq_getElem_cons hlt]
    refine .emit ((round_top hSP hn i).trans ?_) (trace_leaf hSP hn hok hc k (i + 1) (by omega))
    rw [if_pos (by simp [hc]), if_pos (by omega), entry_get hok.vals hlt]
    rfl

/-- The subtrees of an inner node are walked, whatever lies below them on the stack. -/
def Walked (m : BTreeMap K V) (subs : List (BTreeMap.Sub K V)) : Prop :=
  ∀ s ∈ subs, ∀ S P : Vec Int, S.length = P.length →
    Trace round ⟨m, S ++ [(s.idx : Int)], P ++ [0]⟩ s.es ⟨m, S, P⟩

variable {R : Nat → List Nat → List (K × V) → Prop} {subs : List (BTreeMap.Sub K V)} {fp : List Nat}
  {es : List (K × V)}

theorem trace_child (hSP : S.length = P.length) (hI : BTreeMap.IsInner R m.nodes n nd subs fp es)
    (hw : Walked m subs) {i : Nat} (hi : i < subs.length) :
    Trace round ⟨m, S ++ [(n : Int)], P ++ [((2 * i : Nat) : Int)]⟩ subs[i].es
      ⟨m, S ++ [(n : Int)], P ++ [((2 * i + 1 : Nat) : Int)]⟩ := by
  have hcl : nd.children.length = subs.length := by rw [hI.children, length_map]
  have hcid : nd.children.get (i : Int) = subs[i].idx := by
    rw [hI.children, get_of_lt _ (by simpa using hi), getElem_map]
  refine .silent ((round_top hSP hI.node (2 * i)).trans ?_)
    (hw subs[i] (getElem_mem hi) _ _ (by simp [hSP]))
  rw [if_neg (hI.children_ne_zero), if_pos (by omega), if_pos (by omega), Nat.mul_div_cancel_left i Nat.two_pos,
    hcid]
  rfl

/-- An inner node from its `i`-th child on. -/
theorem trace_inner (hSP : S.length = P.length) (hI : BTreeMap.IsInner R m.nodes n nd subs fp es)
    (hw : Walked m subs) : ∀ k i : Nat, i + k = nd.keys.length →
    Trace round ⟨m, S ++ [(n : Int)], P ++ [((2 * i : Nat) : Int)]⟩
      (weave ((subs.drop i).map (·.es)) ((BTreeMap.entries nd).drop i)) ⟨m, S, P⟩
  | 0, i, hi => by
    have hlen := length_entries hI.ok.vals
    have hbranch := hI.branch
    -- the last child, behind which there is no key
    rw [drop_eq_getElem_cons (show i < subs.length by omega), drop_eq_nil_of_le (by omega),
      drop_eq_nil_of_le (by omega), map_cons, weave]
    refine (trace_child hSP hI hw (by omega)).append (.silent ((round_top hSP hI.node (2 * i + 1)).trans ?_)
      (.refl _))
    rw [if_neg (hI.children_ne_zero), if_neg (by omega), if_neg (by omega)]
  | k + 1, i, hi => by
    have hlen := length_entries hI.ok.vals
    have hbranch := hI.branch
    have hlt : i < (BTreeMap.entries nd).length := by omega
    have hmore : (subs.drop (i + 1)).map (·.es) ≠ [] := by
      rw [ne_eq, map_eq_nil_iff, drop_eq_nil_iff]
      omega
    rw [drop_eq_getElem_cons (show i < subs.length by omega), drop_eq_getElem_cons hlt, map_cons,
      weave, rights_eq_weave hmore]
    refine (trace_child hSP hI hw (by omega)).append (.emit ((round_top hSP hI.node (2 * i + 1)).trans ?_)
      (trace_inner hSP hI hw k (i + 1) (by omega)))
    have hhalf : (2 * i + 1) / 2 = i := by omega
    rw [if_neg (hI.children_ne_zero), if_neg (by omega), if_pos (by omega), hhalf, entry_get hI.ok.vals hlt]
    rfl

/-- **A subtree**: from a node at its beginning, its contents are handed out and it is taken off the stack. -/
theorem trace_rep : ∀ {h n : Nat} {fp : List Nat} {es : List (K × V)}, BTreeMap.Rep m.nodes h n fp es →
    ∀ S P : Vec Int, S.length = P.length → Trace round ⟨m, S ++ [(n : Int)], P ++ [0]⟩ es ⟨m, S, P⟩
  | 0, _, _, _, ⟨nd, hn, hok, hc, _, he⟩, S, P, hSP => by
    rw [he]
    exact trace_leaf hSP hn hok hc nd.keys.length 0 (Nat.zero_add _)
  | h + 1, _, _, _, ⟨nd, subs, hI⟩, S, P, hSP => by
    rw [hI.es_eq]
    exact trace_inner hSP hI (fun s hs => trace_rep (hI.child s hs)) nd.keys.length 0 (Nat.zero_add _)

end Top

end BTreeMapIter

/-! ## 3. The iterator of a map, and the other map -/

section Agree

variable [Inhabited K] [Inhabited V] {O : OrdKey K}

/-- **Iteration** hands out the contents of the tree. -/
theorem BTreeMap.iter_yields {m : BTreeMap K V} {es : List (K × V)} (hm : BTreeMap.Holds O m es) :
    Yields BTreeMapIter.next m.iter es := by
  rcases hm with ⟨rfl, rfl⟩ | ⟨h, n, fp, hp⟩
  · exact .done (nextOf_finished BTreeMapIter.round_empty)
  · have hiter : m.iter = ⟨m, [] ++ [(n : Int)], [] ++ [0]⟩ := by
      rw [BTreeMap.iter, hp.root, if_pos (by omega)]
      rfl
    rw [hiter]
    exact (BTreeMapIter.trace_rep hp.rep [] [] rfl).yields BTreeMapIter.round_empty

/-- **The two ordered maps agree.** After the same `put`s on the empty maps, a loop over the `BTreeMap`
    visits exactly the entries of the `OrderedMap`, which a loop over that one visits too, and their keys
    strictly increase. More rounds of the descent than there were `put`s always suffice. -/
theorem maps_agree (ops : List (K × V)) {fuel : Nat} (hf : ops.length < fuel) :
    ∃ m, BTreeMap.putAll O.compare fuel BTreeMap.empty ops = some m ∧
      (collect BTreeMapIter.next m.iter).Returns
        (OrderedMap.entries (OrderedMap.putAll O.compare OrderedMap.empty ops)) ∧
      (collect OrderedMapIter.next (OrderedMap.putAll O.compare OrderedMap.empty ops).iter).Returns
        (OrderedMap.entries (OrderedMap.putAll O.compare OrderedMap.empty ops)) ∧
      SortedKeys O (OrderedMap.entries (OrderedMap.putAll O.compare OrderedMap.empty ops)) := by
  obtain ⟨m, hrun, hm⟩ := putAll_holds ops (holds_empty (O := O))
    (show ([] : List (K × V)).length + ops.length < fuel + 1 by simp only [length_nil]; omega)
  obtain ⟨hes, hok⟩ := OrderedMap.putAll_entries ops (OrderedMap.ok_empty (O := O) (V := V))
  refine ⟨m, hrun, ?_, collect_of_yields (OrderedMap.iter_yields hok.vals), hok.sorted⟩
  rw [hes]
  exact collect_of_yields (iter_yields hm)

end Agree

/-- Eight `put`s in no order, one of them an overwrite, into a tree of height one. -/
theorem maps_agree_splits :
    ∃ m : BTreeMap Int Int, BTreeMap.putAll BTreeMap.intOrd.compare 9 BTreeMap.empty
        [(5, 1), (3, 2), (9, 3), (1, 4), (7, 5), (8, 6), (3, 7), (10, 8)] = some m ∧
      (collect BTreeMapIter.next m.iter).Returns
        [(1, 4), (3, 7), (5, 1), (7, 5), (8, 6), (9, 3), (10, 8)] := by
  obtain ⟨m, hrun, hiter, -⟩ := maps_agree (O := BTreeMap.intOrd)
    [(5, (1 : Int)), (3, 2), (9, 3), (1, 4), (7, 5), (8, 6), (3, 7), (10, 8)] (show 8 < 9 by decide)
  exact ⟨m, hrun, hiter⟩

end Vyb.Collections
