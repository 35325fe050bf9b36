/-
  Subject:   `BTreeMap` over whole runs: the shape of the tree and the finite map it stands for.

  * `WellFormed` -- the shape of a B-tree read off the arena alone: node sizes, branching, leaf
    depth, in-order keys, one parent for every node but the root, no cycle;
  * `holds_wellFormed` -- an arena that `Holds` some entries has that shape;
  * **`bTreeMap_refines_finite_map`** -- after every sequence of `put`s on the empty map the arena
    is well formed, and `get`, `contains_key` and `size` answer as the finite map does to which
    the same `put`s were applied.
-/
import Vyb.Collections.BTreeDescend

namespace Vyb.Collections.BTreeMap

open Lib List

universe u v

variable {K : Type u} {V : Type v}

/-! ## 1. The shape of an arena -/

/-- Child seat `i` of the node at `p` refers to `c`. -/
def IsChild (nodes : Vec (BTreeNode K V)) (p i c : Nat) : Prop :=
  ∃ nd, nodes[p]? = some nd ∧ nd.children[i]? = some (c : Int)

/-- `k` child steps lead from one node to another. -/
inductive Path (nodes : Vec (BTreeNode K V)) : Nat → Nat → Nat → Prop
  | refl (n : Nat) : Path nodes n n 0
  | step {p i c j k : Nat} : IsChild nodes p i c → Path nodes c j k → Path nodes p j (k + 1)

/-- The in-order contents below `n`, to depth `d`. -/
def inorder (nodes : Vec (BTreeNode K V)) : Nat → Int → List (K × V)
  | 0, _ => []
  | d + 1, n =>
    let nd := nodes.get n
    if nd.children.len = 0 then entries nd else weave (nd.children.map (inorder nodes d)) (entries nd)

/-- A B-tree of minimum degree two, read off the arena. -/
structure WellFormed (O : OrdKey K) (m : BTreeMap K V) : Prop where
  keys : ∀ nd ∈ m.nodes, 1 ≤ nd.keys.length ∧ nd.keys.length ≤ 3 ∧ nd.vals.length = nd.keys.length
  branch : ∀ nd ∈ m.nodes, nd.children ≠ [] → nd.children.length = nd.keys.length + 1
  closed : ∀ nd ∈ m.nodes, ∀ c ∈ nd.children, ∃ n : Nat, c = n ∧ n < m.nodes.length
  root : (m.root = -1 ∧ m.nodes = []) ∨ ∃ r : Nat, m.root = r ∧ r < m.nodes.length
  depth : ∃ d, ∀ (r j k : Nat) (nd : BTreeNode K V), m.root = r → Path m.nodes r j k →
    m.nodes[j]? = some nd → nd.children = [] → k = d
  sorted : SortedKeys O (inorder m.nodes m.nodes.length m.root)
  reached : ∀ j, j < m.nodes.length → ∃ r k : Nat, m.root = r ∧ Path m.nodes r j k
  parent : ∀ j, j < m.nodes.length → m.root ≠ j → ∃! p : Nat × Nat, IsChild m.nodes p.1 p.2 j
  rootless : ∀ p i r : Nat, m.root = r → ¬ IsChild m.nodes p i r
  acyclic : ∀ j k, Path m.nodes j j k → k = 0

/-! ## 2. A represented tree has that shape -/

variable {j i k c : Nat}

section Shape

variable {nodes : Vec (BTreeNode K V)} {h n : Nat} {fp : List Nat} {es : List (K × V)}
  {nd : BTreeNode K V} {subs : List (Sub K V)}
  {R : Nat → List Nat → List (K × V) → Prop}

section

variable (hI : IsInner R nodes n nd subs fp es)
include hI

theorem IsInner.isChild_iff :
    IsChild nodes n i c ↔ ∃ s : Sub K V, subs[i]? = some s ∧ s.idx = c := by
  constructor
  · rintro ⟨nd', hn, hc⟩
    cases hI.node.symm.trans hn
    rw [hI.children, getElem?_map, Option.map_eq_some_iff] at hc
    obtain ⟨s, hs, hsc⟩ := hc
    exact ⟨s, hs, Int.ofNat_inj.mp hsc⟩
  · rintro ⟨s, hs, rfl⟩
    refine ⟨nd, hI.node, ?_⟩
    rw [hI.children, getElem?_map, hs]
    rfl

/-- Two seats whose subtrees share an index are one seat. -/
theorem IsInner.seat_unique (hnd : fp.Nodup) {s t : Sub K V}
    (hs : subs[i]? = some s) (ht : subs[k]? = some t) (hjs : j ∈ s.fp) (hjt : j ∈ t.fp) : i = k := by
  rw [hI.fp_eq, nodup_cons, nodup_flatMap] at hnd
  have hpw := pairwise_iff_getElem.mp hnd.2.2
  obtain ⟨hi, rfl⟩ := List.getElem?_eq_some_iff.mp hs
  obtain ⟨hk, rfl⟩ := List.getElem?_eq_some_iff.mp ht
  rcases Nat.lt_trichotomy i k with hlt | heq | hlt
  · exact absurd hjt (disjoint_left.mp (hpw i k hi hk hlt) hjs)
  · exact heq
  · exact absurd hjs (disjoint_left.mp (hpw k i hk hi hlt) hjt)

theorem IsInner.child_nodup_of_mem (hnd : fp.Nodup) {s : Sub K V}
    (hs : s ∈ subs) : s.fp.Nodup := by
  rw [hI.fp_eq, nodup_cons, nodup_flatMap] at hnd
  exact hnd.2.1 s hs

theorem IsInner.mem_fp :
    j ∈ fp ↔ j = n ∨ ∃ (i : Nat) (s : Sub K V), subs[i]? = some s ∧ j ∈ s.fp := by
  rw [hI.fp_eq, mem_cons, mem_flatMap]
  constructor
  · rintro (h | ⟨s, hs, hj⟩)
    · exact .inl h
    · obtain ⟨i, hi⟩ := mem_iff_getElem?.mp hs
      exact .inr ⟨i, s, hi, hj⟩
  · rintro (h | ⟨i, s, hi, hj⟩)
    · exact .inl h
    · exact .inr ⟨s, mem_of_getElem? hi, hj⟩

end

theorem not_isChild_leaf (hr : Rep nodes 0 n fp es) : ¬ IsChild nodes n i c := by
  rintro ⟨nd', hn', hc⟩
  rw [(children_eq_nil_iff hr hn').mpr rfl] at hc
  simp at hc

/-- Every index of the footprint roots a subtree, and a path leads to it. -/
theorem rep_member : ∀ {h n : Nat} {fp : List Nat} {es : List (K × V)}, Rep nodes h n fp es →
    ∀ j ∈ fp, ∃ h' k fp' es', h = h' + k ∧ Path nodes n j k ∧ Rep nodes h' j fp' es'
  | 0, n, fp, es, hr, j, hj => by
    obtain ⟨_, _, _, _, hfp, _⟩ := id hr
    rw [hfp, mem_singleton] at hj
    subst hj
    exact ⟨0, 0, fp, es, rfl, Path.refl j, hr⟩
  | h + 1, n, fp, es, hr, j, hj => by
    obtain ⟨nd, subs, hI⟩ := id hr
    rcases hI.mem_fp.mp hj with rfl | ⟨i, s, hs, hjs⟩
    · exact ⟨h + 1, 0, fp, es, rfl, Path.refl j, hr⟩
    · obtain ⟨h', k, fp', es', he, hp, hr'⟩ := rep_member (hI.child s (mem_of_getElem? hs)) j hjs
      exact ⟨h', k + 1, fp', es', by omega, Path.step (hI.isChild_iff.mpr ⟨s, hs, rfl⟩) hp, hr'⟩

/-- A child step stays in the footprint and never leads back to the top. -/
theorem rep_closed : ∀ {h n : Nat} {fp : List Nat} {es : List (K × V)}, Rep nodes h n fp es →
    fp.Nodup → ∀ {p i c : Nat}, p ∈ fp → IsChild nodes p i c → c ∈ fp ∧ c ≠ n
  | 0, n, fp, es, hr, _, p, i, c, hp, hc => by
    obtain ⟨_, _, _, _, hfp, _⟩ := id hr
    rw [hfp, mem_singleton] at hp
    subst hp
    exact absurd hc (not_isChild_leaf hr)
  | h + 1, n, fp, es, ⟨nd, subs, hI⟩, hnd, p, i, c, hp, hc => by
    -- the child lies in the footprint of one of the subtrees, and those do not contain `n`
    have hin : ∃ (k : Nat) (s : Sub K V), subs[k]? = some s ∧ c ∈ s.fp := by
      rcases hI.mem_fp.mp hp with rfl | ⟨k, s, hs, hps⟩
      · obtain ⟨s, hs, rfl⟩ := hI.isChild_iff.mp hc
        exact ⟨i, s, hs, (rep_node (hI.child s (mem_of_getElem? hs))).1⟩
      · have hs' := mem_of_getElem? hs
        exact ⟨k, s, hs, (rep_closed (hI.child s hs') (hI.child_nodup_of_mem hnd hs') hps hc).1⟩
    obtain ⟨k, s, hs, hcs⟩ := hin
    refine ⟨hI.mem_fp.mpr (.inr ⟨k, s, hs, hcs⟩), ?_⟩
    rintro rfl
    exact hI.notMem_child hnd (mem_of_getElem? hs) hcs

/-- **No sharing**: a node is the child of one node, at one seat. -/
theorem rep_parent_unique : ∀ {h n : Nat} {fp : List Nat} {es : List (K × V)},
    Rep nodes h n fp es → fp.Nodup → ∀ {p i p' i' c : Nat}, p ∈ fp → p' ∈ fp →
    IsChild nodes p i c → IsChild nodes p' i' c → p = p' ∧ i = i'
  | 0, n, fp, es, hr, _, p, i, p', i', c, hp, _, hc, _ => by
    obtain ⟨_, _, _, _, hfp, _⟩ := id hr
    rw [hfp, mem_singleton] at hp
    subst hp
    exact absurd hc (not_isChild_leaf hr)
  | h + 1, n, fp, es, ⟨nd, subs, hI⟩, hnd, p, i, p', i', c, hp, hp', hc, hc' => by
    have hidx : ∀ {k : Nat} {s : Sub K V}, subs[k]? = some s → s.idx ∈ s.fp := fun hs =>
      (rep_node (hI.child _ (mem_of_getElem? hs))).1
    have hbelow : ∀ {k q l : Nat} {s : Sub K V}, subs[k]? = some s → q ∈ s.fp →
        IsChild nodes q l c → c ∈ s.fp ∧ c ≠ s.idx := fun hs hq hq' =>
      rep_closed (hI.child _ (mem_of_getElem? hs))
        (hI.child_nodup_of_mem hnd (mem_of_getElem? hs)) hq hq'
    have hroot : ∀ {j k q l : Nat} {s : Sub K V}, IsChild nodes n j c → subs[k]? = some s → q ∈ s.fp →
        ¬ IsChild nodes q l c := fun hc hs hq hq' => by
      obtain ⟨s', hs', rfl⟩ := hI.isChild_iff.mp hc
      obtain ⟨hm, hne⟩ := hbelow hs hq hq'
      obtain rfl := hI.seat_unique hnd hs' hs (hidx hs') hm
      rw [hs', Option.some_inj] at hs
      exact hne (congrArg Sub.idx hs)
    rcases hI.mem_fp.mp hp with rfl | ⟨k, s, hs, hps⟩ <;>
      rcases hI.mem_fp.mp hp' with rfl | ⟨k', s', hs', hps'⟩
    · obtain ⟨s, hs, rfl⟩ := hI.isChild_iff.mp hc
      obtain ⟨s', hs', he⟩ := hI.isChild_iff.mp hc'
      exact ⟨rfl, hI.seat_unique hnd hs hs' (hidx hs) (he ▸ hidx hs')⟩
    · exact absurd hc' (hroot hc hs' hps')
    · exact absurd hc (hroot hc' hs hps)
    · obtain rfl := hI.seat_unique hnd hs hs' (hbelow hs hps hc).1 (hbelow hs' hps' hc').1
      rw [hs, Option.some_inj] at hs'
      subst hs'
      have hm := mem_of_getElem? hs
      exact rep_parent_unique (hI.child s hm) (hI.child_nodup_of_mem hnd hm) hps hps' hc hc'

theorem rep_height_unique : ∀ {h h' n : Nat} {fp fp' : List Nat} {es es' : List (K × V)},
    Rep nodes h n fp es → Rep nodes h' n fp' es' → h = h'
  | 0, h', n, fp, fp', es, es', hr, hr' => by
    obtain ⟨-, nd, hn, -⟩ := rep_node hr
    exact ((children_eq_nil_iff hr' hn).mp ((children_eq_nil_iff hr hn).mpr rfl)).symm
  | h + 1, 0, n, fp, fp', es, es', hr, hr' => by
    obtain ⟨-, nd, hn, -⟩ := rep_node hr
    exact (children_eq_nil_iff hr hn).mp ((children_eq_nil_iff hr' hn).mpr rfl)
  | h + 1, h' + 1, n, fp, fp', es, es', ⟨nd, subs, hI⟩, ⟨nd', subs', hI'⟩ => by
    have hb := hI.branch
    obtain ⟨s, hs⟩ : ∃ s, subs[0]? = some s := ⟨subs[0], getElem?_eq_getElem (by omega)⟩
    obtain ⟨s', hs', he⟩ := hI'.isChild_iff.mp (hI.isChild_iff.mpr ⟨s, hs, rfl⟩)
    have hr := hI.child s (mem_of_getElem? hs)
    have hr' := hI'.child s' (mem_of_getElem? hs')
    rw [he] at hr'
    rw [rep_height_unique hr hr']

/-- A path of `k` steps goes down `k` levels. -/
theorem path_rep {n : Nat} (hp : Path nodes n j k) : ∀ {h : Nat} {fp : List Nat}
    {es : List (K × V)}, Rep nodes h n fp es →
    ∃ h' fp' es', h = h' + k ∧ Rep nodes h' j fp' es' := by
  induction hp with
  | refl n =>
    intro h fp es hr
    exact ⟨h, fp, es, rfl, hr⟩
  | step hc _ ih =>
    intro h fp es hr
    cases h with
    | zero => exact absurd hc (not_isChild_leaf hr)
    | succ h =>
      obtain ⟨nd, subs, hI⟩ := hr
      obtain ⟨s, hs, rfl⟩ := hI.isChild_iff.mp hc
      obtain ⟨h', fp', es', he, hr'⟩ := ih (hI.child s (mem_of_getElem? hs))
      exact ⟨h', fp', es', by omega, hr'⟩

theorem path_last {n : Nat} (hp : Path nodes n j k) (hne : n ≠ j) : ∃ p i, IsChild nodes p i j := by
  induction hp with
  | refl n => exact absurd rfl hne
  | @step p i c j k hc _ ih =>
    by_cases h : c = j
    · subst h
      exact ⟨p, i, hc⟩
    · exact ih h

/-- A subtree of height `h` occupies more than `h` nodes. -/
theorem rep_fp_length : ∀ {h n : Nat} {fp : List Nat} {es : List (K × V)}, Rep nodes h n fp es →
    h + 1 ≤ fp.length
  | 0, n, fp, es, ⟨_, _, _, _, hfp, _⟩ => by simp [hfp]
  | h + 1, n, fp, es, ⟨nd, subs, hI⟩ => by
    have hb := hI.branch
    obtain ⟨s, hs⟩ := exists_mem_of_length_pos (l := subs) (by omega)
    have ih := rep_fp_length (hI.child s hs)
    have hle : s.fp.length ≤ (subs.flatMap (·.fp)).length :=
      (sublist_flatten_of_mem (mem_map_of_mem hs)).length_le
    rw [hI.fp_eq, length_cons]
    omega

/-- **The in-order walk of the arena yields the contents.** -/
theorem rep_inorder : ∀ {h n : Nat} {fp : List Nat} {es : List (K × V)} {d : Nat},
    Rep nodes h n fp es → h < d → inorder nodes d n = es
  | _, _, _, _, 0, _, hd => nomatch hd
  | h, n, fp, es, d + 1, hr, hd => by
    obtain ⟨-, nd, hn, -⟩ := rep_node hr
    have hget : nodes.get (n : Int) = nd := Vec.get_eq_of_getElem? hn
    have hc := children_eq_nil_iff hr hn
    rw [← length_eq_zero_iff, ← Int.natCast_eq_zero] at hc
    simp only [inorder, hget, Vec.len, hc]
    cases h with
    | zero =>
      obtain ⟨nd', hn', _, _, _, rfl⟩ := hr
      cases hn'.symm.trans hn
      simp
    | succ h =>
      obtain ⟨nd', subs, hI⟩ := hr
      obtain rfl : nd' = nd := Option.some_inj.mp (hI.node.symm.trans hn)
      have hsub : nd'.children.map (inorder nodes d) = subs.map (·.es) := by
        rw [hI.children, map_map]
        refine map_congr_left fun s hs => ?_
        exact rep_inorder (hI.child s hs) (by omega)
      rw [hsub, hI.es_eq]
      simp

end Shape

section WellFormed

variable {O : OrdKey K} {m : BTreeMap K V} {h n : Nat} {fp : List Nat} {es : List (K × V)}

theorem Planted.mem_iff (hp : Planted O m h n fp es) : j ∈ fp ↔ j < m.nodes.length := by
  rw [hp.all.mem_iff, mem_range]

theorem Planted.root_eq (hp : Planted O m h n fp es) {r : Nat} (hr : m.root = r) : n = r :=
  Int.ofNat_inj.mp (hp.root.symm.trans hr)

theorem IsChild.lt {nodes : Vec (BTreeNode K V)} {p : Nat} (hc : IsChild nodes p i c) : p < nodes.length := by
  obtain ⟨nd, hn, -⟩ := hc
  exact (List.getElem?_eq_some_iff.mp hn).1

section

variable (hp : Planted O m h n fp es)
include hp

/-- Every node of the arena roots a subtree. -/
theorem Planted.rep_at {nd : BTreeNode K V} (hnd : nd ∈ m.nodes) :
    ∃ j h' fp' es', m.nodes[j]? = some nd ∧ Rep m.nodes h' j fp' es' := by
  obtain ⟨j, hj⟩ := mem_iff_getElem?.mp hnd
  have hjl : j < m.nodes.length := (List.getElem?_eq_some_iff.mp hj).1
  obtain ⟨h', _, fp', es', _, _, hr⟩ := rep_member hp.rep j (hp.mem_iff.mpr hjl)
  exact ⟨j, h', fp', es', hj, hr⟩

theorem Planted.height_lt : h < m.nodes.length := by
  have h1 := rep_fp_length hp.rep
  have h2 := hp.all.length_eq
  rw [length_range] at h2
  omega

theorem Planted.acyclic (hj : Path m.nodes j j k) : k = 0 := by
  cases hj with
  | refl => rfl
  | @step _ _ _ _ k hc hrest =>
    obtain ⟨h', _, fp', es', _, _, hr⟩ := rep_member hp.rep j (hp.mem_iff.mpr hc.lt)
    obtain ⟨h'', fp'', es'', he, hr''⟩ := path_rep (Path.step hc hrest) hr
    have := rep_height_unique hr hr''
    omega

theorem Planted.parent (hj : j < m.nodes.length) (hne : m.root ≠ j) :
    ∃! p : Nat × Nat, IsChild m.nodes p.1 p.2 j := by
  have hnj : n ≠ j := fun he => hne (he ▸ hp.root)
  obtain ⟨_, k, _, _, _, hpath, _⟩ := rep_member hp.rep j (hp.mem_iff.mpr hj)
  obtain ⟨p, i, hc⟩ := path_last hpath hnj
  refine ⟨(p, i), hc, fun q hq => ?_⟩
  obtain ⟨h1, h2⟩ := rep_parent_unique hp.rep hp.nodup (hp.mem_iff.mpr (IsChild.lt hq))
    (hp.mem_iff.mpr hc.lt) hq hc
  exact Prod.ext h1 h2

theorem Planted.branch {nd : BTreeNode K V} (hnd : nd ∈ m.nodes) :
    NodeOk nd ∧ (nd.children ≠ [] → nd.children.length = nd.keys.length + 1) ∧
      ∀ c ∈ nd.children, ∃ n : Nat, c = n ∧ n < m.nodes.length := by
  obtain ⟨j, h', fp', es', hj, hr⟩ := hp.rep_at hnd
  cases h' with
  | zero =>
    have hc := (children_eq_nil_iff hr hj).mpr rfl
    obtain ⟨nd', hj', hok, _⟩ := hr
    cases hj'.symm.trans hj
    refine ⟨hok, fun hne => absurd hc hne, fun c hmem => ?_⟩
    rw [hc] at hmem
    cases hmem
  | succ h' =>
    obtain ⟨nd', subs, hI⟩ := hr
    cases hI.node.symm.trans hj
    refine ⟨hI.ok, fun _ => ?_, fun c hmem => ?_⟩
    · rw [hI.children, length_map, hI.branch]
    · rw [hI.children] at hmem
      obtain ⟨s, hs, rfl⟩ := mem_map.mp hmem
      exact ⟨s.idx, rfl, rep_lt (hI.child s hs) _ (rep_node (hI.child s hs)).1⟩

end

/-- **An arena that holds entries has the shape of a B-tree.** -/
theorem holds_wellFormed (hm : Holds O m es) : WellFormed O m := by
  rcases hm with ⟨rfl, -⟩ | ⟨h, n, fp, hp⟩
  · refine ⟨nofun, nofun, nofun, .inl ⟨rfl, rfl⟩, ⟨0, ?_⟩, .nil, ?_, ?_, ?_, ?_⟩
    · intro r j k nd hr
      exact absurd hr (by simp only [empty]; omega)
    · intro j hj
      cases hj
    · intro j hj
      cases hj
    · intro p i r hr
      exact absurd hr (by simp only [empty]; omega)
    · intro j k hj
      cases hj with
      | refl => rfl
      | step hc _ => cases hc.lt
  · refine ⟨fun nd hnd => ?_, fun nd hnd => (hp.branch hnd).2.1, fun nd hnd => (hp.branch hnd).2.2,
      .inr ⟨n, hp.root, hp.mem_iff.mp (rep_node hp.rep).1⟩, ⟨h, ?_⟩, ?_, ?_,
      fun j => hp.parent, ?_, fun j k => hp.acyclic⟩
    · have hok := (hp.branch hnd).1
      exact ⟨hok.pos, hok.cap, hok.vals⟩
    · intro r j k nd hr hpath hj hc
      obtain rfl := hp.root_eq hr
      obtain ⟨h', fp', es', he, hr'⟩ := path_rep hpath hp.rep
      have := (children_eq_nil_iff hr' hj).mp hc
      omega
    · rw [hp.root, rep_inorder hp.rep hp.height_lt]
      exact hp.sorted
    · intro j hj
      obtain ⟨_, k, _, _, _, hpath, _⟩ := rep_member hp.rep j (hp.mem_iff.mpr hj)
      exact ⟨n, k, hp.root, hpath⟩
    · intro p i r hr hc
      obtain rfl := hp.root_eq hr
      exact (rep_closed hp.rep hp.nodup (hp.mem_iff.mpr hc.lt) hc).2 rfl

end WellFormed

/-! ## 3. Runs -/

section Run

variable [Inhabited K] [Inhabited V] (O : OrdKey K)

/-- A sequence of `put` calls; `none` if one of them runs out of fuel. -/
def putAll (compare : K → K → Int) (fuel : Nat) : BTreeMap K V → List (K × V) → Option (BTreeMap K V)
  | m, [] => some m
  | m, (key, val) :: ops =>
    match put compare fuel m key val with
    | none => none
    | some (m', _) => putAll compare fuel m' ops

/-- The reference: the same `put`s on a finite map over the classes of equal keys. -/
def refAll (r : Finmap (fun _ : O.Class => V)) (ops : List (K × V)) : Finmap (fun _ : O.Class => V) :=
  ops.foldl (fun r op => r.insert (O.cls op.1) op.2) r

variable {O}

/-- **Every run** is a sequence of `putList`s on the entries. -/
theorem putAll_holds : ∀ (ops : List (K × V)) {m : BTreeMap K V} {es : List (K × V)} {fuel : Nat},
    Holds O m es → es.length + ops.length < fuel + 1 →
    ∃ m', putAll O.compare fuel m ops = some m' ∧ Holds O m' (putLists O es ops)
  | [], m, es, _, hm, _ => ⟨m, rfl, hm⟩
  | (key, val) :: ops, m, es, fuel, hm, hf => by
    rw [length_cons] at hf
    obtain ⟨m', hput, hm'⟩ := put_spec hm (show es.length < fuel by omega) key val
    obtain ⟨-, -, hlen⟩ := putList_spec hm.sorted key val
    obtain ⟨m'', hrun, hm''⟩ := putAll_holds ops hm' (show _ < fuel + 1 by omega)
    exact ⟨m'', by simp only [putAll, hput, hrun], hm''⟩

/-- The reading operations on a map that holds `es`. -/
theorem holds_reads {m : BTreeMap K V} {es : List (K × V)} (hm : Holds O m es) {fuel : Nat}
    (hf : es.length < fuel) :
    (∀ key, get O.compare fuel m key = some ((toMap O.cls es).lookup (O.cls key))) ∧
    (∀ key, containsKey O.compare fuel m key = some ((toMap O.cls es).lookup (O.cls key)).isSome) ∧
    m.size = (toMap O.cls es).keys.card := by
  have hcard := card_toMap hm.sorted.distinct
  rcases hm with ⟨rfl, rfl⟩ | ⟨h, n, fp, hp⟩
  · obtain ⟨fuel, rfl⟩ : ∃ f, fuel = f + 1 := ⟨fuel - 1, by omega⟩
    exact ⟨fun key => rfl, fun key => rfl, rfl⟩
  · have hh := rep_height hp.rep
    refine ⟨fun key => ?_, fun key => ?_, ?_⟩
    · rw [get, hp.root]
      exact getLoop_spec key h fuel n fp es (by omega) hp.rep hp.nodup hp.sorted
    · rw [containsKey, hp.root]
      exact containsLoop_spec key h fuel n fp es (by omega) hp.rep hp.nodup hp.sorted
    · rw [hcard, hp.size]

/-- **`BTreeMap` refines a finite map.** After any sequence of `put`s on the empty map the arena is
    a well-formed B-tree, and `get`, `contains_key` and `size` agree with the finite map the same
    `put`s build, the last value winning. More rounds than there were `put`s always suffice. -/
theorem bTreeMap_refines_finite_map (ops : List (K × V)) {fuel : Nat} (hf : ops.length < fuel) :
    ∃ m, putAll O.compare fuel empty ops = some m ∧ WellFormed O m ∧
      (∀ key, get O.compare fuel m key = some ((refAll O ∅ ops).lookup (O.cls key))) ∧
      (∀ key, containsKey O.compare fuel m key =
        some ((refAll O ∅ ops).lookup (O.cls key)).isSome) ∧
      m.size = (refAll O (∅ : Finmap (fun _ : O.Class => V)) ops).keys.card := by
  obtain ⟨m, hrun, hm⟩ := putAll_holds ops (holds_empty (O := O))
    (show ([] : List (K × V)).length + ops.length < fuel + 1 by simp only [length_nil]; omega)
  obtain ⟨-, hmap, hlen⟩ := putLists_spec ops (.nil : SortedKeys O ([] : List (K × V)))
  simp only [length_nil, zero_add] at hlen
  obtain ⟨hget, hcon, hsize⟩ := holds_reads hm (show (putLists O [] ops).length < fuel by omega)
  rw [hmap] at hget hcon hsize
  exact ⟨m, hrun, holds_wellFormed hm, hget, hcon, hsize⟩

end Run

/-- The order of `Int` keys, as a difference. -/
def intOrd : OrdKey Int where
  compare a b := a - b
  flip a b := by constructor <;> intro h <;> omega
  le_trans a b c h h' := by omega

/-- Eight `put`s, one of them an overwrite, which split the root and later a child. -/
theorem bTreeMap_refines_finite_map_splits :
    ∃ m : BTreeMap Int Int,
      putAll intOrd.compare 9 empty
        [(5, 1), (3, 2), (9, 3), (1, 4), (7, 5), (8, 6), (3, 7), (10, 8)] = some m ∧
      WellFormed intOrd m ∧ get intOrd.compare 9 m 3 = some (some 7) ∧ m.size = 7 := by
  obtain ⟨m, hrun, hw, hget, -, hsize⟩ := bTreeMap_refines_finite_map (O := intOrd)
    [(5, (1 : Int)), (3, 2), (9, 3), (1, 4), (7, 5), (8, 6), (3, 7), (10, 8)]
    (show 8 < 9 by decide)
  exact ⟨m, hrun, hw, (hget 3).trans rfl, hsize.trans rfl⟩

end Vyb.Collections.BTreeMap
