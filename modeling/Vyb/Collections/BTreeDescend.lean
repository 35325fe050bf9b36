/-
  Subject:   The loops of `BTreeMap`: the splitting descent of `put`, `get` and `contains_key`.

  * `splitChild_spec` -- splitting a full child keeps the contents and leaves two children with
    one key each around the median;
  * **`descend_spec`** -- from a node with room the descent does `putList` on the contents, and
    counts the entry it added; `h + 1` rounds suffice at height `h`;
  * **`put_spec`** -- the same for `put`, the empty map and the full root included;
  * **`getLoop_spec`**, **`containsLoop_spec`** -- the two reading loops look the key up.
-/
import Vyb.Collections.BTreeRep

namespace Vyb.Collections.BTreeMap

open Lib List Vec Option Nat

universe u v

variable {K : Type u} {V : Type v}

section Inner

variable {nodes nodes' : Vec (BTreeNode K V)} {h n : Nat} {fp : List Nat} {es : List (K × V)}
  {nd : BTreeNode K V} {A B : List (Sub K V)} {s : Sub K V}
  {R : Nat → List Nat → List (K × V) → Prop}

section

variable (hI : IsInner R nodes n nd (A ++ s :: B) fp es)
include hI

theorem IsInner.fp_open :
    fp = (n :: A.flatMap (·.fp)) ++ (s.fp ++ B.flatMap (·.fp)) := by
  rw [hI.fp_eq]
  simp

/-- The siblings of a child share no index with it. -/
theorem IsInner.sibling_notMem (hnd : fp.Nodup) {t : Sub K V}
    (ht : t ∈ A ∨ t ∈ B) {j : Nat} (hj : j ∈ t.fp) : j ∉ s.fp := by
  rw [hI.fp_open, nodup_append, nodup_append] at hnd
  obtain ⟨_, ⟨_, _, hsB⟩, hA⟩ := hnd
  intro hjs
  rcases ht with ht | ht
  · have hja : j ∈ n :: A.flatMap (·.fp) :=
      mem_cons_of_mem _ (mem_flatMap.mpr ⟨t, ht, hj⟩)
    exact hA j hja j (mem_append_left _ hjs) rfl
  · exact hsB j hjs j (mem_flatMap.mpr ⟨t, ht, hj⟩) rfl

theorem IsInner.child_nodup (hnd : fp.Nodup) :
    s.fp.Nodup := by
  rw [hI.fp_open, nodup_append, nodup_append] at hnd
  exact hnd.2.1.1

end

theorem mem_open {t : Sub K V} (ht : t ∈ A ∨ t ∈ B) : t ∈ A ++ s :: B := by
  rcases ht with ht | ht
  · exact mem_append_left _ ht
  · exact mem_append_right _ (mem_cons_of_mem _ ht)

/-- **A grown child grows its parent.** -/
theorem IsInner.replace_child (hI : IsInner (Rep nodes h) nodes n nd (A ++ s :: B) fp es) (hnd : fp.Nodup)
    {fp' : List Nat} {es' : List (K × V)} (hg : Grown nodes nodes' s.fp fp') (hr : Rep nodes' h s.idx fp' es') :
    ∃ fp'', IsInner (Rep nodes' h) nodes' n nd (A ++ ⟨s.idx, fp', es'⟩ :: B) fp''
        (weave (A.map (·.es) ++ es' :: B.map (·.es)) (entries nd)) ∧
      Grown nodes nodes' fp fp'' := by
  have hs : s ∈ A ++ s :: B := mem_append_right _ mem_cons_self
  have hlt : n < nodes.length := (List.getElem?_eq_some_iff.mp hI.node).1
  refine ⟨(n :: A.flatMap (·.fp)) ++ (fp' ++ B.flatMap (·.fp)), ⟨?_, hI.ok, ?_, ?_, ?_, ?_, ?_⟩, ?_⟩
  · rw [hg.frame n hlt (hI.notMem_child hnd hs), hI.node]
  · rw [← hI.branch]
    simp
  · rw [hI.children]
    simp
  · intro t ht
    rcases mem_append.mp ht with ht | ht
    · refine rep_frame (fun j hj => hg.frame j ?_ ?_) (hI.child t (mem_open (.inl ht)))
      · exact rep_lt (hI.child t (mem_open (.inl ht))) j hj
      · exact hI.sibling_notMem hnd (.inl ht) hj
    · rcases mem_cons.mp ht with rfl | ht
      · exact hr
      · refine rep_frame (fun j hj => hg.frame j ?_ ?_) (hI.child t (mem_open (.inr ht)))
        · exact rep_lt (hI.child t (mem_open (.inr ht))) j hj
        · exact hI.sibling_notMem hnd (.inr ht) hj
  · simp
  · simp
  · rw [hI.fp_open]
    exact hg.lift _ _

end Inner

/-! ## 1. Splitting a full child -/

variable {es X Y : List (K × V)} {m : BTreeMap K V} {fp : List Nat} {nd : BTreeNode K V}
  {nodes : Vec (BTreeNode K V)} {n h : Nat} {A B : List (Sub K V)} {s : Sub K V}

section SplitChild

/-- The arena after a split: the left half at `c`, the right half appended, the parent at `n`. -/
theorem splitArena_get {c : Nat} (hc : c < nodes.length) (hn : n < nodes.length) (hne : n ≠ c)
    (left right pnode : BTreeNode K V) :
    let nodes' := ((nodes.set (c : Int) left).push right).set (n : Int) pnode
    nodes'.length = nodes.length + 1 ∧ nodes'[c]? = some left ∧
      nodes'[nodes.length]? = some right ∧ nodes'[n]? = some pnode ∧
      ∀ j, j < nodes.length → j ≠ c → j ≠ n → nodes'[j]? = nodes[j]? := by
  simp only [set_natCast, push]
  refine ⟨by simp, ?_, ?_, ?_, fun j hj h1 h2 => ?_⟩
  · rw [getElem?_set_ne hne, getElem?_append_left (by simpa using hc),
      getElem?_set_self hc]
  · rw [getElem?_set_ne (by omega), getElem?_append_right (by simp)]
    simp
  · rw [getElem?_set_self (by simp; omega)]
  · rw [getElem?_set_ne h2.symm, getElem?_append_left (by simpa using hj),
      getElem?_set_ne h1.symm]

variable [Inhabited K] [Inhabited V]

/-- **Splitting the full child at seat `X.length`.** -/
theorem splitChild_spec {full : BTreeNode K V} (hI : IsInner (Rep m.nodes h) m.nodes n nd (A ++ s :: B) fp es)
    (hnd : fp.Nodup) (he : entries nd = X ++ Y) (hA : A.length = X.length) (hcap : nd.keys.length < 3)
    (hfull : m.nodes[s.idx]? = some full) (h3 : full.keys.length = 3) :
    ∃ nodes' nd' mid l r fp', splitChild m n nd X.length = { m with nodes := nodes' } ∧
      IsInner (Rep nodes' h) nodes' n nd' (A ++ l :: r :: B) fp' es ∧
      entries nd' = X ++ mid :: Y ∧ Grown m.nodes nodes' fp fp' ∧
      (∀ t, t = l ∨ t = r → ∃ c, nodes'[t.idx]? = some c ∧ c.keys.length = 1) := by
  have hs : s ∈ A ++ s :: B := mem_append_right _ mem_cons_self
  have hrs := hI.child s hs
  have hcs : s.idx ∈ s.fp := (rep_node hrs).1
  have hnlt : n < m.nodes.length := (List.getElem?_eq_some_iff.mp hI.node).1
  have hne : n ≠ s.idx := fun hc => hI.notMem_child hnd hs (hc ▸ hcs)
  have hch : nd.children = A.map (fun s => (s.idx : Int)) ++
      (s.idx : Int) :: B.map (fun s => (s.idx : Int)) := by
    rw [hI.children, map_append, map_cons]
  have hseat : nd.children.get (X.length : Int) = s.idx := by
    rw [hch]
    exact get_mid _ _ _ (by simpa using hA)
  obtain ⟨left, mid, right, hsp⟩ : ∃ left mid right, splitNode full = (left, mid, right) :=
    ⟨_, _, _, rfl⟩
  obtain ⟨hlen, hatc, hatr, hatn, hat⟩ := splitArena_get (rep_lt hrs _ hcs) hnlt hne left right
    (raise nd X.length mid (m.nodes.length : Int))
  generalize hN : ((m.nodes.set (s.idx : Int) left).push right).set (n : Int)
    (raise nd X.length mid (m.nodes.length : Int)) = nodes' at hlen hatc hatr hatn hat
  have hfr : ∀ j ∈ s.fp, j ≠ s.idx → nodes'[j]? = m.nodes[j]? := fun j hj hjc =>
    hat j (rep_lt hrs j hj) hjc fun hjn => hI.notMem_child hnd hs (hjn ▸ hj)
  obtain ⟨fpl, fpr, esl, esr, hrl, hrr, hes, hperm⟩ := rep_split hrs (hI.child_nodup hnd) hfull h3
    (hatc.trans (by rw [hsp])) (hatr.trans (by rw [hsp])) hfr
  have hokf : NodeOk full := by
    obtain ⟨_, c, hc, hok⟩ := rep_node hrs
    exact (some_inj.mp (hc.symm.trans hfull)) ▸ hok
  obtain ⟨e₀, e₁, e₂, -, -, hlk, -, hrk, -⟩ := splitNode_spec hokf h3
  rw [hsp] at hes hlk hrk
  have hpe : entries (raise nd X.length mid (m.nodes.length : Int)) = X ++ mid :: Y :=
    entries_insertAt hI.ok.vals he mid.1 mid.2
  have hpok := raise_ok hI.ok he mid (m.nodes.length : Int) hcap
  refine ⟨nodes', _, mid, ⟨s.idx, fpl, esl⟩, ⟨m.nodes.length, fpr, esr⟩,
    (n :: A.flatMap (·.fp)) ++ ((fpl ++ fpr) ++ B.flatMap (·.fp)), ?_,
    ⟨hatn, hpok, ?_, ?_, ?_, ?_, ?_⟩, hpe, ⟨?_, ?_, ?_⟩, ?_⟩
  · have hg : m.nodes.get (s.idx : Int) = full := get_eq_of_getElem? hfull
    simp only [splitChild, hseat, hg, hsp, Vec.len, Vec.length_set]
    rw [hN]
  · have h1 := congrArg List.length hpe
    rw [length_entries hpok.vals] at h1
    have h2 := congrArg List.length he
    rw [length_entries hI.ok.vals] at h2
    have h3 := hI.branch
    simp only [length_append, length_cons] at h1 h2 h3 ⊢
    omega
  · have hc := children_raise hch mid (m.nodes.length : Int)
    rw [length_map, hA] at hc
    rw [hc]
    simp
  · intro t ht
    -- a sibling lies outside everything the split wrote
    have hsib : t ∈ A ∨ t ∈ B → Rep nodes' h t.idx t.fp t.es := by
      intro ht
      have hrt := hI.child t (mem_open ht)
      refine rep_frame (fun j hj => hat j (rep_lt hrt j hj) ?_ ?_) hrt
      · rintro rfl
        exact hI.sibling_notMem hnd ht hj hcs
      · rintro rfl
        exact hI.notMem_child hnd (mem_open ht) hj
    rcases mem_append.mp ht with ht | ht
    · exact hsib (.inl ht)
    · rcases mem_cons.mp ht with rfl | ht
      · exact hrl
      · rcases mem_cons.mp ht with rfl | ht
        · exact hrr
        · exact hsib (.inr ht)
  · simp
  · have hw := weave_split_sub esl esr mid (B.map (·.es)) Y (A.map (·.es)) X (by simpa using hA)
    rw [hI.es_eq, he, hpe, map_append, map_cons, hes]
    simpa using hw.symm
  · omega
  · rw [hI.fp_open, hlen, Nat.add_sub_cancel_left, range'_one, append_assoc _ _ [_],
      append_assoc s.fp]
    refine Perm.append_left _ ((hperm.append_right _).trans ?_)
    rw [append_assoc]
    exact Perm.append_left _ perm_append_comm
  · intro j hj hjf
    rw [hI.fp_open] at hjf
    refine hat j hj ?_ ?_
    · rintro rfl
      exact hjf (by simp [hcs])
    · rintro rfl
      exact hjf (by simp)
  · rintro t (rfl | rfl)
    · exact ⟨left, hatc, by rw [hlk]; rfl⟩
    · exact ⟨right, hatr, by rw [hrk]; rfl⟩

end SplitChild

/-! ## 2. The descent of `put` -/

variable {fuel : Nat}

section Descend

variable {O : OrdKey K} {key : K} {val : V}

/-- What a descent from the subtree `n` returns: `putList` on its contents, the size adjusted, and
    nothing touched outside. -/
def Descended (O : OrdKey K) (key : K) (val : V) (m : BTreeMap K V) (h n : Nat) (fp : List Nat)
    (es : List (K × V)) (res : Option (BTreeMap K V × Bool)) : Prop :=
  ∃ m' fp', res = some (m', true) ∧ m'.root = m.root ∧
    m'.size - m.size = (putList O key val es).length - es.length ∧
    Rep m'.nodes h n fp' (putList O key val es) ∧ Grown m.nodes m'.nodes fp fp'

/-- Two ways to cut a sorted list around a key that it does not hold agree. -/
theorem cut_unique {X' Y' : List (K × V)} (h : X ++ Y = X' ++ Y') (hX : ∀ e ∈ X, O.lt e.1 key)
    (hY : ∀ e ∈ Y, O.lt key e.1) (hX' : ∀ e ∈ X', O.lt e.1 key) (hY' : ∀ e ∈ Y', O.lt key e.1) : X = X' := by
  rcases append_eq_append_iff.mp h with ⟨Z, hZ, hZ'⟩ | ⟨Z, hZ, hZ'⟩
  · cases Z with
    | nil => simpa using hZ.symm
    | cons z Z =>
      have h1 := hX' z (by simp [hZ])
      have h2 := hY z (by simp [hZ'])
      exact absurd h1 (O.lt_asymm h2)
  · cases Z with
    | nil => simpa using hZ
    | cons z Z =>
      have h1 := hX z (by simp [hZ])
      have h2 := hY' z (by simp [hZ'])
      exact absurd h1 (O.lt_asymm h2)

theorem sorted_entries (hr : Rep nodes h n fp es) (hn : nodes[n]? = some nd) (hs : SortedKeys O es) :
    SortedKeys O (entries nd) := by
  cases h with
  | zero =>
    obtain ⟨nd₀, hn₀, _, _, _, rfl⟩ := hr
    cases hn₀.symm.trans hn
    exact hs
  | succ h =>
    obtain ⟨nd₀, subs, hI⟩ := hr
    cases hI.node.symm.trans hn
    rw [hI.es_eq] at hs
    exact hs.sublist (weave_sublist (by rw [length_map, length_entries hI.ok.vals, hI.branch]))

theorem descended_overwrite {e : K × V} (hr : Rep m.nodes h n fp es) (hnd : fp.Nodup) (hs : SortedKeys O es)
    (hn : m.nodes[n]? = some nd) (hok : NodeOk nd) (he : entries nd = X ++ e :: Y) (h1 : ¬ O.lt e.1 key)
    (h2 : ¬ O.lt key e.1) : Descended O key val m h n fp es (some (overwrite m n nd X.length val, true)) := by
  obtain ⟨hr', hl⟩ := rep_overwrite hr hnd hs hn hok he h1 h2 val
  refine ⟨_, fp, rfl, rfl, ?_, hr', Grown.set (rep_node hr).1 _⟩
  rw [hl]
  simp [overwrite]

variable {res : Option (BTreeMap K V × Bool)}

/-- What a descent from the child between `X` and `Y` gives for the parent. -/
theorem descended_parent
    (hI : IsInner (Rep m.nodes h) m.nodes n nd (A ++ s :: B) fp es) (hnd : fp.Nodup) (hs : SortedKeys O es)
    (he : entries nd = X ++ Y) (hA : A.length = X.length) (h1 : ∀ e ∈ X, O.lt e.1 key)
    (h2 : ∀ e ∈ Y, O.lt key e.1) (hd : Descended O key val m h s.idx s.fp s.es res) :
    Descended O key val m (h + 1) n fp es res := by
  obtain ⟨m', fp', hres, hroot, hsize, hr, hg⟩ := hd
  obtain ⟨fp'', hI', hg'⟩ := hI.replace_child hnd hg hr
  have hes : es = lefts (A.map (·.es)) X ++ s.es ++ rights Y (B.map (·.es)) := by
    rw [hI.es_eq, he, weave_open hA]
  have hs' := hs
  rw [hes, SortedKeys, pairwise_append, pairwise_append] at hs'
  have hput : putList O key val es =
      lefts (A.map (·.es)) X ++ putList O key val s.es ++ rights Y (B.map (·.es)) := by
    rw [hes, putList_append_gt _ (rights_gt hs'.2.1 h2), putList_append_lt (lefts_lt hs'.1.1 h1)]
  have hw : weave (A.map (·.es) ++ putList O key val s.es :: B.map (·.es)) (entries nd) =
      putList O key val es := by
    rw [hput, he]
    exact weave_split _ _ _ _ _ (by simpa using hA)
  refine ⟨m', fp'', hres, hroot, ?_, ⟨nd, _, hw ▸ hI'⟩, hg'⟩
  rw [hput, hsize, hes]
  simp only [length_append]
  omega

/-- A descent after an update that kept root, size and contents. -/
theorem descended_after {m₁ : BTreeMap K V} {fp₁ : List Nat}
    (hg : Grown m.nodes m₁.nodes fp fp₁) (hroot : m₁.root = m.root) (hsize : m₁.size = m.size)
    (hd : Descended O key val m₁ h n fp₁ es res) : Descended O key val m h n fp es res := by
  obtain ⟨m', fp', hres, hroot', hsize', hr, hg'⟩ := hd
  exact ⟨m', fp', hres, hroot'.trans hroot, hsize ▸ hsize', hr, hg.trans hg'⟩

/-- After a split the key, unless it is the median, belongs right or left of it. -/
theorem split_seat {X' Y' : List (K × V)} {mid : K × V} (h : X ++ mid :: Y = X' ++ Y')
    (hX : ∀ e ∈ X, O.lt e.1 key) (hY : ∀ e ∈ Y, O.lt key e.1) (hX' : ∀ e ∈ X', O.lt e.1 key)
    (hY' : ∀ e ∈ Y', O.lt key e.1) : (X' = X ++ [mid] ∧ Y' = Y) ∨ (X' = X ∧ Y' = mid :: Y) := by
  have hmid : mid ∈ X' ++ Y' := by
    rw [← h]
    simp
  rcases mem_append.mp hmid with hm | hm
  · left
    have hXm : ∀ e ∈ X ++ [mid], O.lt e.1 key := fun e he => by
      rcases mem_append.mp he with he | he
      · exact hX e he
      · rw [mem_singleton.mp he]
        exact hX' mid hm
    have hXe : X ++ [mid] = X' := cut_unique (Y := Y) (by simpa using h) hXm hY hX' hY'
    subst hXe
    refine ⟨rfl, ?_⟩
    simpa using h.symm
  · right
    have hYm : ∀ e ∈ mid :: Y, O.lt key e.1 := fun e he => by
      rcases mem_cons.mp he with rfl | he
      · exact hY' e hm
      · exact hY e he
    have hXe : X = X' := cut_unique h hX hYm hX' hY'
    subst hXe
    exact ⟨rfl, by simpa using h.symm⟩

variable [Inhabited K] [Inhabited V]

/-- A round that steps into a child with room, given what the rest of the descent does. -/
theorem descended_step
    (ih : ∀ (m : BTreeMap K V) (n : Nat) (fp : List Nat) (es : List (K × V)) (nd : BTreeNode K V),
      Rep m.nodes h n fp es → fp.Nodup → SortedKeys O es → m.nodes[n]? = some nd →
      nd.keys.length < 3 → Descended O key val m h n fp es (descend O.compare key val fuel m n))
    {c : BTreeNode K V} (hI : IsInner (Rep m.nodes h) m.nodes n nd (A ++ s :: B) fp es) (hnd : fp.Nodup)
    (hs : SortedKeys O es) (he : entries nd = X ++ Y) (hA : A.length = X.length) (h1 : ∀ e ∈ X, O.lt e.1 key)
    (h2 : ∀ e ∈ Y, O.lt key e.1) (hc : m.nodes[s.idx]? = some c) (hcap : c.keys.length < 3) :
    Descended O key val m (h + 1) n fp es
      (descend O.compare key val fuel m (nd.children.get (X.length : Int))) := by
  have hseat : nd.children.get (X.length : Int) = s.idx := by
    rw [hI.children, map_append, map_cons]
    exact get_mid _ _ _ (by simpa using hA)
  have hs' := hs
  rw [hI.es_eq, he, weave_open hA, SortedKeys, pairwise_append, pairwise_append] at hs'
  rw [hseat]
  exact descended_parent hI hnd hs he hA h1 h2
    (ih m s.idx s.fp s.es c (hI.child s (by simp)) (hI.child_nodup hnd) hs'.1.2.1 hc hcap)

/-- **The descent of `put`** from a node with room. -/
theorem descend_spec : ∀ (h fuel : Nat), h < fuel → ∀ (m : BTreeMap K V) (n : Nat) (fp : List Nat)
    (es : List (K × V)) (nd : BTreeNode K V), Rep m.nodes h n fp es → fp.Nodup →
    SortedKeys O es → m.nodes[n]? = some nd → nd.keys.length < 3 →
    Descended O key val m h n fp es (descend O.compare key val fuel m n)
  | _, 0, hf => nomatch hf
  | h, fuel + 1, hf => by
    intro m n fp es nd hr hnd hs hn hcap
    obtain ⟨-, nd₀, hn₀, hok⟩ := rep_node hr
    obtain rfl : nd₀ = nd := some_inj.mp (hn₀.symm.trans hn)
    obtain ⟨X, Y, he, hX, h1, hcase⟩ := search_cases O hok.vals (sorted_entries hr hn hs) key
    have hget : m.nodes.get (n : Int) = nd₀ := get_eq_of_getElem? hn
    simp only [descend, hget]
    rw [← hX] at hcase ⊢
    rcases hcase with ⟨hex, e, Y', rfl, he1, he2⟩ | ⟨hex, h2⟩
    · simp only [hex, ↓reduceIte]
      exact descended_overwrite hr hnd hs hn hok he he1 he2
    · simp only [hex, Bool.false_eq_true, ↓reduceIte]
      cases h with
      | zero =>
        have hc : nd₀.children = [] := (children_eq_nil_iff hr hn).mpr rfl
        simp only [hc, Vec.len, length_nil, cast_zero, ↓reduceIte]
        obtain ⟨hr', hl⟩ := rep_insertLeaf hr hn hcap he h1 h2 val
        refine ⟨_, fp, rfl, rfl, ?_, hr', Grown.set (rep_node hr).1 _⟩
        rw [hl]
        simp [insertLeaf]
      | succ h =>
        have ih := descend_spec h fuel (by omega)
        have hc : ¬ nd₀.children.len = 0 := by
          rw [Vec.len, Int.natCast_eq_zero, length_eq_zero_iff, children_eq_nil_iff hr hn]
          exact succ_ne_zero h
        have hlt := rep_lt hr
        obtain ⟨nd₁, subs, hI⟩ := hr
        cases hI.node.symm.trans hn
        obtain ⟨A, s, B, rfl, hA, -, hseat⟩ := hI.open_at he
        obtain ⟨-, c, hcn, hcok⟩ := rep_node (hI.child s (by simp))
        have hcget : m.nodes.get (s.idx : Int) = c := get_eq_of_getElem? hcn
        have hcap3 := hcok.cap
        by_cases h3 : c.keys.length = 3
        · -- the child is full: split it, search again, and go on in the half that is met
          have h3' : c.keys.len = 3 := by
            rw [Vec.len, h3]
            rfl
          obtain ⟨nodes', nd', mid, l, r, fp', hsp, hI', he', hg, hone⟩ :=
            splitChild_spec hI hnd he hA hcap hcn h3
          have hr' : Rep nodes' (h + 1) n fp' es := ⟨_, _, hI'⟩
          have hnd' : fp'.Nodup := hg.nodup hnd hlt
          have hget' : Vec.get nodes' (n : Int) = nd' := get_eq_of_getElem? hI'.node
          obtain ⟨X', Y', he'', hX', h1', hcase'⟩ :=
            search_cases O hI'.ok.vals (sorted_entries hr' hI'.node hs) key
          simp only [hc, hseat, hcget, h3', hsp, hget', ↓reduceIte]
          refine descended_after (show Grown m.nodes (BTreeMap.mk nodes' m.root m.size).nodes fp fp' from hg)
            rfl rfl ?_
          rw [← hX'] at hcase' ⊢
          rcases hcase' with ⟨hex', e, Y'', rfl, he1, he2⟩ | ⟨hex', h2'⟩
          · simp only [hex', ↓reduceIte]
            exact descended_overwrite hr' hnd' hs hI'.node hI'.ok he'' he1 he2
          · simp only [hex', Bool.false_eq_true, ↓reduceIte]
            rcases split_seat (he'.symm.trans he'') h1 h2 h1' h2' with ⟨rfl, rfl⟩ | ⟨rfl, rfl⟩
            · obtain ⟨c', hc', hc1⟩ := hone r (.inr rfl)
              have hI'' : IsInner (Rep nodes' h) nodes' n nd' ((A ++ [l]) ++ r :: B) fp' es := by
                simpa using hI'
              exact descended_step ih (m := ⟨nodes', m.root, m.size⟩) hI'' hnd' hs he''
                (by simpa using hA) h1' h2' hc' (by omega)
            · obtain ⟨c', hc', hc1⟩ := hone l (.inl rfl)
              exact descended_step ih (m := ⟨nodes', m.root, m.size⟩) hI' hnd' hs he'' hA h1' h2'
                hc' (by omega)
        · have h3' : ¬ c.keys.len = 3 := by
            rw [Vec.len]
            omega
          simp only [hc, hseat, hcget, h3', ↓reduceIte]
          rw [← hseat]
          exact descended_step ih hI hnd hs he hA h1 h2 hcn (by omega)

end Descend

/-! ## 3. The whole map -/

section Put

variable {O : OrdKey K}

/-- The arena of a non-empty map is one tree at `root` that uses every index. -/
structure Planted (O : OrdKey K) (m : BTreeMap K V) (h n : Nat) (fp : List Nat)
    (es : List (K × V)) : Prop where
  root : m.root = n
  rep : Rep m.nodes h n fp es
  all : fp.Perm (List.range m.nodes.length)
  sorted : SortedKeys O es
  size : m.size = es.length

/-- The map holds the sorted entries `es`. -/
def Holds (O : OrdKey K) (m : BTreeMap K V) (es : List (K × V)) : Prop :=
  (m = empty ∧ es = []) ∨ ∃ h n fp, Planted O m h n fp es

theorem holds_empty : Holds O (empty : BTreeMap K V) [] := .inl ⟨rfl, rfl⟩

theorem Holds.sorted (hm : Holds O m es) : SortedKeys O es := by
  rcases hm with ⟨-, rfl⟩ | ⟨h, n, fp, hp⟩
  · exact .nil
  · exact hp.sorted

theorem Planted.nodup (hp : Planted O m h n fp es) : fp.Nodup :=
  hp.all.nodup_iff.mpr nodup_range

/-- The arena after the root was split: the halves at `n` and at the end, the new root last. -/
theorem growArena_get (hn : n < nodes.length) (left right top : BTreeNode K V) :
    let nodes' := ((nodes.set (n : Int) left).push right).push top
    nodes'.length = nodes.length + 2 ∧ nodes'[n]? = some left ∧
      nodes'[nodes.length]? = some right ∧ nodes'[nodes.length + 1]? = some top ∧
      ∀ j, j < nodes.length → j ≠ n → nodes'[j]? = nodes[j]? := by
  simp only [set_natCast, push, append_assoc, singleton_append]
  refine ⟨by simp, ?_, ?_, ?_, fun j hj h1 => ?_⟩
  · rw [getElem?_append_left (by simpa using hn), getElem?_set_self hn]
  · rw [getElem?_append_right (by simp)]
    simp
  · rw [getElem?_append_right (by simp)]
    simp
  · rw [getElem?_append_left (by simpa using hj), getElem?_set_ne h1.symm]

variable [Inhabited K] [Inhabited V]

/-- **A full root grows**: the same contents, one level higher, and a root with one key. -/
theorem growRoot_spec {full : BTreeNode K V} (hp : Planted O m h n fp es) (hn : m.nodes[n]? = some full)
    (h3 : full.keys.length = 3) :
    ∃ n' fp' nd, Planted O (growRoot m) (h + 1) n' fp' es ∧ (growRoot m).nodes[n']? = some nd ∧
      nd.keys.length = 1 := by
  obtain ⟨left, mid, right, hsp⟩ : ∃ left mid right, splitNode full = (left, mid, right) :=
    ⟨_, _, _, rfl⟩
  obtain ⟨hlen, hatn, hatr, hatt, hat⟩ := growArena_get (List.getElem?_eq_some_iff.mp hn).1 left right
    { keys := [mid.1], vals := [mid.2], children := [(n : Int), (m.nodes.length : Int)] }
  generalize hN : ((m.nodes.set (n : Int) left).push right).push
    { keys := [mid.1], vals := [mid.2], children := [(n : Int), (m.nodes.length : Int)] } = nodes'
    at hlen hatn hatr hatt hat
  have hgrow : growRoot m = ⟨nodes', ((m.nodes.length + 1 : Nat) : Int), m.size⟩ := by
    have hg : m.nodes.get (n : Int) = full := get_eq_of_getElem? hn
    simp only [growRoot, hp.root, hg, hsp, Vec.len, Vec.length_set]
    rw [hN, hlen]
    congr 1
    omega
  obtain ⟨fpl, fpr, esl, esr, hrl, hrr, hes, hperm⟩ := rep_split hp.rep hp.nodup hn h3
    (hatn.trans (by rw [hsp])) (hatr.trans (by rw [hsp]))
    (fun j hj => hat j (rep_lt hp.rep j hj))
  rw [hsp] at hes
  rw [hgrow]
  refine ⟨m.nodes.length + 1, (m.nodes.length + 1) :: (fpl ++ fpr), _,
    ⟨rfl, ⟨_, [⟨n, fpl, esl⟩, ⟨m.nodes.length, fpr, esr⟩], hatt, ?_, rfl, rfl, ?_, ?_, ?_⟩, ?_,
      hp.sorted, hp.size⟩, hatt, rfl⟩
  · exact ⟨rfl, by simp, by simp⟩
  · intro s hs
    rcases mem_cons.mp hs with rfl | hs
    · exact hrl
    · rw [mem_singleton.mp hs]
      exact hrr
  · simp
  · rw [hes]
    simp [weave, rights, entries]
  · rw [hlen, range_succ, range_succ]
    have h1 : (fpl ++ fpr).Perm (range m.nodes.length ++ [m.nodes.length]) := hperm.trans (hp.all.append_right _)
    exact (Perm.cons _ h1).trans (perm_append_singleton _ _).symm

theorem descend_planted (hp : Planted O m h n fp es) (hn : m.nodes[n]? = some nd) (hcap : nd.keys.length < 3)
    (hf : h < fuel) (key : K) (val : V) :
    ∃ m', descend O.compare key val fuel m m.root = some (m', true) ∧
      Holds O m' (putList O key val es) := by
  obtain ⟨m', fp', hd, hroot, hsize, hr, hg⟩ :=
    descend_spec (O := O) h fuel hf m n fp es nd hp.rep hp.nodup hp.sorted hn hcap
  have hsz := hp.size
  exact ⟨m', hp.root ▸ hd, .inr ⟨h, n, fp', hroot.trans hp.root, hr, hg.range hp.all,
    (putList_spec hp.sorted key val).1, by omega⟩⟩

/-- **`put`**: the entries become `putList`, whatever the map held; it answers `true`, and more
    rounds than the map has entries suffice. -/
theorem put_spec (hm : Holds O m es) (hf : es.length < fuel) (key : K) (val : V) :
    ∃ m', put O.compare fuel m key val = some (m', true) ∧ Holds O m' (putList O key val es) := by
  rcases hm with ⟨rfl, rfl⟩ | ⟨h, n, fp, hp⟩
  · refine ⟨_, rfl, .inr ⟨0, 0, [0], rfl, ⟨_, rfl, ?_, rfl, rfl, rfl⟩, .refl _, ?_, rfl⟩⟩
    · exact ⟨rfl, by simp, by simp⟩
    · exact pairwise_singleton _ _
  · obtain ⟨-, nd, hn, hok⟩ := rep_node hp.rep
    have hh := rep_height hp.rep
    have hcap := hok.cap
    have hroot : ¬ m.root = -1 := by
      rw [hp.root]
      omega
    have hget : m.nodes.get m.root = nd := by
      rw [hp.root]
      exact get_eq_of_getElem? hn
    simp only [put, hroot, hget, ↓reduceIte]
    by_cases h3 : nd.keys.length = 3
    · have h3' : nd.keys.len = 3 := by
        rw [Vec.len, h3]
        rfl
      obtain ⟨n', fp', nd', hp', hn', h1⟩ := growRoot_spec hp hn h3
      simp only [h3', ↓reduceIte]
      exact descend_planted hp' hn' (by omega) (by omega) key val
    · have h3' : ¬ nd.keys.len = 3 := by
        rw [Vec.len]
        omega
      simp only [h3', ↓reduceIte]
      exact descend_planted hp hn (by omega) (by omega) key val

end Put

/-! ## 4. Reading -/

section Read

variable [Inhabited K] [Inhabited V] {O : OrdKey K}

/-- One round of a reading loop at a node: the key is here, it is absent, or it has to be looked up
    in one child. -/
theorem read_cases (hr : Rep nodes h n fp es) (hnd : fp.Nodup) (hs : SortedKeys O es)
    (hn : nodes[n]? = some nd) (key : K) :
    (exactAt O.compare nd key (search O.compare nd key) = true ∧
      (toMap O.cls es).lookup (O.cls key) = some (nd.vals.get (search O.compare nd key : Int))) ∨
    (exactAt O.compare nd key (search O.compare nd key) = false ∧ nd.children.len = 0 ∧
      (toMap O.cls es).lookup (O.cls key) = none) ∨
    (exactAt O.compare nd key (search O.compare nd key) = false ∧ ¬ nd.children.len = 0 ∧
      ∃ (h' : Nat) (s : Sub K V), h = h' + 1 ∧ nd.children.get (search O.compare nd key : Int) = (s.idx : Int) ∧
        Rep nodes h' s.idx s.fp s.es ∧ s.fp.Nodup ∧ SortedKeys O s.es ∧
        (toMap O.cls es).lookup (O.cls key) = (toMap O.cls s.es).lookup (O.cls key)) := by
  obtain ⟨-, nd₀, hn₀, hok⟩ := rep_node hr
  obtain rfl : nd₀ = nd := some_inj.mp (hn₀.symm.trans hn)
  obtain ⟨X, Y, he, hX, h1, hcase⟩ := search_cases O hok.vals (sorted_entries hr hn hs) key
  rw [← hX] at hcase ⊢
  rcases hcase with ⟨hex, e, Y', rfl, he1, he2⟩ | ⟨hex, h2⟩
  · refine .inl ⟨hex, ?_⟩
    obtain ⟨pre, post, rfl, -⟩ := rep_replace_entry hr hnd hn hok rfl rfl he he
    rw [SortedKeys, pairwise_append] at hs
    have hpre : ∀ a ∈ pre, O.cls a.1 ≠ O.cls key := fun a ha =>
      O.cls_ne_of_lt (O.lt_of_lt_of_not_lt (hs.2.2 a ha e mem_cons_self) he2)
    rw [vals_get hok.vals he]
    exact lookup_toMap_mid O.cls (O.cls_eq.mpr ⟨he1, he2⟩) hpre
  · right
    have hc := children_eq_nil_iff hr hn
    rw [← length_eq_zero_iff, ← Int.natCast_eq_zero] at hc
    cases h with
    | zero =>
      refine .inl ⟨hex, hc.mpr rfl, ?_⟩
      obtain ⟨nd₁, hn₁, -, -, -, rfl⟩ := hr
      cases hn₁.symm.trans hn
      rw [he]
      refine lookup_toMap_of_forall_ne O.cls fun e hm => ?_
      rcases mem_append.mp hm with hm | hm
      · exact O.cls_ne_of_lt (h1 e hm)
      · exact O.cls_ne_of_gt (h2 e hm)
    | succ h =>
      refine .inr ⟨hex, hc.not.mpr (succ_ne_zero h), h, ?_⟩
      obtain ⟨nd₁, subs, hI⟩ := hr
      cases hI.node.symm.trans hn
      obtain ⟨A, s, B, rfl, hA, -, hseat⟩ := hI.open_at he
      have hes : es = lefts (A.map (·.es)) X ++ s.es ++ rights Y (B.map (·.es)) := by
        rw [hI.es_eq, he, weave_open hA]
      rw [hes, SortedKeys, pairwise_append, pairwise_append] at hs
      refine ⟨s, rfl, hseat, hI.child s (by simp), hI.child_nodup hnd, hs.1.2.1, ?_⟩
      rw [hes]
      exact lookup_between (lefts_lt hs.1.1 h1) (rights_gt hs.2.1 h2)

/-- **`get` looks the key up.** -/
theorem getLoop_spec {m : BTreeMap K V} (key : K) : ∀ (h fuel n : Nat) (fp : List Nat)
    (es : List (K × V)), h < fuel → Rep m.nodes h n fp es → fp.Nodup → SortedKeys O es →
    getLoop O.compare m key fuel n = some ((toMap O.cls es).lookup (O.cls key))
  | _, 0, _, _, _, hf, _, _, _ => nomatch hf
  | h, fuel + 1, n, fp, es, hf, hr, hnd, hs => by
    obtain ⟨-, nd, hn, -⟩ := rep_node hr
    have hget : m.nodes.get (n : Int) = nd := get_eq_of_getElem? hn
    have hlt : ¬ m.nodes.len ≤ (n : Int) := by
      have := (List.getElem?_eq_some_iff.mp hn).1
      rw [Vec.len]
      omega
    have hn1 : (n : Int) ≠ -1 := by omega
    simp only [getLoop, hget, hlt, hn1, ne_eq, not_false_eq_true, ↓reduceIte]
    rcases read_cases hr hnd hs hn key with ⟨hex, hl⟩ | ⟨hex, hc, hl⟩ | ⟨hex, hc, h', s, rfl, hseat, hrs, hnds, hss, hl⟩
    · simp only [hex, ↓reduceIte, hl]
    · simp only [hex, hc, Bool.false_eq_true, ↓reduceIte, hl]
    · simp only [hex, hc, hseat, Bool.false_eq_true, ↓reduceIte, hl]
      exact getLoop_spec key h' fuel s.idx s.fp s.es (by omega) hrs hnds hss

/-- `contains_key` takes the way of `get`, whose guards are nested. -/
theorem containsLoop_eq {m : BTreeMap K V} (compare : K → K → Int) (key : K) : ∀ (fuel : Nat) (cur : Int),
    containsLoop compare m key fuel cur = (getLoop compare m key fuel cur).map Option.isSome
  | 0, _ => rfl
  | fuel + 1, cur => by
    have ih := containsLoop_eq (m := m) compare key fuel
    rw [containsLoop, getLoop]
    grind

/-- **`contains_key` says whether the key is there.** -/
theorem containsLoop_spec {m : BTreeMap K V} (key : K) (h fuel n : Nat) (fp : List Nat)
    (es : List (K × V)) (hf : h < fuel) (hr : Rep m.nodes h n fp es) (hnd : fp.Nodup) (hs : SortedKeys O es) :
    containsLoop O.compare m key fuel n = some ((toMap O.cls es).lookup (O.cls key)).isSome := by
  rw [containsLoop_eq, getLoop_spec key h fuel n fp es hf hr hnd hs, map_some]

end Read

end Vyb.Collections.BTreeMap
