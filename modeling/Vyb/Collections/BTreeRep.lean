/-
  Subject:   The arena of a `BTreeMap` as a tree: what it stores and what a descent does to it.

  `Rep nodes h n fp es` says that the arena holds, at index `n`, a subtree of height `h` that
  occupies exactly the indices `fp` and whose in-order contents are `es`. The height in the
  recursion puts all leaves at one depth; `fp.Nodup` says that nothing is shared.

  * `rep_frame` -- a subtree depends on its own indices only;
  * `Grown` -- an update that touches a footprint and appends fresh nodes to it;
  * `rep_overwrite`, `rep_insertLeaf`, `rep_split` -- the three local changes.
-/
import Vyb.Collections.BTreeMap

namespace Vyb.Collections.BTreeMap

open Lib List Vec

universe u v

variable {K : Type u} {V : Type v}

/-! ## 1. Subtrees -/

/-- A child as its parent sees it: index, footprint, contents. -/
structure Sub (K : Type u) (V : Type v) where
  idx : Nat
  fp : List Nat
  es : List (K × V)

/-- The node `nd` at `n` with the subtrees `subs`, each of which satisfies `R`. -/
structure IsInner (R : Nat → List Nat → List (K × V) → Prop) (nodes : Vec (BTreeNode K V)) (n : Nat)
    (nd : BTreeNode K V) (subs : List (Sub K V)) (fp : List Nat) (es : List (K × V)) : Prop where
  node : nodes[n]? = some nd
  ok : NodeOk nd
  branch : subs.length = nd.keys.length + 1
  children : nd.children = subs.map fun s => (s.idx : Int)
  child : ∀ s ∈ subs, R s.idx s.fp s.es
  fp_eq : fp = n :: subs.flatMap (·.fp)
  es_eq : es = weave (subs.map (·.es)) (entries nd)

/-- The subtree of height `h` at index `n`, its footprint and its in-order contents. -/
def Rep (nodes : Vec (BTreeNode K V)) : Nat → Nat → List Nat → List (K × V) → Prop
  | 0, n, fp, es =>
    ∃ nd, nodes[n]? = some nd ∧ NodeOk nd ∧ nd.children = [] ∧ fp = [n] ∧ es = entries nd
  | h + 1, n, fp, es => ∃ nd subs, IsInner (Rep nodes h) nodes n nd subs fp es

variable {R : Nat → List Nat → List (K × V) → Prop} {X Y : List (K × V)} {subs : List (Sub K V)}

section Rep

variable {nodes nodes' : Vec (BTreeNode K V)}

theorem rep_node : ∀ {h n : Nat} {fp : List Nat} {es : List (K × V)}, Rep nodes h n fp es →
    n ∈ fp ∧ ∃ nd, nodes[n]? = some nd ∧ NodeOk nd
  | 0, _, _, _, ⟨nd, hn, hok, _, hfp, _⟩ => ⟨by simp [hfp], nd, hn, hok⟩
  | _ + 1, _, _, _, ⟨nd, _, hI⟩ => ⟨by simp [hI.fp_eq], nd, hI.node, hI.ok⟩

theorem rep_lt : ∀ {h n : Nat} {fp : List Nat} {es : List (K × V)}, Rep nodes h n fp es →
    ∀ j ∈ fp, j < nodes.length
  | 0, n, fp, es, ⟨nd, hn, _, _, hfp, _⟩, j, hj => by
    rw [hfp, mem_singleton] at hj
    subst hj
    exact (List.getElem?_eq_some_iff.mp hn).1
  | h + 1, n, fp, es, ⟨nd, subs, hI⟩, j, hj => by
    rw [hI.fp_eq] at hj
    rcases mem_cons.mp hj with rfl | hj
    · exact (List.getElem?_eq_some_iff.mp hI.node).1
    · obtain ⟨s, hs, hjs⟩ := mem_flatMap.mp hj
      exact rep_lt (hI.child s hs) j hjs

/-- **A subtree depends on its own indices only.** -/
theorem rep_frame : ∀ {h n : Nat} {fp : List Nat} {es : List (K × V)},
    (∀ j ∈ fp, nodes'[j]? = nodes[j]?) → Rep nodes h n fp es → Rep nodes' h n fp es
  | 0, n, fp, es, hf, ⟨nd, hn, hok, hc, hfp, he⟩ =>
    ⟨nd, (hf n (by simp [hfp])).trans hn, hok, hc, hfp, he⟩
  | h + 1, n, fp, es, hf, ⟨nd, subs, hI⟩ => by
    refine ⟨nd, subs, (hf n (by simp [hI.fp_eq])).trans hI.node, hI.ok, hI.branch, hI.children,
      fun s hs => rep_frame (fun j hj => hf j ?_) (hI.child s hs), hI.fp_eq, hI.es_eq⟩
    rw [hI.fp_eq]
    exact mem_cons_of_mem _ (mem_flatMap.mpr ⟨s, hs, hj⟩)

/-- A subtree of height `h` holds at least `h + 1` entries. -/
theorem rep_height : ∀ {h n : Nat} {fp : List Nat} {es : List (K × V)}, Rep nodes h n fp es →
    h + 1 ≤ es.length
  | 0, n, fp, es, ⟨nd, _, hok, _, _, he⟩ => by
    rw [he, length_entries hok.vals]
    exact hok.pos
  | h + 1, n, fp, es, ⟨nd, subs, hI⟩ => by
    have hpos := hI.ok.pos
    have hb := hI.branch
    obtain ⟨s, hs⟩ := exists_mem_of_length_pos (l := subs) (by omega)
    have ih := rep_height (hI.child s hs)
    have hl : (subs.map (·.es)).length = (entries nd).length + 1 := by
      rw [length_map, length_entries hI.ok.vals, hb]
    have hw := length_weave_ge hl (mem_map_of_mem hs)
    rw [length_entries hI.ok.vals, ← hI.es_eq] at hw
    omega

variable {es : List (K × V)} {nd : BTreeNode K V} {fp : List Nat} {n : Nat}

theorem children_eq_nil_iff {h : Nat} (hr : Rep nodes h n fp es) (hn : nodes[n]? = some nd) :
    nd.children = [] ↔ h = 0 := by
  cases h with
  | zero =>
    obtain ⟨nd', hn', _, hc, _⟩ := hr
    rw [hn, Option.some_inj] at hn'
    subst hn'
    simp [hc]
  | succ h =>
    obtain ⟨nd', subs, hI⟩ := hr
    have hnd : nd' = nd := Option.some_inj.mp (hI.node.symm.trans hn)
    subst hnd
    have hb := hI.branch
    rw [hI.children]
    simp only [map_eq_nil_iff, Nat.add_eq_zero_iff, one_ne_zero, and_false, iff_false]
    rintro rfl
    simp at hb

theorem IsInner.children_ne_zero (hI : IsInner R nodes n nd subs fp es) : ¬ nd.children.length = 0 := by
  rw [hI.children, length_map, hI.branch]
  exact Nat.succ_ne_zero _

/-- An inner node opened at the child seat after the entries `X`. -/
theorem IsInner.open_at (hI : IsInner R nodes n nd subs fp es) (he : entries nd = X ++ Y) :
    ∃ A s B, subs = A ++ s :: B ∧ A.length = X.length ∧ B.length = Y.length ∧
      nd.children.get (X.length : Int) = s.idx := by
  have hlen : subs.length = X.length + Y.length + 1 := by
    rw [hI.branch, ← length_entries hI.ok.vals, he, length_append]
  have hX : X.length < subs.length := by omega
  refine ⟨subs.take X.length, subs[X.length], subs.drop (X.length + 1), ?_, ?_, ?_, ?_⟩
  · rw [← drop_eq_getElem_cons hX, take_append_drop]
  · rw [length_take]
    omega
  · rw [length_drop]
    omega
  · rw [hI.children, get_of_lt _ (by simpa using hX)]
    simp

theorem weave_open {A B : List (Sub K V)} (hA : A.length = X.length) (s : Sub K V) :
    weave ((A ++ s :: B).map (·.es)) (X ++ Y) =
      lefts (A.map (·.es)) X ++ s.es ++ rights Y (B.map (·.es)) := by
  rw [map_append, map_cons]
  exact weave_split s.es (B.map (·.es)) Y (A.map (·.es)) X (by simpa using hA)

end Rep

/-! ## 2. Updates that grow a footprint -/

/-- From `nodes` to `nodes'` only indices of `fp` are overwritten, and `fp'` is `fp` with the
    nodes that were appended. -/
structure Grown (nodes nodes' : Vec (BTreeNode K V)) (fp fp' : List Nat) : Prop where
  le : nodes.length ≤ nodes'.length
  fresh : fp'.Perm (fp ++ List.range' nodes.length (nodes'.length - nodes.length))
  frame : ∀ j, j < nodes.length → j ∉ fp → nodes'[j]? = nodes[j]?

namespace Grown

variable {nodes nodes₁ nodes₂ : Vec (BTreeNode K V)} {fp fp₁ fp₂ : List Nat}

theorem mem_iff (g : Grown nodes nodes₁ fp fp₁) {j : Nat} :
    j ∈ fp₁ ↔ j ∈ fp ∨ (nodes.length ≤ j ∧ j < nodes₁.length) := by
  rw [g.fresh.mem_iff, mem_append, mem_range'_1]
  constructor
  all_goals
    rintro (h | h)
    · exact .inl h
    · exact .inr ⟨h.1, by omega⟩

theorem nodup (g : Grown nodes nodes₁ fp fp₁) (hn : fp.Nodup) (hlt : ∀ j ∈ fp, j < nodes.length) :
    fp₁.Nodup := by
  rw [g.fresh.nodup_iff, nodup_append]
  refine ⟨hn, nodup_range' _, fun a ha b hb => ?_⟩
  have h1 := hlt a ha
  have h2 := (mem_range'_1.mp hb).1
  omega

theorem set {n : Nat} (hn : n ∈ fp) (nd : BTreeNode K V) : Grown nodes (nodes.set (n : Int) nd) fp fp where
  le := le_of_eq (length_set _ _ _).symm
  fresh := by simp
  frame j _ hj := by
    rw [set_natCast, getElem?_set_ne]
    rintro rfl
    exact hj hn

variable (g : Grown nodes nodes₁ fp fp₁)
include g

theorem trans (g' : Grown nodes₁ nodes₂ fp₁ fp₂) :
    Grown nodes nodes₂ fp fp₂ where
  le := g.le.trans g'.le
  fresh := by
    have hle := g.le
    have hle' := g'.le
    have h := g'.fresh.trans (g.fresh.append_right _)
    have e : range' nodes.length (nodes₁.length - nodes.length) ++
        range' nodes₁.length (nodes₂.length - nodes₁.length) =
        range' nodes.length (nodes₂.length - nodes.length) := by
      have e₁ : nodes₁.length = nodes.length + (nodes₁.length - nodes.length) := by omega
      nth_rewrite 2 [e₁]
      rw [range'_append_1]
      congr 1
      omega
    rw [append_assoc, e] at h
    exact h
  frame j hj hjf := by
    have hle := g.le
    have h1 : j ∉ fp₁ := by
      rw [g.mem_iff]
      rintro (h | h)
      · exact hjf h
      · omega
    rw [g'.frame j (by omega) h1, g.frame j hj hjf]

/-- A footprint that used the whole arena still does. -/
theorem range (h : fp.Perm (List.range nodes.length)) :
    fp₁.Perm (List.range nodes₁.length) := by
  have h1 := g.fresh.trans (h.append_right _)
  have e := range'_append_1 (s := 0) (m := nodes.length) (n := nodes₁.length - nodes.length)
  rw [zero_add, Nat.add_sub_cancel' g.le, ← range_eq_range', ← range_eq_range'] at e
  rwa [e] at h1

/-- An update of a part of a footprint is one of the whole. -/
theorem lift (a b : List Nat) :
    Grown nodes nodes₁ (a ++ (fp ++ b)) (a ++ (fp₁ ++ b)) where
  le := g.le
  fresh := by
    rw [append_assoc, append_assoc]
    refine Perm.append_left a ((g.fresh.append_right b).trans ?_)
    rw [append_assoc]
    exact Perm.append_left fp perm_append_comm
  frame j hj hjf := g.frame j hj fun h => hjf (by simp [h])

end Grown

/-! ## 3. The local changes -/

section Local

variable {nodes nodes' : Vec (BTreeNode K V)} {h n : Nat} {fp : List Nat} {es : List (K × V)}
  {nd : BTreeNode K V}

theorem getElem?_set_at (hn : n < nodes.length) (nd : BTreeNode K V) :
    (nodes.set (n : Int) nd)[n]? = some nd := by
  rw [set_natCast, getElem?_set_self hn]

theorem IsInner.notMem_child (hI : IsInner R nodes n nd subs fp es) (hnd : fp.Nodup) {s : Sub K V}
    (hs : s ∈ subs) : n ∉ s.fp := by
  rw [hI.fp_eq, nodup_cons] at hnd
  exact fun hm => hnd.1 (mem_flatMap.mpr ⟨s, hs, hm⟩)

theorem rep_replace_entry (hr : Rep nodes h n fp es) (hnd : fp.Nodup) (hn : nodes[n]? = some nd)
    {nd' : BTreeNode K V} (hok : NodeOk nd') (hk : nd'.keys.length = nd.keys.length)
    (hc : nd'.children = nd.children) {e e' : K × V} (he : entries nd = X ++ e :: Y)
    (he' : entries nd' = X ++ e' :: Y) :
    ∃ pre post, es = pre ++ e :: post ∧
      Rep (nodes.set (n : Int) nd') h n fp (pre ++ e' :: post) := by
  have hlt : n < nodes.length := (List.getElem?_eq_some_iff.mp hn).1
  cases h with
  | zero =>
    obtain ⟨nd₀, hn₀, _, hc₀, hfp, hes⟩ := hr
    cases hn₀.symm.trans hn
    exact ⟨X, Y, hes.trans he, nd', getElem?_set_at hlt nd', hok, hc.trans hc₀, hfp, he'.symm⟩
  | succ h =>
    obtain ⟨nd₀, subs, hI⟩ := hr
    cases hI.node.symm.trans hn
    obtain ⟨A, s, B, rfl, hA, hB, -⟩ := hI.open_at he
    cases B with
    | nil => simp at hB
    | cons t B =>
      -- the entry sits between the children `s` and `t`
      refine ⟨lefts (A.map (·.es)) X ++ s.es, t.es ++ rights Y (B.map (·.es)), ?_,
        nd', _, getElem?_set_at hlt nd', hok, ?_, hc.trans hI.children, ?_, hI.fp_eq, ?_⟩
      · rw [hI.es_eq, he, weave_open hA]
        simp [rights]
      · rw [hI.branch, hk]
      · intro s' hs'
        refine rep_frame (fun j hj => ?_) (hI.child s' hs')
        rw [set_natCast, getElem?_set_ne]
        rintro rfl
        exact hI.notMem_child hnd hs' hj
      · rw [he', weave_open hA]
        simp [rights]

/-- **Overwriting at an exact match.** -/
theorem rep_overwrite {O : OrdKey K} {key : K} (hr : Rep nodes h n fp es) (hnd : fp.Nodup)
    (hs : SortedKeys O es) (hn : nodes[n]? = some nd) (hok : NodeOk nd) {e : K × V}
    (he : entries nd = X ++ e :: Y) (h1 : ¬ O.lt e.1 key) (h2 : ¬ O.lt key e.1) (val : V) :
    Rep (nodes.set (n : Int) { nd with vals := nd.vals.set (X.length : Int) val }) h n fp
        (putList O key val es) ∧ (putList O key val es).length = es.length := by
  have hok' : NodeOk { nd with vals := nd.vals.set (X.length : Int) val } :=
    ⟨(length_set nd.vals (X.length : Int) val).trans hok.vals, hok.pos, hok.cap⟩
  obtain ⟨pre, post, rfl, hr'⟩ := rep_replace_entry hr hnd hn hok' rfl rfl he
    (entries_overwrite hok.vals he val)
  have hpre : ∀ a ∈ pre, O.lt a.1 key := by
    rw [SortedKeys, pairwise_append] at hs
    exact fun a ha => O.lt_of_lt_of_not_lt (hs.2.2 a ha e mem_cons_self) h2
  rw [putList_mid_eq hpre h1 h2]
  exact ⟨hr', by simp⟩

/-- **Inserting into a leaf with room.** -/
theorem rep_insertLeaf {O : OrdKey K} {key : K} (hr : Rep nodes 0 n fp es) (hn : nodes[n]? = some nd)
    (hcap : nd.keys.length < 3) (he : entries nd = X ++ Y) (h1 : ∀ e ∈ X, O.lt e.1 key)
    (h2 : ∀ e ∈ Y, O.lt key e.1) (val : V) :
    Rep (nodes.set (n : Int) (insertAt nd X.length key val)) 0 n fp (putList O key val es) ∧
      (putList O key val es).length = es.length + 1 := by
  obtain ⟨nd₀, hn₀, hok, hc, hfp, rfl⟩ := hr
  cases hn₀.symm.trans hn
  rw [he, putList_mid_new h1 h2]
  refine ⟨⟨_, getElem?_set_at (List.getElem?_eq_some_iff.mp hn).1 _, insertAt_ok hok he key val hcap,
    hc, hfp, (entries_insertAt hok.vals he key val).symm⟩, ?_⟩
  simp only [length_append, length_cons]
  omega

section Split

variable [Inhabited K] [Inhabited V]

/-- **Splitting a full subtree**: its two halves, at its own index and at a fresh one `r`, hold
    its contents but for the median. -/
theorem rep_split {full : BTreeNode K V} (hr : Rep nodes h n fp es) (hnd : fp.Nodup)
    (hn : nodes[n]? = some full) (h3 : full.keys.length = 3) {r : Nat}
    (hl : nodes'[n]? = some (splitNode full).1) (hr' : nodes'[r]? = some (splitNode full).2.2)
    (hf : ∀ j ∈ fp, j ≠ n → nodes'[j]? = nodes[j]?) :
    ∃ fpl fpr esl esr, Rep nodes' h n fpl esl ∧ Rep nodes' h r fpr esr ∧
      es = esl ++ (splitNode full).2.1 :: esr ∧ (fpl ++ fpr).Perm (fp ++ [r]) := by
  cases h with
  | zero =>
    obtain ⟨nd₀, hn₀, hok, hc, rfl, rfl⟩ := hr
    cases hn₀.symm.trans hn
    obtain ⟨e₀, e₁, e₂, he, hm, hlk, hlv, hrk, hrv, hcn, -⟩ := splitNode_spec hok h3
    refine ⟨[n], [r], [e₀], [e₂], ⟨_, hl, ?_, (hcn hc).1, rfl, ?_⟩,
      ⟨_, hr', ?_, (hcn hc).2, rfl, ?_⟩, by rw [he, hm]; rfl, .refl _⟩
    · exact ⟨by rw [hlk, hlv]; rfl, by rw [hlk]; simp, by rw [hlk]; simp⟩
    · rw [entries, hlk, hlv]
      rfl
    · exact ⟨by rw [hrk, hrv]; rfl, by rw [hrk]; simp, by rw [hrk]; simp⟩
    · rw [entries, hrk, hrv]
      rfl
  | succ h =>
    obtain ⟨nd₀, subs, hI⟩ := hr
    cases hI.node.symm.trans hn
    obtain ⟨e₀, e₁, e₂, he, hm, hlk, hlv, hrk, hrv, -, hcs⟩ := splitNode_spec hI.ok h3
    have hb := hI.branch
    rw [h3] at hb
    obtain ⟨s₀, s₁, s₂, s₃, rfl⟩ := length_eq_four.mp hb
    obtain ⟨hcl, hcr⟩ := hcs _ _ _ _ hI.children
    have hch : ∀ s ∈ [s₀, s₁, s₂, s₃], Rep nodes' h s.idx s.fp s.es := by
      intro s hs
      refine rep_frame (fun j hj => hf j ?_ ?_) (hI.child s hs)
      · rw [hI.fp_eq]
        exact mem_cons_of_mem _ (mem_flatMap.mpr ⟨s, hs, hj⟩)
      · rintro rfl
        exact hI.notMem_child hnd hs hj
    refine ⟨n :: (s₀.fp ++ s₁.fp), r :: (s₂.fp ++ s₃.fp), s₀.es ++ e₀ :: s₁.es,
      s₂.es ++ e₂ :: s₃.es, ⟨_, [s₀, s₁], hl, ?_, ?_, ?_, ?_, ?_, ?_⟩,
      ⟨_, [s₂, s₃], hr', ?_, ?_, ?_, ?_, ?_, ?_⟩, ?_, ?_⟩
    · exact ⟨by rw [hlk, hlv]; rfl, by rw [hlk]; simp, by rw [hlk]; simp⟩
    · rw [hlk]
      rfl
    · rw [hcl]
      rfl
    · exact fun s hs => hch s (by simp only [mem_cons] at hs ⊢; tauto)
    · simp
    · rw [entries, hlk, hlv]
      simp [weave, rights]
    · exact ⟨by rw [hrk, hrv]; rfl, by rw [hrk]; simp, by rw [hrk]; simp⟩
    · rw [hrk]
      rfl
    · rw [hcr]
      rfl
    · exact fun s hs => hch s (by simp only [mem_cons] at hs ⊢; tauto)
    · simp
    · rw [entries, hrk, hrv]
      simp [weave, rights]
    · rw [hI.es_eq, he, hm]
      simp [weave, rights]
    · rw [hI.fp_eq]
      refine .cons n ?_
      have h1 := @perm_middle _ r (s₀.fp ++ s₁.fp) (s₂.fp ++ s₃.fp)
      refine h1.trans ?_
      have h2 := perm_append_singleton r (s₀.fp ++ s₁.fp ++ (s₂.fp ++ s₃.fp))
      refine h2.symm.trans ?_
      simp

end Split

end Local

end Vyb.Collections.BTreeMap
