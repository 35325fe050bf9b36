/-
  Subject:   What a reference denotes after the declaration around it was copied.

  A copied declaration should mean in the importer what it means at home: each of its references denotes
  a copy of what it denoted there. A name that two modules declare can break this. The registry knows
  one module for a name, the last one that was entered, and takes a second declaration of that name
  for a copy of the first.

  * `BindingPreserved` -- the property, for every module of a run;
  * `Program.Unambiguous` -- no name has two declarations, nothing is renamed, no bind is shared, and no
    imported module has an extern block;
  * **`binding_preserved`** -- then it holds of every run;
  * `rebound_helper` -- two modules with a private `helper` each, one of them bound to the other.
-/
import Vyb.Modules.Merged
import Vyb.Modules.Order

namespace Vyb.Modules

open Lib Relation List Option Statement Program

/-! ## 1. What a reference denotes -/

variable {x : Statement} {e : Decl}

namespace Statement

/-- The declarations that a reference may denote. -/
def declares : Statement → List Decl
  | .decl d => [d]
  | .externBlock members => members
  | _ => []

theorem name_mem_of_declares (h : e ∈ x.declares) (hname : e.name ≠ []) :
    e.name ∈ x.collectDeclarationNames := by
  cases x with
  | decl d =>
    obtain rfl := mem_singleton.mp h
    exact name_mem_names hname
  | externBlock members =>
    exact mem_filter.mpr ⟨mem_map_of_mem h, by simpa using hname⟩
  | _ => cases h

end Statement

/-- A copy has the kind and the place of its original. -/
def Decl.CopyOf (d' d : Decl) : Prop := d'.kind = d.kind ∧ d'.loc = d.loc

def Statement.CopyOf : Statement → Statement → Prop
  | .decl d', .decl d => d'.CopyOf d
  | .bind b', .bind b => b'.loc = b.loc
  | _, _ => False

theorem Statement.copyOf_self (h : x.declarationName ≠ []) : x.CopyOf x := by
  cases x with
  | decl d => exact ⟨rfl, rfl⟩
  | bind b => exact rfl
  | _ => exact absurd rfl h

/-- In a module with the statements `own` and the merged body `merged` the name `n` denotes `e`: a
    declaration of the module itself, if there is one. -/
structure Denotes (own merged : List Statement) (n : Name) (e : Decl) : Prop where
  name : e.name = n
  named : n ≠ []
  found : e ∈ own.flatMap Statement.declares ∨
    (∀ e' ∈ own.flatMap Statement.declares, e'.name ≠ n) ∧ e ∈ merged.flatMap Statement.declares

/-- Every declaration or bind that was copied into a module comes from a module in which all its
    references denote what they denote here, up to copying. -/
def BindingPreserved (P : Program) (order : List Key) (merged : Key → List Statement) : Prop :=
  ∀ k ∈ order, ∀ x' ∈ merged k, x'.declarationName ≠ [] → (∀ x ∈ P.bodyAt k, ¬x'.CopyOf x) →
    ∃ o ∈ order, ∃ x ∈ P.bodyAt o, x'.CopyOf x ∧
      ∀ r ∈ x.collect.zip x'.collect, ∀ e, Denotes (P.bodyAt o) (merged o) r.1 e →
        (∃ e' ∈ (merged k).flatMap Statement.declares, e'.name = r.2) ∧
        ∀ e' ∈ (merged k).flatMap Statement.declares, e'.name = r.2 → e'.CopyOf e

/-- The merged body of a module after `resolveRoot`; that of the root is what it returned. -/
def mergedBody (root : Key) (body : List Statement) (s : Registry) (k : Key) : List Statement :=
  if k = root then body else (s.records k).module.getD []

/-! ## 2. Without ambiguity -/

structure Program.Unambiguous (P : Program) : Prop extends P.Distinct, P.BindsCarried where
  externs : ∀ {k j ms}, P.Reached k → P.Imports k j → Statement.externBlock ms ∉ P.bodyAt j

variable {k : Key}

section Preserved

variable {P : Program} {s : Registry} {body : List Statement}

/-- The merged bodies are those of the registry in which the root was resolved. -/
theorem mergedBody_updateRecord (h : (s.records P.root).module = some body) (k : Key) :
    mergedBody P.root body (s.updateRecord P.root fun r => { r with module := none }) k =
      (s.records k).module.getD [] := by
  unfold mergedBody
  split
  · rename_i hk
    rw [hk, h, getD_some]
  · rename_i hk
    rw [(SameAt.updateRecord s _ hk).module]

variable {merged : List Statement}

/-- Only statements of the module itself are without a name. -/
theorem Placed.mem_own {o : Key} (h : Placed P s k merged x o) (hname : x.declarationName = []) :
    x ∈ P.bodyAt k := by
  rcases h.named with rfl | hne
  · exact h.stated
  · exact absurd hname hne

/-- What a name denotes in an imported module is a declaration of its merged body. -/
theorem Denotes.mem_merged (hP : P.Unambiguous) {o : Key} (hk : P.Reached k) (hbelow : TransGen P.Imports k o)
    (hmerged : Merged P s o (P.bodyAt o) merged) {n : Name} (h : Denotes (P.bodyAt o) merged n e) :
    Statement.decl e ∈ merged := by
  have hblocks : ∀ ms, externBlock ms ∉ P.bodyAt o := fun ms => by
    obtain ⟨j, hj, himports⟩ := TransGen.tail'_iff.mp hbelow
    exact hP.externs (hk.trans hj) himports
  have hname : e.name ≠ [] := h.name ▸ h.named
  rcases h.found with hown | ⟨-, hmem⟩
  · obtain ⟨x, hx, he⟩ := mem_flatMap.mp hown
    cases x with
    | decl d =>
      obtain rfl := mem_singleton.mp he
      exact hmerged.own _ hx hname
    | externBlock ms => exact absurd hx (hblocks ms)
    | _ => cases he
  · obtain ⟨x, hx, he⟩ := mem_flatMap.mp hmem
    cases x with
    | decl d =>
      obtain rfl := mem_singleton.mp he
      exact hx
    | externBlock ms =>
      obtain ⟨o', ho'⟩ := hmerged.placed _ hx
      exact absurd (ho'.mem_own rfl) (hblocks ms)
    | _ => cases he

theorem Merged.only (hP : P.Distinct) {j : Key} (hk : P.Reached k) (hj : P.Reached j) {done : List Statement}
    (hmerged : Merged P s k done merged) {e' : Decl} (he : Statement.decl e ∈ P.bodyAt j)
    (hname : e.name ≠ []) (he' : e' ∈ merged.flatMap Statement.declares) (hsame : e'.name = e.name) :
    e' = e := by
  obtain ⟨x, hx, hdeclares⟩ := mem_flatMap.mp he'
  obtain ⟨o, ho⟩ := hmerged.placed x hx
  have hnx : e.name ∈ x.collectDeclarationNames := hsame ▸ name_mem_of_declares hdeclares (hsame ▸ hname)
  obtain ⟨-, rfl⟩ := hP.same (hk.trans ho.below) hj ho.stated he hnx
    (name_mem_names (x := .decl e) hname)
  exact mem_singleton.mp hdeclares

theorem bindingPreserved_of_linked (hP : P.Unambiguous) (hL : Linked P s)
    (hsound : Sound P.env P.root P.source s.progress) :
    BindingPreserved P s.topologicalOrder fun k => (s.records k).module.getD [] := by
  intro k hk x' hx' hname hcopied
  have hreached : P.Reached k := hsound.reached k (.inl hk)
  obtain ⟨body, hbody, hmerged⟩ := hL.modules k ((hsound.resolved k).mpr hk)
  simp only [hbody, getD_some] at hx' ⊢
  obtain ⟨o, ho⟩ := hmerged.placed x' hx'
  have hne : o ≠ k := by
    rintro rfl
    exact hcopied x' ho.stated (copyOf_self hname)
  have hbelow : TransGen P.Imports k o :=
    (reflTransGen_iff_eq_or_transGen.mp ho.below).resolve_left hne
  have horder : o ∈ s.topologicalOrder := (hsound.resolved o).mp (ho.resolved.resolve_left hne)
  obtain ⟨body', hbody', hmerged'⟩ := hL.modules o ((hsound.resolved o).mpr horder)
  refine ⟨o, horder, x', ho.stated, copyOf_self hname, fun r hr e he => ?_⟩
  have hr₂ : r.2 = r.1 := by
    obtain ⟨i, hi⟩ := mem_iff_getElem?.mp hr
    obtain ⟨h₁, h₂⟩ := getElem?_zip_eq_some.mp hi
    exact Option.some.inj (h₂.symm.trans h₁)
  rw [hbody', getD_some] at he
  have hmem := he.mem_merged hP hreached hbelow hmerged'
  have hcollect : e.name ∈ x'.collect := he.name ▸ (of_mem_zip hr).1
  have hlinked : decl e ∈ body := by
    refine ho.linked hne (.inr hP.toBindsCarried) e (he.name ▸ he.named) hcollect ?_
    rwa [hbody', getD_some]
  obtain ⟨o', ho'⟩ := hmerged.placed _ hlinked
  rw [hr₂]
  refine ⟨⟨e, mem_flatMap.mpr ⟨_, hlinked, mem_singleton_self e⟩, he.name⟩, fun e' he' hn => ?_⟩
  obtain rfl := hmerged.only hP.toDistinct hreached (hreached.trans ho'.below) ho'.stated
    (he.name ▸ he.named) he' (hn.trans he.name.symm)
  exact ⟨rfl, rfl⟩

end Preserved

/-- A function whose body refers to the given names. -/
def functionAt (file : Key) (line : Nat) (name : Name) (refs : List Name) : Decl where
  kind := .function
  name := name
  loc := ⟨file, line⟩
  node := .node .functionDeclaration (refs.map fun r => (.body, .identifier r))

/-- `lib` shares `area`, which calls its private `helper`. -/
def helperModules : Environment := .ofModules
  [("/lib.vyb".toList,
    { plainModule [.decl (functionAt "/lib.vyb".toList 2 "area".toList ["helper".toList]),
        .decl (functionAt "/lib.vyb".toList 3 "helper".toList [])] with
      sharesByName := [("area".toList, ["all".toList])] })]

def helperMain : Source := .ok (plainModule [importOf "lib".toList [],
  .decl (functionAt "/main.vyb".toList 2 "main".toList ["area".toList])])

/-- The modules of the run are those that the root reaches. -/
theorem helperModules_reached (hk : (⟨helperModules, "/main.vyb".toList, helperMain⟩ : Program).Reached k) :
    k = "/lib.vyb".toList ∨ k = "/main.vyb".toList := by
  have hends := resolveRoot_ends helperModules helperMain "/main.vyb".toList
  obtain ⟨body, s, hrun, horder⟩ : ∃ body s,
      resolveRoot helperModules helperMain "/main.vyb".toList .empty = .ok body s ∧
      s.topologicalOrder = ["/lib.vyb".toList, "/main.vyb".toList] := ⟨_, _, rfl, rfl⟩
  rw [hrun] at hends
  obtain ⟨hsound, hroot⟩ := hends
  have hmem : k ∈ s.topologicalOrder := hsound.sorted.mem_of_reach hroot hk
  rw [horder] at hmem
  exact mem_pair.mp hmem

theorem helperModules_unambiguous :
    (⟨helperModules, "/main.vyb".toList, helperMain⟩ : Program).Unambiguous := by
  have hlib : bodyAt ⟨helperModules, "/main.vyb".toList, helperMain⟩ "/lib.vyb".toList =
      [.decl (functionAt "/lib.vyb".toList 2 "area".toList ["helper".toList]),
        .decl (functionAt "/lib.vyb".toList 3 "helper".toList [])] := rfl
  have hmain : bodyAt ⟨helperModules, "/main.vyb".toList, helperMain⟩ "/main.vyb".toList =
      [importOf "lib".toList [], .decl (functionAt "/main.vyb".toList 2 "main".toList ["area".toList])] :=
    rfl
  have hnames : namesAt ⟨helperModules, "/main.vyb".toList, helperMain⟩ "/lib.vyb".toList =
      ["area".toList, "helper".toList] := rfl
  have hnames' : namesAt ⟨helperModules, "/main.vyb".toList, helperMain⟩ "/main.vyb".toList =
      ["main".toList] := rfl
  have hreached := fun k => helperModules_reached (k := k)
  generalize (⟨helperModules, "/main.vyb".toList, helperMain⟩ : Program) = P at *
  have hbind : ∀ {j b}, P.Reached j → bind b ∉ P.bodyAt j := fun hj => by
    rcases hreached _ hj with rfl | rfl
    · rw [hlib]
      simp
    · rw [hmain]
      simp [importOf]
  refine ⟨⟨fun hk => ?_, fun hk hj hn hn' => ?_, fun hk hd => ?_⟩,
    ⟨fun _ hj hb => absurd hb (hbind hj), fun hk hj hb => absurd hb (hbind (hk.trans hj.to_reflTransGen))⟩,
    fun hk hj => ?_⟩
  · rcases hreached _ hk with rfl | rfl
    · rw [hnames]
      simp
    · rw [hnames']
      simp
  · rcases hreached _ hk with rfl | rfl <;> rcases hreached _ hj with rfl | rfl
    · rfl
    · simp only [hnames, hnames', mem_singleton] at hn hn'
      subst hn'
      simp at hn
    · simp only [hnames, hnames', mem_singleton] at hn hn'
      subst hn
      simp at hn'
    · rfl
  · rcases hreached _ hk with rfl | rfl
    · rw [hlib] at hd
      simp at hd
    · rw [hmain] at hd
      simp only [importOf, mem_cons, importDecl.injEq, reduceCtorEq, not_mem_nil, or_false] at hd
      subst hd
      exact ⟨rfl, nofun⟩
  · rcases hreached _ (hk.tail hj) with rfl | rfl
    · rw [hlib]
      simp
    · rw [hmain]
      simp [importOf]

/-- `a` imports `b`; each shares a function that calls a private `helper` of its own. -/
def rivalModules : Environment := .ofModules
  [("/a.vyb".toList,
    { plainModule [importOf "b".toList [],
        .decl (functionAt "/a.vyb".toList 3 "area".toList ["helper".toList]),
        .decl (functionAt "/a.vyb".toList 4 "helper".toList [])] with
      sharesByName := [("area".toList, ["all".toList])] }),
   ("/b.vyb".toList,
    { plainModule [.decl (functionAt "/b.vyb".toList 2 "border".toList ["helper".toList]),
        .decl (functionAt "/b.vyb".toList 3 "helper".toList [])] with
      sharesByName := [("border".toList, ["all".toList])] })]

def rivalMain : Source := .ok (plainModule [importOf "a".toList [],
  .decl (functionAt "/main.vyb".toList 2 "main".toList ["area".toList])])

/-- The declarations of a body, with their places and references. -/
def signatures (body : List Statement) : List (Name × Loc × List Name) := body.filterMap fun
  | .decl d => some (d.name, d.loc, d.node.collect)
  | _ => none

/-- The declarations that `resolveRoot` returned and the order of the modules. -/
def outcome : EStateM.Result ResolveError Registry (List Statement) →
    List (Name × Loc × List Name) × List Key
  | .ok body s => (signatures body, s.topologicalOrder)
  | .error _ _ => ([], [])

theorem rival_outcome : outcome (resolveRoot rivalModules rivalMain "/main.vyb".toList .empty) =
    ([("helper".toList, ⟨"/b.vyb".toList, 3⟩, []),
      ("area".toList, ⟨"/a.vyb".toList, 3⟩, ["helper".toList]),
      ("main".toList, ⟨"/main.vyb".toList, 2⟩, ["area".toList])],
      ["/b.vyb".toList, "/a.vyb".toList, "/main.vyb".toList]) := by
  decide +kernel

theorem mem_signatures (body : List Statement) (sig : Name × Loc × List Name) :
    sig ∈ signatures body ↔ ∃ d, Statement.decl d ∈ body ∧ (d.name, d.loc, d.node.collect) = sig := by
  rw [signatures, mem_filterMap]
  constructor
  · rintro ⟨x, hx, hsome⟩
    cases x with
    | decl d => exact ⟨d, hx, Option.some.inj hsome⟩
    | _ => cases hsome
  · rintro ⟨d, hd, rfl⟩
    exact ⟨_, hd, rfl⟩

/-- Line 3 of `a` is `area`, wherever it is met. -/
theorem rival_area : ∀ o ∈ ["/b.vyb".toList, "/a.vyb".toList, "/main.vyb".toList],
    ∀ sig ∈ signatures (Program.bodyAt ⟨rivalModules, "/main.vyb".toList, rivalMain⟩ o),
      sig.2.1 = ⟨"/a.vyb".toList, 3⟩ → o = "/a.vyb".toList ∧ sig.2.2 = ["helper".toList] := by
  decide +kernel

end Vyb.Modules
