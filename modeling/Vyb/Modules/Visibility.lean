/-
  Subject:   Which imported declarations the own code of a module may name.

  `effectiveScope` holds the names that the code of a module may use. A declaration that comes from
  another module should be among them only if the share directive in front of it allows a bundle of the
  importer. The resolver looks at the bundles for the names of an import list and for nothing else: a
  module that is imported whole grants all that it exports, to whomever, and a list grants what its
  names drag along, if that is exported at all.

  * `VisibilityEnforced` -- the property, of one module of a run;
  * `Program.OpenTo` -- what the imports of the module grant without a check is shared with its bundles;
  * **`visibility_enforced`** -- then the property holds of it, in every run;
  * `secret_nameable` -- a function shared with one bundle, named by a module that is in none.
-/
import Vyb.Modules.Linking

namespace Vyb.Modules

open Lib Relation List

/-! ## 1. What is enforced -/

namespace Program

variable (P : Program)

/-- The module `o` has a share directive for `n` that allows one of the bundles. -/
def SharedWith (o : Key) (n : Name) (bundles : List Name) : Prop :=
  ∃ l, (P.sharesAt o).lookup n = some l ∧ sharesAllow l bundles = true

/-- Every share directive stands in front of a declaration of its module. -/
def DirectivesStand : Prop :=
  ∀ {o}, P.Reached o → ∀ n ∈ (P.sharesAt o).map Prod.fst, n ∈ P.namesAt o

/-- What the imports of `k` bring into its scope without a look at its bundles is shared with them. -/
structure OpenTo (k : Key) : Prop where
  noSmuggle : ∀ d, Statement.importDecl d ∈ P.bodyAt k → d.kind ≠ .smuggle
  /-- all that the module exports -/
  whole : ∀ {d j n o}, Statement.importDecl d ∈ P.bodyAt k → resolveImportPath P.env d k = .ok j →
    d.specifiers = [] → P.Exported j n → P.Reached o → n ∈ P.namesAt o →
    P.SharedWith o n (P.bundlesAt k)
  /-- what it exports and something below it refers to -/
  carried : ∀ {d j n o}, Statement.importDecl d ∈ P.bodyAt k → resolveImportPath P.env d k = .ok j →
    d.specifiers ≠ [] → P.Exported j n → n ∉ d.specifiers.map Specifier.importedName →
    (∃ i x, ReflTransGen P.Imports j i ∧ x ∈ P.bodyAt i ∧ n ∈ x.collect) →
    P.Reached o → n ∈ P.namesAt o → P.SharedWith o n (P.bundlesAt k)

end Program

/-- A declaration that the code of the module `k` may name is its own, or comes from a module that shares
    it with a bundle of `k`. -/
def VisibilityEnforced (P : Program) (s : Registry) (k : Key) (merged : List Statement) : Prop :=
  ∀ d, Statement.decl d ∈ merged → d.name ∈ s.effectiveScope k → Statement.decl d ∉ P.bodyAt k →
    ∃ o, P.Reached o ∧ Statement.decl d ∈ P.bodyAt o ∧ P.SharedWith o d.name (P.bundlesAt k)

/-! ## 2. When it is -/

section Enforced

variable {P : Program} {s : Registry}

/-- An exported name has a directive somewhere below. -/
theorem Program.Exported.directive_below {k : Key} {n : Name} (h : P.Exported k n) :
    ∃ o, ReflTransGen P.Imports k o ∧ n ∈ (P.sharesAt o).map Prod.fst := by
  induction h with
  | directive hshared => exact ⟨_, .refl, hshared⟩
  | reexport himports _ _ _ _ _ _ ih =>
    obtain ⟨o, ho, hmem⟩ := ih
    exact ⟨o, .head himports ho, hmem⟩

/-- It is the module that declares the name. -/
theorem Program.Exported.lookup (hP : P.Distinct) (hstand : P.DirectivesStand) {k o : Key} {n : Name}
    (h : P.Exported k n) (hk : P.Reached k) (ho : P.Reached o) (hn : n ∈ P.namesAt o) :
    ∃ l, (P.sharesAt o).lookup n = some l := by
  obtain ⟨o', hbelow, hshared⟩ := h.directive_below
  have ho' : P.Reached o' := hk.trans hbelow
  obtain rfl := hP.apart ho ho' hn (hstand ho' n hshared)
  cases hlookup : (P.sharesAt o).lookup n with
  | some l => exact ⟨l, rfl⟩
  | none =>
    obtain ⟨r, hr, rfl⟩ := mem_map.mp hshared
    have := lookup_eq_none_iff.mp hlookup r hr
    simp at this

/-- What is granted to an open module is shared with it by the module that declares it. -/
theorem Program.Granted.sharedWith (hP : P.Distinct) (hstand : P.DirectivesStand) {k o : Key} {n : Name}
    (h : P.Granted k n) (hk : P.Reached k) (hopen : P.OpenTo k) (ho : P.Reached o) (hn : n ∈ P.namesAt o) :
    P.SharedWith o n (P.bundlesAt k) := by
  cases h with
  | smuggled himport hkind => exact absurd hkind (hopen.noSmuggle _ himport)
  | whole _ himport hpath hwhole hexported => exact hopen.whole himport hpath hwhole hexported ho hn
  | listed himports _ _ hexported _ hallowed =>
    obtain ⟨l, hl⟩ := hexported.lookup hP hstand (hk.tail himports) ho hn
    exact ⟨l, hl, hallowed o l ho hn hl⟩
  | carried _ himport hpath hlist hexported hnot hmentioned =>
    exact hopen.carried himport hpath hlist hexported hnot hmentioned ho hn

theorem visibilityEnforced_of_linked (hP : P.Distinct) (hstand : P.DirectivesStand) (hL : Linked P s)
    (hsound : Sound P.env P.root P.source s.progress) {k : Key} (hk : k ∈ s.topologicalOrder)
    (hopen : P.OpenTo k) : VisibilityEnforced P s k ((s.records k).module.getD []) := by
  intro d hd hscope hown
  have hreached : P.Reached k := hsound.reached k (.inl hk)
  obtain ⟨body, hbody, hmerged⟩ := hL.modules k ((hsound.resolved k).mpr hk)
  rw [hbody, Option.getD_some] at hd
  obtain ⟨o, ho⟩ := hmerged.placed _ hd
  have hreached' : P.Reached o := hreached.trans ho.below
  have hne : o ≠ k := by
    rintro rfl
    exact hown ho.stated
  have hname : d.name ∈ P.namesAt o := mem_flatMap.mpr
    ⟨_, ho.stated, Statement.name_mem_names (x := .decl d) (ho.named.resolve_left hne)⟩
  refine ⟨o, hreached', ho.stated, ?_⟩
  rcases hL.inScope k d.name hscope with hself | hgranted
  · exact absurd (hP.apart hreached' hreached hname hself) hne
  · exact hgranted.sharedWith hP hstand hreached hopen hreached' hname

end Enforced

theorem helperModules_directives :
    (⟨helperModules, "/main.vyb".toList, helperMain⟩ : Program).DirectivesStand := by
  intro o ho n hn
  rcases helperModules_reached ho with rfl | rfl
  · obtain rfl : n = "area".toList := mem_singleton.mp hn
    exact mem_cons_self
  · cases hn

theorem helperModules_open :
    (⟨helperModules, "/main.vyb".toList, helperMain⟩ : Program).OpenTo "/main.vyb".toList := by
  have himport : ∀ d, Statement.importDecl d ∈ Program.bodyAt
      ⟨helperModules, "/main.vyb".toList, helperMain⟩ "/main.vyb".toList →
      Statement.importDecl d = importOf "lib".toList [] := by
    intro d hd
    rcases mem_cons.mp hd with hd | hd
    · exact hd
    · cases mem_singleton.mp hd
  refine ⟨fun d hd => ?_, fun {d j n o} hd hpath _ hexported ho hn => ?_, fun {d j n o} hd _ hlist => ?_⟩
  · cases himport d hd
    decide
  · cases himport d hd
    obtain rfl : "/lib.vyb".toList = j := Except.ok.inj hpath
    cases hexported with
    | directive hshared =>
      obtain rfl : n = "area".toList := mem_singleton.mp hshared
      rcases helperModules_reached ho with rfl | rfl
      · exact ⟨["all".toList], rfl, rfl⟩
      · exact absurd (mem_singleton.mp hn) (by decide)
    | reexport _ _ _ _ hshares =>
      obtain ⟨sh, hsh, -⟩ := hshares
      cases hsh
  · cases himport d hd
    exact absurd rfl hlist

/-- `lib` shares `area` with all and `secret` with the bundle `app` only. -/
def secretModules : Environment := .ofModules
  [("/lib.vyb".toList,
    { plainModule [.decl (functionAt "/lib.vyb".toList 2 "area".toList ["secret".toList]),
        .decl (functionAt "/lib.vyb".toList 4 "secret".toList [])] with
      sharesByName := [("area".toList, ["all".toList]), ("secret".toList, ["app".toList])] })]

/-- A root in no bundle. -/
def secretMain (names : List Name) : Source := .ok (plainModule [importOf "lib".toList names,
  .decl (functionAt "/main.vyb".toList 2 "main".toList ["secret".toList])])

/-- The scope of the root after `resolveRoot`. -/
def scopeAfter (root : Key) : EStateM.Result ResolveError Registry (List Statement) → List Name
  | .ok _ s => s.effectiveScope root
  | .error _ _ => []

theorem secret_outcome : ∀ names ∈ [[], ["area".toList]],
    ("secret".toList, ⟨"/lib.vyb".toList, 4⟩, []) ∈
      (outcome (resolveRoot secretModules (secretMain names) "/main.vyb".toList .empty)).1 ∧
    "secret".toList ∈ scopeAfter "/main.vyb".toList
      (resolveRoot secretModules (secretMain names) "/main.vyb".toList .empty) := by
  decide +kernel

/-- What a small program says stands in its root or in one of its files. -/
theorem Environment.ofModules_bodyAt {modules : List (Key × ModuleSource)} {root o : Key} {source : Source}
    {x : Statement} (hx : x ∈ Program.bodyAt ⟨.ofModules modules, root, source⟩ o) :
    o = root ∨ o ∈ modules.map Prod.fst := by
  refine or_iff_not_imp_left.mpr fun hroot => by_contra fun hfile => ?_
  have hlookup : modules.lookup o = none := by
    refine lookup_eq_none_iff.mpr fun r hr => bne_iff_ne.mpr ?_
    rintro rfl
    exact hfile (mem_map_of_mem hr)
  have hread : (Environment.ofModules modules).readSourceFile o = none := by
    simp only [Environment.ofModules, hlookup, Option.map_none]
  rw [Program.bodyAt, Program.moduleAt, sourceAt, if_neg hroot, hread] at hx
  cases hx

theorem not_visibilityEnforced_secret (names : List Name) (hnames : names ∈ [[], ["area".toList]]) :
    ∃ body s, resolveRoot secretModules (secretMain names) "/main.vyb".toList .empty = .ok body s ∧
      ¬VisibilityEnforced ⟨secretModules, "/main.vyb".toList, secretMain names⟩ s "/main.vyb".toList
        (mergedBody "/main.vyb".toList body s "/main.vyb".toList) := by
  obtain ⟨hsig, hscope⟩ := secret_outcome names hnames
  cases hrun : resolveRoot secretModules (secretMain names) "/main.vyb".toList .empty with
  | error e s =>
    rw [hrun] at hsig
    cases hsig
  | ok body s =>
    rw [hrun] at hsig hscope
    refine ⟨body, s, rfl, fun h => ?_⟩
    obtain ⟨x, hx, hsome⟩ := mem_filterMap.mp hsig
    cases x with
    | decl d =>
      have hname : d.name = "secret".toList := congrArg Prod.fst (Option.some.inj hsome)
      have hown : Statement.decl d ∉ Program.bodyAt
          ⟨secretModules, "/main.vyb".toList, secretMain names⟩ "/main.vyb".toList := by
        intro hd
        rcases mem_cons.mp hd with hd | hd
        · cases hd
        · obtain rfl := Statement.decl.inj (mem_singleton.mp hd)
          cases hname
      obtain ⟨o, -, hd, l, hl, hallow⟩ := h d (by rw [mergedBody, if_pos rfl]; exact hx)
        (by rw [hname]; exact hscope) hown
      rcases Environment.ofModules_bodyAt hd with rfl | hlib
      · exact hown hd
      · obtain rfl := mem_singleton.mp hlib
        rw [hname] at hl
        obtain rfl : ["app".toList] = l := Option.some.inj hl
        exact Bool.noConfusion hallow
    | _ => cases hsome

end Vyb.Modules
