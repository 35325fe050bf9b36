/-
  Subject:   What is in a merged module, if the modules have distinct names and rename nothing.

  `Distinct`: no two of the modules that the root reaches declare one name, none declares a name twice,
  and no import binds an alias or a namespace. Then "the module that declared the name last" is the
  module that declares it, a copy is the declaration itself, and what a name is in the importer is
  what it is at its origin.

  * `Placed` -- a statement of a merged module, with the module it comes from: what it refers to there is
    here too, and it has kept its share list;
  * `Exported`, `Granted` -- what a module may export, and how a name may get into the scope of a module;
  * `Linked`, `Linking` -- the invariant between modules and within one;
  * **`linked`** -- it is one of every resolution.
-/
import Vyb.Modules.Closure
import Vyb.Modules.Splicing

namespace Vyb.Modules

open Lib Relation List Statement Option

/-! ## 1. Programs -/

/-- A root module and what its imports are looked up in. -/
structure Program where
  env : Environment
  root : Key
  source : Source

namespace Program

variable (P : Program)

abbrev Imports : Key → Key → Prop := Modules.Imports P.env P.root P.source

abbrev Reached (k : Key) : Prop := ReflTransGen P.Imports P.root k

/-- The parsed module at `k`, with the synthetic import. -/
def moduleAt (k : Key) : Option ModuleSource :=
  match sourceAt P.env P.root P.source k with
  | some (.ok m) => some (withCoreImport P.env k m)
  | _ => none

def bodyAt (k : Key) : List Statement := (P.moduleAt k).elim [] ModuleSource.body

def sharesAt (k : Key) : List (Name × List Name) := (P.moduleAt k).elim [] ModuleSource.sharesByName

def bundlesAt (k : Key) : List Name := (P.moduleAt k).elim [] ModuleSource.bundles

def importSharesAt (k : Key) : List (List Name) := (P.moduleAt k).elim [] ModuleSource.importShares

/-- The names that the module at `k` declares itself. -/
def namesAt (k : Key) : List Name := (P.bodyAt k).flatMap Statement.collectDeclarationNames

/-- Every name has one declaration, and goes by that name everywhere. -/
structure Distinct : Prop where
  once : ∀ {k}, P.Reached k → (P.namesAt k).Nodup
  apart : ∀ {k j n}, P.Reached k → P.Reached j → n ∈ P.namesAt k → n ∈ P.namesAt j → k = j
  plain : ∀ {k d}, P.Reached k → Statement.importDecl d ∈ P.bodyAt k →
    d.namespaceImport = none ∧ ∀ s ∈ d.specifiers, s.localName.getD s.importedName = s.importedName

/-- Binds cross a module boundary only as dependencies: none is shared, and a module below which there
    is one neither smuggles nor shares an import. -/
structure BindsCarried : Prop where
  directives : ∀ {k j b}, P.Reached k → P.Reached j → Statement.bind b ∈ P.bodyAt j →
    (P.sharesAt k).lookup (bindKey b) = none
  imports : ∀ {k j b}, P.Reached k → TransGen P.Imports k j → Statement.bind b ∈ P.bodyAt j →
    (∀ d, Statement.importDecl d ∈ P.bodyAt k → d.kind ≠ .smuggle) ∧ ∀ sh ∈ P.importSharesAt k, sh = []

/-- The module at `k` may export `n`: by a share directive, or out of a module that it imports, if it
    shares an import. -/
inductive Exported : Key → Name → Prop where
  | directive {k : Key} {n : Name} (hshared : n ∈ (P.sharesAt k).map Prod.fst) : Exported k n
  | reexport {k j : Key} {n : Name} {d : ImportDecl} (himports : P.Imports k j)
      (himport : Statement.importDecl d ∈ P.bodyAt k) (hpath : resolveImportPath P.env d k = .ok j)
      (hkind : d.kind ≠ .smuggle) (hshares : ∃ sh ∈ P.importSharesAt k, sh ≠ [])
      (hlisted : d.specifiers = [] ∨ n ∈ d.specifiers.map Specifier.importedName)
      (hexported : Exported j n) : Exported k n

/-- How a name may come into the scope of the module `k` that does not declare it. -/
inductive Granted (k : Key) (n : Name) : Prop where
  | smuggled {d : ImportDecl} (himport : Statement.importDecl d ∈ P.bodyAt k)
      (hkind : d.kind = .smuggle) : Granted k n
  | whole {d : ImportDecl} {j : Key} (himports : P.Imports k j)
      (himport : Statement.importDecl d ∈ P.bodyAt k) (hpath : resolveImportPath P.env d k = .ok j)
      (hwhole : d.specifiers = []) (hexported : P.Exported j n) : Granted k n
  /-- a name of the list is checked against the bundles of the importer -/
  | listed {d : ImportDecl} {j : Key} (himports : P.Imports k j)
      (himport : Statement.importDecl d ∈ P.bodyAt k) (hpath : resolveImportPath P.env d k = .ok j)
      (hexported : P.Exported j n)
      (hlisted : n ∈ d.specifiers.map Specifier.importedName)
      (hallowed : ∀ o l, P.Reached o → n ∈ P.namesAt o → (P.sharesAt o).lookup n = some l →
        sharesAllow l (P.bundlesAt k) = true) : Granted k n
  /-- a dependency of the list is not -/
  | carried {d : ImportDecl} {j : Key} (himports : P.Imports k j)
      (himport : Statement.importDecl d ∈ P.bodyAt k) (hpath : resolveImportPath P.env d k = .ok j)
      (hlist : d.specifiers ≠ []) (hexported : P.Exported j n)
      (hnot : n ∉ d.specifiers.map Specifier.importedName)
      (hmentioned : ∃ o x, ReflTransGen P.Imports j o ∧ x ∈ P.bodyAt o ∧ n ∈ x.collect) :
      Granted k n

variable {P} {k : Key} {m : ModuleSource}

section At

variable (h : sourceAt P.env P.root P.source k = some (.ok m))

include h

theorem moduleAt_eq : P.moduleAt k = some (withCoreImport P.env k m) := by
  rw [moduleAt, h]

theorem bodyAt_eq : P.bodyAt k = (withCoreImport P.env k m).body := by
  rw [bodyAt, moduleAt_eq h, elim_some]

theorem importSharesAt_eq : P.importSharesAt k = (withCoreImport P.env k m).importShares := by
  rw [importSharesAt, moduleAt_eq h, elim_some]

theorem bundlesAt_eq : P.bundlesAt k = m.bundles := by
  rw [bundlesAt, moduleAt_eq h, elim_some, withCoreImport_bundles]

theorem sharesAt_eq : P.sharesAt k = m.sharesByName := by
  rw [sharesAt, moduleAt_eq h, elim_some, withCoreImport]
  split <;> rfl

/-- The synthetic import declares nothing. -/
theorem namesAt_eq : P.namesAt k = m.body.flatMap Statement.collectDeclarationNames := by
  rw [namesAt, bodyAt_eq h, withCoreImport]
  split <;> rfl

end At

end Program

open Program

/-! ## 2. Names -/

variable {n : Name}

theorem Statement.ne_nil_of_mem_names {x : Statement} (h : n ∈ x.collectDeclarationNames) : n ≠ [] := by
  unfold collectDeclarationNames at h
  split at h
  · simpa using (mem_filter.mp h).2
  · split at h
    · cases h
    · rename_i hne
      exact mem_singleton.mp h ▸ hne

theorem Statement.name_mem_names {x : Statement} (h : x.declarationName ≠ []) :
    x.declarationName ∈ x.collectDeclarationNames := by
  unfold collectDeclarationNames
  split
  · exact absurd rfl h
  · rw [if_neg h]
    exact mem_singleton_self _

namespace Program.Distinct

variable {P : Program} (hP : P.Distinct) {k j : Key} {x y : Statement}

include hP

variable (hk : P.Reached k) (hj : P.Reached j) (hx : x ∈ P.bodyAt k) (hy : y ∈ P.bodyAt j)
include hk hj hx hy

theorem same {n : Name} (hnx : n ∈ x.collectDeclarationNames) (hny : n ∈ y.collectDeclarationNames) : k = j ∧ x = y := by
  have hkj : k = j := hP.apart hk hj (mem_flatMap.mpr ⟨x, hx, hnx⟩) (mem_flatMap.mpr ⟨y, hy, hny⟩)
  subst hkj
  refine ⟨rfl, by_contra fun hne => ?_⟩
  obtain ⟨-, hpair⟩ := nodup_flatMap.mp (hP.once hk)
  have : Std.Symm (Function.onFun List.Disjoint Statement.collectDeclarationNames) :=
    ⟨fun _ _ h => h.symm⟩
  exact hpair.forall hx hy hne hnx hny

theorem same_name (hname : x.declarationName = y.declarationName) (hne : x.declarationName ≠ []) : k = j ∧ x = y :=
  hP.same hk hj hx hy (name_mem_names hne) (hname ▸ name_mem_names (hname ▸ hne))

end Program.Distinct

/-! ## 3. Statements of a merged module -/

/-- The statement `x` of the merged module `k` comes from the module `o`. -/
structure Placed (P : Program) (s : Registry) (k : Key) (body : List Statement) (x : Statement)
    (o : Key) : Prop where
  below : ReflTransGen P.Imports k o
  stated : x ∈ P.bodyAt o
  named : o = k ∨ x.declarationName ≠ []
  resolved : o = k ∨ (s.records o).state = .resolved
  linked : o ≠ k → ((∃ d, x = .decl d) ∨ P.BindsCarried) → ∀ d, d.name ≠ [] → d.name ∈ x.collect →
    Statement.decl d ∈ (s.records o).module.getD [] → Statement.decl d ∈ body
  shared : x.declarationName ≠ [] → ∀ l, (P.sharesAt o).lookup x.declarationName = some l →
    (s.records k).sharesByName.lookup x.declarationName = some l

/-- The merged module `k`, of whose own statements `done` are done. -/
structure Merged (P : Program) (s : Registry) (k : Key) (done body : List Statement) : Prop where
  placed : ∀ x ∈ body, ∃ o, Placed P s k body x o
  own : ∀ x ∈ done, x.declarationName ≠ [] → x ∈ body
  unshared : P.BindsCarried → ∀ j b, P.Reached j → Statement.bind b ∈ P.bodyAt j →
    (s.records k).sharesByName.lookup (bindKey b) = none

/-- What is resolved stays as it is. -/
def StillResolved (s s' : Registry) : Prop :=
  ∀ k, (s.records k).state = .resolved →
    (s'.records k).state = .resolved ∧ (s'.records k).module = (s.records k).module

section Transfer

variable {P : Program} {s s' : Registry} {k o : Key} {done body body' : List Statement} {x : Statement}

theorem Placed.transfer (h : Placed P s k body x o) (hstill : StillResolved s s') (hbody : body ⊆ body')
    (hshares : x.declarationName ≠ [] → ∀ l, (P.sharesAt o).lookup x.declarationName = some l →
      (s.records k).sharesByName.lookup x.declarationName = some l →
      (s'.records k).sharesByName.lookup x.declarationName = some l) : Placed P s' k body' x o :=
  { h with
    resolved := h.resolved.imp_right fun hr => (hstill o hr).1
    linked := fun hne hcase d hname hmem hd => by
      have hr := h.resolved.resolve_left hne
      rw [(hstill o hr).2] at hd
      exact hbody (h.linked hne hcase d hname hmem hd)
    shared := fun hname l hl => hshares hname l hl (h.shared hname l hl) }

theorem Merged.transfer (h : Merged P s k done body) (hstill : StillResolved s s')
    (hshares : (s'.records k).sharesByName = (s.records k).sharesByName) : Merged P s' k done body where
  placed x hx := by
    obtain ⟨o, ho⟩ := h.placed x hx
    exact ⟨o, ho.transfer hstill (fun _ h => h) fun _ _ _ hl => hshares ▸ hl⟩
  own := h.own
  unshared hb j b hj hmem := hshares ▸ h.unshared hb j b hj hmem

theorem SameAt.shares (h : SameAt s s' k) : (s'.records k).sharesByName = (s.records k).sharesByName := by
  obtain ⟨sp, hrecord⟩ := h.record
  rw [hrecord]

theorem StillResolved.of_sameAt (h : ∀ k, (s.records k).state = .resolved → SameAt s s' k) :
    StillResolved s s' := fun k hk => ⟨(h k hk).state.trans hk, (h k hk).module⟩

end Transfer

/-! ## 4. The invariant -/

structure Linked (P : Program) (s : Registry) : Prop where
  modules : ∀ k, (s.records k).state = .resolved →
    ∃ body, (s.records k).module = some body ∧ Merged P s k (P.bodyAt k) body
  keys : ∀ k n, (s.records k).state ≠ .unresolved → n ∈ P.namesAt k → s.moduleKeyByName n = some k
  exported : ∀ k, ∀ n ∈ s.exports k, P.Exported k n
  inScope : ∀ k, ∀ n ∈ s.effectiveScope k, n ∈ P.namesAt k ∨ P.Granted k n

structure Linking (P : Program) (key : Key) (m : ModuleSource) (done : List Statement) (f : Frame)
    (s : Registry) : Prop where
  outside : Linked P s
  source : sourceAt P.env P.root P.source key = some (.ok m)
  reached : P.Reached key
  parsing : (s.records key).state = .parsing
  merged : Merged P s key done f.resolvedBody
  seen : ∀ n ∈ f.seenNames, ∃ x ∈ f.resolvedBody, x.declarationName = n ∧ n ≠ []
  origins : ∀ n o, f.seenOrigins n = some o → n ∈ P.namesAt o ∧ (s.records o).state ≠ .unresolved
  ownShares : ∀ n ∈ P.namesAt key, (s.records key).sharesByName.lookup n = (P.sharesAt key).lookup n
  namespaces : f.localNamespaces = []
  importShares : ∀ sh ∈ f.importShares, sh ∈ P.importSharesAt key

attribute [local simp] Registry.updateRecord Registry.declare Registry.enter Registry.withShares

section Steps

variable {P : Program} {s s' : Registry} {key : Key} {m : ModuleSource} {done : List Statement} {f : Frame}

theorem linked_empty (P : Program) : Linked P .empty where
  modules _ h := nomatch h
  keys _ _ h := absurd rfl h
  exported _ _ h := nomatch h
  inScope _ _ h := nomatch h

/-- A step that only touches modules that are not resolved. -/
theorem Linked.modules_of (h : Linked P s)
    (hsame : ∀ k, (s'.records k).state = .resolved → (s.records k).state = .resolved ∧ SameAt s s' k)
    (hstill : StillResolved s s') (k : Key) (hk : (s'.records k).state = .resolved) :
    ∃ body, (s'.records k).module = some body ∧ Merged P s' k (P.bodyAt k) body := by
  obtain ⟨hr, hsame⟩ := hsame k hk
  obtain ⟨body, hbody, hmerged⟩ := h.modules k hr
  exact ⟨body, hsame.module.trans hbody, hmerged.transfer hstill hsame.shares⟩

theorem Linked.spelled (h : Linked P s) (key : Key) (spelling : Name) :
    Linked P (s.updateRecord key fun r => { r with importSpelling := spelling }) := by
  have hsame := SameAt.spelled s key spelling
  refine ⟨h.modules_of (fun k hk => ⟨(hsame k).state.symm.trans hk, hsame k⟩)
    (.of_sameAt fun k _ => hsame k), fun k n hk hn => h.keys k n ?_ hn, h.exported, h.inScope⟩
  rwa [← (hsame k).state]

/-- A module that is resolved or being resolved is one that the root reaches. -/
theorem reached_of_state (hsound : Sound P.env P.root P.source s.progress) {k : Key}
    (hk : (s.records k).state ≠ .unresolved) : P.Reached k := by
  refine hsound.reached k ?_
  cases hstate : (s.records k).state with
  | unresolved => exact absurd hstate hk
  | parsing => exact .inr ((hsound.parsing k).mp hstate)
  | resolved => exact .inl ((hsound.resolved k).mp hstate)
  | failed => exact absurd hstate (hsound.failed k)

theorem Linked.start (hP : P.Distinct) (h : Linked P s) (hsound : Sound P.env P.root P.source s.progress)
    (hentered : Entered P.env P.root P.source s.progress key) (hstate : (s.records key).state = .unresolved)
    (hsource : sourceAt P.env P.root P.source key = some (.ok m)) :
    Linking P key m [] (.start (withCoreImport P.env key m).importShares)
      ((s.enter key).declare key m) := by
  have hreached : P.Reached key := hentered.reached hsound
  have hparsing : (((s.enter key).declare key m).records key).state = .parsing := by
    simp
  have hshares : (((s.enter key).declare key m).records key).sharesByName = P.sharesAt key := by
    rw [sharesAt_eq hsource]
    simp
  have hsame : ∀ k, k ≠ key → SameAt s ((s.enter key).declare key m) k := fun k hk =>
    (SameAt.enter s hk).trans (.declare _ m hk)
  have hother : ∀ {k}, (s.records k).state = .resolved → k ≠ key := by
    rintro k hk rfl
    rw [hstate] at hk
    cases hk
  refine ⟨⟨h.modules_of (fun k hk => ?_) (.of_sameAt fun k hk => hsame k (hother hk)), fun k n hk hn => ?_,
    fun k n hn => ?_, fun k n hn => ?_⟩, hsource, hreached, hparsing, ⟨fun x hx => ?_, fun x hx => ?_,
    fun hb j b hj hmem => ?_⟩, fun n hn => ?_, fun n o ho => ?_, fun n _ => by rw [hshares], rfl,
    fun sh hsh => ?_⟩
  · have hne : k ≠ key := by
      rintro rfl
      rw [hparsing] at hk
      cases hk
    exact ⟨(hsame k hne).state.symm.trans hk, hsame k hne⟩
  · -- the last writer of the name is its only one
    show (if n ∈ m.body.flatMap Statement.collectDeclarationNames then some key
      else s.moduleKeyByName n) = some k
    rw [← namesAt_eq hsource]
    by_cases hkey : k = key
    · subst hkey
      rw [if_pos hn]
    · have hk' : (s.records k).state ≠ .unresolved := by rwa [← (hsame k hkey).state]
      rw [if_neg fun hn' => hkey (hP.apart (reached_of_state hsound hk') hreached hn hn')]
      exact h.keys k n hk' hn
  · by_cases hkey : k = key
    · subst hkey
      have hn : n ∈ s.exports k ++ m.sharesByName.map Prod.fst := by
        simpa using hn
      rcases mem_append.mp hn with hn | hn
      · exact h.exported k n hn
      · exact .directive (by rwa [sharesAt_eq hsource])
    · rw [(hsame k hkey).exports] at hn
      exact h.exported k n hn
  · by_cases hkey : k = key
    · subst hkey
      have hn : n ∈ s.effectiveScope k ++ m.body.flatMap Statement.collectDeclarationNames := by
        simpa using hn
      rcases mem_append.mp hn with hn | hn
      · exact h.inScope k n hn
      · exact .inl (by rwa [namesAt_eq hsource])
    · rw [(hsame k hkey).scope] at hn
      exact h.inScope k n hn
  · cases hx
  · cases hx
  · rw [hshares]
    exact hb.directives hreached hj hmem
  · cases hn
  · cases ho
  · rwa [importSharesAt_eq hsource]

namespace Linking

theorem own (h : Linking P key m done f s) {x : Statement} (hx : x ∈ P.bodyAt key) {shares : List (List Name)}
    (hshares : shares ⊆ f.importShares) :
    Linking P key m (done ++ [x]) (({ f with importShares := shares } : Frame).own key x) s := by
  have hbody : (({ f with importShares := shares } : Frame).own key x).resolvedBody =
      f.resolvedBody ++ [x] := by
    unfold Frame.own Frame.push
    split <;> rfl
  have hnames : ∀ n ∈ (({ f with importShares := shares } : Frame).own key x).seenNames,
      n ∈ f.seenNames ∨ n = x.declarationName ∧ n ≠ [] := by
    intro n hn
    by_cases hname : x.declarationName = []
    · rw [Frame.own, if_pos hname] at hn
      exact .inl hn
    · rw [Frame.own, if_neg hname] at hn
      rcases mem_cons.mp hn with rfl | hn
      · exact .inr ⟨rfl, hname⟩
      · exact .inl hn
  refine { h with
    merged := ⟨fun y hy => ?_, fun y hy hname => ?_, h.merged.unshared⟩
    seen := fun n hn => ?_
    origins := fun n o ho => ?_
    namespaces := ?_
    importShares := fun sh hsh => ?_ }
  · rw [hbody] at hy ⊢
    rcases mem_append.mp hy with hy | hy
    · obtain ⟨o, ho⟩ := h.merged.placed y hy
      exact ⟨o, ho.transfer (fun k hk => ⟨hk, rfl⟩) (subset_append_left _ _) fun _ _ _ hl => hl⟩
    · obtain rfl := mem_singleton.mp hy
      refine ⟨key, .refl, hx, .inl rfl, .inl rfl, fun hne => absurd rfl hne, fun hname l hl => ?_⟩
      rwa [h.ownShares _ (mem_flatMap.mpr ⟨y, hx, name_mem_names hname⟩)]
  · rw [hbody]
    rcases mem_append.mp hy with hy | hy
    · exact mem_append_left _ (h.merged.own y hy hname)
    · exact mem_append_right _ hy
  · rw [hbody]
    rcases hnames n hn with hn | ⟨rfl, hne⟩
    · obtain ⟨y, hy, hname⟩ := h.seen n hn
      exact ⟨y, mem_append_left _ hy, hname⟩
    · exact ⟨x, mem_append_right _ (mem_singleton_self x), rfl, hne⟩
  · by_cases hname : x.declarationName = []
    · rw [Frame.own, if_pos hname] at ho
      exact h.origins n o ho
    · rw [Frame.own, if_neg hname] at ho
      by_cases hn : n = x.declarationName
      · subst hn
        have ho : some key = some o := by simpa [Frame.see, Frame.push] using ho
        cases ho
        exact ⟨mem_flatMap.mpr ⟨x, hx, name_mem_names hname⟩, by simp [h.parsing]⟩
      · exact h.origins n o (by simpa [Frame.see, Frame.push, hn] using ho)
  · unfold Frame.own Frame.push
    split
    · exact h.namespaces
    · exact h.namespaces
  · have hsh' : sh ∈ shares := by
      unfold Frame.own Frame.push at hsh
      split at hsh
      · exact hsh
      · exact hsh
    exact h.importShares sh (hshares hsh')

/-- Another module is resolved meanwhile. -/
theorem nested (h : Linking P key m done f s) (hs' : Linked P s') (honward : Onward s s') :
    Linking P key m done f s' := by
  have hkey : SameAt s s' key := honward key (by simp [h.parsing])
  have hstill : StillResolved s s' := .of_sameAt fun k hk => honward k (by simp [hk])
  refine { h with
    outside := hs'
    parsing := hkey.state.trans h.parsing
    merged := h.merged.transfer hstill hkey.shares
    origins := fun n o ho => ?_
    ownShares := fun n hn => by rw [hkey.shares]; exact h.ownShares n hn }
  obtain ⟨hn, hstate⟩ := h.origins n o ho
  exact ⟨hn, by rwa [(honward o hstate).state]⟩

theorem finish (h : Linking P key m (P.bodyAt key) f s) : Linked P (s.finish key f).leave := by
  have hbody : rewrittenBody f = f.resolvedBody := if_pos h.namespaces
  have hsame : ∀ k, k ≠ key → SameAt s (s.finish key f).leave k := fun k hk =>
    (SameAt.finish s f hk).trans (.leave _ k)
  have hother : ∀ {k}, (s.records k).state = .resolved → k ≠ key := by
    rintro k hk rfl
    rw [h.parsing] at hk
    cases hk
  have hstill : StillResolved s (s.finish key f).leave := .of_sameAt fun k hk => hsame k (hother hk)
  have hrecord : (s.finish key f).leave.records key =
      { s.records key with module := some f.resolvedBody, state := .resolved } := by
    simp [Registry.finish, Registry.leave, hbody]
  refine ⟨fun k hk => ?_, fun k n hk hn => ?_, h.outside.exported, h.outside.inScope⟩
  · by_cases hkey : k = key
    · subst hkey
      exact ⟨f.resolvedBody, by rw [hrecord], h.merged.transfer hstill (by rw [hrecord])⟩
    · have hk' : (s.records k).state = .resolved := (hsame k hkey).state.symm.trans hk
      obtain ⟨body, hmodule, hmerged⟩ := h.outside.modules k hk'
      exact ⟨body, (hsame k hkey).module.trans hmodule, hmerged.transfer hstill (hsame k hkey).shares⟩
  · by_cases hkey : k = key
    · subst hkey
      exact h.outside.keys k n (by simp [h.parsing]) hn
    · exact h.outside.keys k n (by rwa [← (hsame k hkey).state]) hn

end Linking

end Steps

/-! ## 5. The import of a resolved module -/

/-- The context `c` of an import into `key`, once its module is resolved. -/
structure Importing (P : Program) (s : Registry) (key : Key) (c : ImportContext) (C : Carried) : Prop where
  into : c.key = key
  plain : c.Plain C
  stated : Statement.importDecl c.decl ∈ P.bodyAt key
  path : resolveImportPath P.env c.decl key = .ok c.importedKey
  imports : P.Imports key c.importedKey
  bundles : c.bundles = P.bundlesAt key
  share : c.importShare = [] ∨ c.importShare ∈ P.importSharesAt key
  record : c.imported = s.records c.importedKey
  resolved : (s.records c.importedKey).state = .resolved
  module : (s.records c.importedKey).module = some c.body
  merged : Merged P s c.importedKey (P.bodyAt c.importedKey) c.body
  closed : C = closure c.body (if c.decl.specifiers.map Specifier.importedName = [] then
    s.exports c.importedKey else c.decl.specifiers.map Specifier.importedName)
  origin : ∀ n, c.declaringOrigin n = (s.moduleKeyByName n).getD key

section Import

variable {P : Program} {s s' : Registry} {key : Key} {m : ModuleSource} {done : List Statement} {f f' : Frame}
  {c : ImportContext} {C : Carried}

theorem ImportContext.mem_requestedRenames {r : Name × Name} (h : r ∈ c.requestedRenames) :
    ∃ sp ∈ c.decl.specifiers, r = (sp.importedName, sp.localName.getD sp.importedName) := by
  obtain ⟨sp, hsp, rfl⟩ := mem_map.mp (mem_of_mem_replay h)
  exact ⟨sp, hsp, rfl⟩

theorem ImportContext.mem_requestedNames :
    n ∈ c.requestedNames ↔ n ∈ c.decl.specifiers.map Specifier.importedName := by
  constructor
  · intro h
    obtain ⟨r, hr, rfl⟩ := mem_map.mp h
    obtain ⟨sp, hsp, rfl⟩ := c.mem_requestedRenames hr
    exact mem_map_of_mem hsp
  · intro h
    obtain ⟨sp, hsp, rfl⟩ := mem_map.mp h
    obtain ⟨r, hr, hkey⟩ := exists_mem_replay
      (mem_map_of_mem (f := fun sp => (sp.importedName, sp.localName.getD sp.importedName)) hsp)
    exact mem_map.mpr ⟨r, hr, hkey⟩

variable {x : Statement}

namespace Importing

variable (hc : Importing P s key c C)
include hc

theorem origin_eq (hL : Linked P s) {o : Key} (hn : n ∈ P.namesAt o)
    (ho : (s.records o).state ≠ .unresolved) : c.declaringOrigin n = o := by
  rw [hc.origin, hL.keys o n ho hn]
  rfl

/-- A statement of the imported module, with its own module. -/
theorem owner (hkey : P.Reached key) (hx : x ∈ c.body) :
    ∃ o, Placed P s c.importedKey c.body x o ∧ P.Reached o ∧ (s.records o).state = .resolved ∧
      TransGen P.Imports key o := by
  obtain ⟨o, ho⟩ := hc.merged.placed x hx
  have hbelow : TransGen P.Imports key o := .head' hc.imports ho.below
  refine ⟨o, ho, hkey.trans hbelow.to_reflTransGen, ?_, hbelow⟩
  rcases ho.resolved with rfl | hr
  · exact hc.resolved
  · exact hr

theorem privateMangled_nil (h : Linking P key m done f s) :
    privateMangled c f = [] := by
  have hns : c.isNamespaceImport = false := by
    rw [ImportContext.isNamespaceImport, hc.plain.noNamespace]
    rfl
  rw [privateMangled, hns, if_neg Bool.false_ne_true]
  refine flatMap_eq_nil_iff.mpr fun x _ => map_eq_nil_iff.mpr ?_
  refine filter_eq_nil_iff.mpr fun n _ => ?_
  cases ho : f.seenOrigins n with
  | none => simp
  | some o =>
    obtain ⟨hn, hstate⟩ := h.origins n o ho
    simp [hc.origin_eq h.outside hn hstate]

/-- What the statement refers to in its own module is in the imported module. -/
theorem linked {o : Key} (ho : Placed P s c.importedKey c.body x o)
    (hcase : (∃ d, x = .decl d) ∨ P.BindsCarried) {d : Decl} (hname : d.name ≠ []) (hmem : d.name ∈ x.collect)
    (hd : Statement.decl d ∈ (s.records o).module.getD []) : Statement.decl d ∈ c.body := by
  by_cases hown : o = c.importedKey
  · rw [hown, hc.module] at hd
    exact hd
  · exact ho.linked hown hcase d hname hmem hd

/-- A bind crosses as a dependency, or not at all. -/
theorem bind_carried (hkey : P.Reached key) (hb : P.BindsCarried) {b : Bind}
    (hbody : Statement.bind b ∈ c.body) (hcarries : Carries c C (.bind b)) : bindKey b ∈ C.bindKeys := by
  cases hcarries with
  | bind h =>
    refine h.resolve_right fun hvisible => ?_
    obtain ⟨o, ho, hreached, -, hbelow⟩ := hc.owner hkey hbody
    have hkind := (hb.imports hkey hbelow ho.stated).1 c.decl hc.stated
    have hnone := hc.merged.unshared hb o b hreached ho.stated
    rw [← hc.record] at hnone
    simp [declarationVisible, hnone, hkind] at hvisible

theorem mem_carried (hP : P.Distinct) (hkey : P.Reached key) (hx : x ∈ c.body)
    (hcarries : Carries c C x) (hcase : (∃ d, x = .decl d) ∨ P.BindsCarried) {d : Decl} (hname : d.name ≠ [])
    (hmem : d.name ∈ x.collect) (hd : Statement.decl d ∈ c.body) : d.name ∈ C.names := by
  have hdecl : d.name ∈ moduleDeclNames c.body := mem_filterMap.mpr ⟨.decl d, hd, if_neg hname⟩
  obtain ⟨o, ho, hreached, -⟩ := hc.owner hkey hx
  -- the first one of the name is the only one
  have honly : ∀ {y : Statement}, y ∈ c.body → x.declarationName = y.declarationName →
      x.declarationName ≠ [] → x = y := by
    intro y hy hxy hne
    obtain ⟨o', ho', hreached', -⟩ := hc.owner hkey hy
    exact (hP.same_name hreached hreached' ho.stated ho'.stated hxy hne).2
  have hclosed := hc.closed
  cases x with
  | decl dx =>
    obtain ⟨dx', hdx'⟩ := exists_declByName hx
    obtain ⟨hmem', hname'⟩ := declByName_mem hdx'
    cases hcarries with
    | decl hne hcarried =>
      obtain rfl := Statement.decl.inj (honly hmem' hname'.symm hne)
      subst hclosed
      exact closure_decl hcarried hdx' hmem hdecl
  | bind b =>
    obtain ⟨b', hb'⟩ := exists_bindByKey hx
    obtain ⟨hmem', hkey'⟩ := bindByKey_mem hb'
    obtain rfl := Statement.bind.inj (honly hmem' hkey'.symm (bindKey_ne_nil b))
    have hcarried := hc.bind_carried hkey (hcase.resolve_left nofun) hx hcarries
    subst hclosed
    exact closure_bind hcarried hb' hmem hdecl
  | _ => cases hcarries

end Importing

/-! ## 6. The grant -/

theorem ImportContext.requestedRenames_eq_nil : c.requestedRenames = [] ↔ c.decl.specifiers = [] := by
  rw [← map_eq_nil_iff (f := Prod.fst) (l := c.requestedRenames),
    ← map_eq_nil_iff (f := Specifier.importedName) (l := c.decl.specifiers),
    eq_nil_iff_forall_not_mem, eq_nil_iff_forall_not_mem]
  exact forall_congr' fun n => not_congr c.mem_requestedNames

/-- What an import adds to the exports of the importer. -/
theorem Importing.reexported (hc : Importing P s key c C) (hL : Linked P s)
    (hn : n ∈ reexportedNames c (s.exports c.importedKey)) : P.Exported key n := by
  unfold reexportedNames at hn
  split at hn
  · cases hn
  rename_i hcase
  obtain ⟨hshare, hsmuggle⟩ := not_or.mp hcase
  have hkind : c.decl.kind ≠ .smuggle := fun h => hsmuggle (decide_eq_true h)
  have hshares : ∃ sh ∈ P.importSharesAt key, sh ≠ [] := ⟨_, hc.share.resolve_left hshare, hshare⟩
  split at hn
  · rename_i hwhole
    exact .reexport hc.imports hc.stated hc.path hkind hshares (.inl (c.requestedRenames_eq_nil.mp hwhole))
      (hL.exported c.importedKey n hn)
  · obtain ⟨r, hr, rfl⟩ := mem_map.mp hn
    obtain ⟨hmem, hexported⟩ := mem_filter.mp hr
    rw [hc.plain.sameNames r hmem]
    exact .reexport hc.imports hc.stated hc.path hkind hshares
      (.inr (c.mem_requestedNames.mp (mem_map_of_mem hmem)))
      (hL.exported c.importedKey _ (by simpa using hexported))

/-- What an import adds to the scope of the importer, once its splice has succeeded. -/
theorem Importing.granted (hc : Importing P s key c C) (hP : P.Distinct) (hL : Linked P s)
    (hkey : P.Reached key) {s₂ : Registry} (hsp : Spliced c C f s₂ c.body f' [] s')
    (hn : n ∈ grantedNames c (s.exports c.importedKey) (s.allNames c.importedKey)) : P.Granted key n := by
  by_cases hkind : c.decl.kind = .smuggle
  · exact .smuggled hc.stated hkind
  have hsmuggle : c.isSmuggle = false := by simpa [ImportContext.isSmuggle] using hkind
  have hexported : ∀ n ∈ s.exports c.importedKey, P.Exported c.importedKey n :=
    hL.exported c.importedKey
  unfold grantedNames at hn
  split at hn
  · rename_i hwhole
    rw [hsmuggle, if_neg Bool.false_ne_true] at hn
    exact .whole hc.imports hc.stated hc.path (c.requestedRenames_eq_nil.mp hwhole) (hexported n hn)
  rename_i hlist
  have hlist : c.decl.specifiers ≠ [] := fun h => hlist (c.requestedRenames_eq_nil.mpr h)
  rcases mem_append.mp hn with hn | hn
  · obtain ⟨r, hr, rfl⟩ := mem_map.mp hn
    obtain ⟨hmem, hr⟩ := mem_filter.mp hr
    rw [hc.plain.sameNames r hmem]
    have hin : r.1 ∈ s.exports c.importedKey := by simpa [hsmuggle] using hr
    have hreq : r.1 ∈ c.requestedNames := mem_map_of_mem hmem
    obtain ⟨hvisible, d, hd, hdname⟩ := (hsp.visible r.1 hreq).resolve_left not_mem_nil
    refine .listed hc.imports hc.stated hc.path (hexported _ hin) (c.mem_requestedNames.mp hreq)
      fun o l ho hno hl => ?_
    -- the share list that was looked at is the one of the owner
    obtain ⟨o', ho', hreached', -⟩ := hc.owner hkey hd
    obtain ⟨y, hy, hny⟩ := mem_flatMap.mp hno
    have hne : (Statement.decl d).declarationName ≠ [] := by
      rw [show (Statement.decl d).declarationName = r.1 from hdname]
      exact ne_nil_of_mem_names hny
    have hnd : r.1 ∈ (Statement.decl d).collectDeclarationNames := hdname ▸ name_mem_names hne
    obtain ⟨rfl, -⟩ := hP.same ho hreached' hy ho'.stated hny hnd
    have hshared := ho'.shared hne l (by rw [show (Statement.decl d).declarationName = r.1 from hdname]; exact hl)
    rw [show (Statement.decl d).declarationName = r.1 from hdname, ← hc.record] at hshared
    simpa [declarationVisible, hkind, hshared, ← hc.bundles] using hvisible
  · rw [hc.plain.carried] at hn
    obtain ⟨hmem, hr⟩ := mem_filter.mp hn
    obtain ⟨hnot, hin⟩ : n ∉ c.requestedNames ∧ n ∈ s.exports c.importedKey := by simpa using hr
    refine .carried hc.imports hc.stated hc.path hlist (hexported n hin)
      (fun h => hnot (c.mem_requestedNames.mpr h)) ?_
    rw [hc.closed] at hmem
    rcases mentioned_closure c.body _ n hmem with hseed | ⟨x, hx, hcollect⟩
    · rw [if_neg (by simpa using hlist)] at hseed
      exact absurd (c.mem_requestedNames.mpr hseed) hnot
    · obtain ⟨o, ho, -⟩ := hc.owner hkey hx
      exact ⟨o, x, ho.below, ho.stated, hcollect⟩

/-! ## 7. The splice -/

theorem records_grant (s : Registry) (c : ImportContext) : (s.grant c).records = s.records := by
  unfold Registry.grant
  split <;> rfl

theorem moduleKeyByName_grant (s : Registry) (c : ImportContext) :
    (s.grant c).moduleKeyByName = s.moduleKeyByName := by
  unfold Registry.grant
  split <;> rfl

/-- The registry after the splice of an import into the module `key`. -/
structure Grafted (s : Registry) (key : Key) (c : ImportContext) (sh : List (Name × List Name))
    (s' : Registry) : Prop where
  same : ∀ k, k ≠ key → SameAt s s' k
  parsing : (s'.records key).state = (s.records key).state
  shares : (s'.records key).sharesByName = sh
  keys : s'.moduleKeyByName = s.moduleKeyByName
  exports : s'.exports key = s.exports key ++ reexportedNames c (s.exports c.importedKey)
  scope : s'.effectiveScope key =
    s.effectiveScope key ++ grantedNames c (s.exports c.importedKey) (s.allNames c.importedKey)

theorem grafted (s : Registry) {key : Key} (hkey : c.key = key) (hns : c.decl.namespaceImport = none)
    (sh : List (Name × List Name)) : Grafted s key c sh ((s.grant c).withShares c.key sh) := by
  subst hkey
  have hns : c.isNamespaceImport = false := by
    rw [ImportContext.isNamespaceImport, hns]
    rfl
  refine ⟨fun k hk => (SameAt.grant s c hk).trans (.updateRecord _ _ hk), ?_, ?_, ?_, ?_, ?_⟩
  · simp [records_grant]
  · simp
  · exact moduleKeyByName_grant s c
  all_goals simp [Registry.grant, hns]

/-- A name that is now in the importer belongs to the one statement that declares it. -/
theorem Importing.seen_mem (hc : Importing P s key c C) (hP : P.Distinct) (h : Linking P key m done f s)
    {s₂ : Registry} (hsp : Spliced c C f s₂ c.body f' [] s') (hx : x ∈ c.body)
    (hname : x.declarationName ≠ []) (hseen : x.declarationName ∈ f'.seenNames) : x ∈ f'.resolvedBody := by
  have hy : ∃ y ∈ f'.resolvedBody, y.declarationName = x.declarationName := by
    rcases hsp.seen _ hseen with hold | hnew
    · obtain ⟨y, hy, hyname, -⟩ := h.seen _ hold
      exact ⟨y, hsp.grown hy, hyname⟩
    · obtain ⟨y, hy, hyname, -⟩ := hnew
      exact ⟨y, hy, hyname⟩
  obtain ⟨y, hy, hyname⟩ := hy
  obtain ⟨o, ho, hreached, -⟩ := hc.owner h.reached hx
  have hyowner : ∃ o', P.Reached o' ∧ y ∈ P.bodyAt o' := by
    rcases hsp.copied y hy with hold | ⟨hbody, -⟩
    · obtain ⟨o', ho'⟩ := h.merged.placed y hold
      exact ⟨o', h.reached.trans ho'.below, ho'.stated⟩
    · obtain ⟨o', ho', hreached', -⟩ := hc.owner h.reached hbody
      exact ⟨o', hreached', ho'.stated⟩
  obtain ⟨o', hreached', hstated'⟩ := hyowner
  obtain ⟨-, rfl⟩ := hP.same_name hreached hreached' ho.stated hstated' hyname.symm hname
  exact hy

section Graft

variable {s₂ : Registry} {sh : List (Name × List Name)} (hP : P.Distinct)
  (h : Linking P key m done f s) (hc : Importing P s key c C) (hs' : Grafted s key c sh s')
  (hsp : Spliced c C f s₂ c.body f' [] s')

include h hs'

theorem Grafted.still : StillResolved s s' := .of_sameAt fun k hk => hs'.same k (by
  rintro rfl
  rw [h.parsing] at hk
  cases hk)

include hP hc hsp

theorem Grafted.outside : Linked P s' where
  modules := by
    refine h.outside.modules_of (fun k hk => ?_) (hs'.still h)
    have hne : k ≠ key := by
      rintro rfl
      rw [hs'.parsing, h.parsing] at hk
      cases hk
    exact ⟨(hs'.same k hne).state.symm.trans hk, hs'.same k hne⟩
  keys k n hk hn := by
    rw [hs'.keys]
    refine h.outside.keys k n (fun hstate => hk ?_) hn
    by_cases hkey : k = key
    · subst hkey
      rw [hs'.parsing, hstate]
    · rw [(hs'.same k hkey).state, hstate]
  exported k n hn := by
    by_cases hkey : k = key
    · subst hkey
      rw [hs'.exports] at hn
      rcases mem_append.mp hn with hn | hn
      · exact h.outside.exported k n hn
      · exact hc.reexported h.outside hn
    · rw [(hs'.same k hkey).exports] at hn
      exact h.outside.exported k n hn
  inScope k n hn := by
    by_cases hkey : k = key
    · subst hkey
      rw [hs'.scope] at hn
      rcases mem_append.mp hn with hn | hn
      · exact h.outside.inScope k n hn
      · exact .inr (hc.granted hP h.outside h.reached hsp hn)
    · rw [(hs'.same k hkey).scope] at hn
      exact h.outside.inScope k n hn

theorem Grafted.placed_copy (hx : x ∈ c.body) (hcarries : Carries c C x)
    (hshares : ∀ l, carriedShare c x.declarationName = some l → sh.lookup x.declarationName = some l) :
    ∃ o, Placed P s' key f'.resolvedBody x o := by
  obtain ⟨o, ho, hreached, hresolved, hbelow⟩ := hc.owner h.reached hx
  refine ⟨o, hbelow.to_reflTransGen, ho.stated, .inr hcarries.name_ne_nil,
    .inr (hs'.still h o hresolved).1, fun _ hcase d hname hmem hd => ?_, fun hname l hl => ?_⟩
  · -- its references are in the imported module, so they are carried, so they are here
    rw [(hs'.still h o hresolved).2] at hd
    have hbody := hc.linked ho hcase hname hmem hd
    have hcarried := hc.mem_carried hP h.reached hx hcarries hcase hname hmem hbody
    have hseen := (hsp.found d hbody hname hcarried).resolve_left not_mem_nil
    exact hc.seen_mem hP h hsp hbody hname hseen
  · rw [hs'.shares]
    refine hshares l ?_
    rw [carriedShare, hc.record, ho.shared hname l hl, some_or]

variable (hsh : ∀ n, sh.lookup n = (s.records key).sharesByName.lookup n ∨
    sh.lookup n = carriedShare c n ∧ ∃ x ∈ c.body, Carries c C x ∧ x.declarationName = n)
  (hcopies : ∀ x ∈ f'.resolvedBody, x ∈ f.resolvedBody ∨ ∀ l,
    carriedShare c x.declarationName = some l → sh.lookup x.declarationName = some l)

include hsh hcopies

theorem Grafted.merged : Merged P s' key (done ++ [.importDecl c.decl]) f'.resolvedBody where
  placed x hx := by
    by_cases hold : x ∈ f.resolvedBody
    · obtain ⟨o, ho⟩ := h.merged.placed x hold
      refine ⟨o, ho.transfer (hs'.still h) hsp.grown fun hname l hl hl' => ?_⟩
      rw [hs'.shares]
      rcases hsh x.declarationName with hsame | ⟨hsame, y, hy, hycarries, hyname⟩
      · rw [hsame, hl']
      · -- the imported module has the statement too, with the list of its origin
        obtain ⟨o', ho', hreached', -⟩ := hc.owner h.reached hy
        obtain ⟨rfl, rfl⟩ := hP.same_name (h.reached.trans ho.below) hreached' ho.stated ho'.stated
          hyname.symm hname
        rw [hsame, carriedShare, hc.record, ho'.shared hname l hl, some_or]
    · obtain ⟨hbody, hcarries⟩ := (hsp.copied x hx).resolve_left hold
      exact hs'.placed_copy hP h hc hsp hbody hcarries ((hcopies x hx).resolve_left hold)
  own x hx hname := by
    rcases mem_append.mp hx with hx | hx
    · exact hsp.grown (h.merged.own x hx hname)
    · rw [mem_singleton.mp hx] at hname
      exact absurd rfl hname
  unshared hb j b hj hmem := by
    rw [hs'.shares]
    rcases hsh (bindKey b) with hsame | ⟨hsame, y, hy, hycarries, hyname⟩
    · rw [hsame]
      exact h.merged.unshared hb j b hj hmem
    · obtain ⟨o, ho, hreached, -, hbelow⟩ := hc.owner h.reached hy
      obtain ⟨rfl, rfl⟩ := hP.same_name hreached hj ho.stated hmem hyname hycarries.name_ne_nil
      have hnone := hc.merged.unshared hb o b hj hmem
      rw [← hc.record] at hnone
      have hshare : c.importShare = [] := hc.share.elim id fun hin =>
        (hb.imports h.reached hbelow hmem).2 _ hin
      rw [hsame, carriedShare, hnone, if_pos hshare, none_or]

/-- **The import of a resolved module keeps the invariant.** -/
theorem Grafted.linking : Linking P key m (done ++ [.importDecl c.decl]) f' s' where
  outside := hs'.outside hP h hc hsp
  source := h.source
  reached := h.reached
  parsing := hs'.parsing.trans h.parsing
  merged := hs'.merged hP h hc hsp hsh hcopies
  seen n hn := by
    rcases hsp.seen n hn with hold | hnew
    · obtain ⟨x, hx, hname⟩ := h.seen n hold
      exact ⟨x, hsp.grown hx, hname⟩
    · exact hnew
  origins n o ho := by
    rcases hsp.origins n o ho with hold | ⟨rfl, x, hx, hcarries, rfl⟩
    · obtain ⟨hn, hstate⟩ := h.origins n o hold
      refine ⟨hn, ?_⟩
      by_cases hkey : o = key
      · subst hkey
        simp [hs'.parsing, h.parsing]
      · rwa [(hs'.same o hkey).state]
    · obtain ⟨o, ho, -, hresolved, -⟩ := hc.owner h.reached hx
      have hn : x.declarationName ∈ P.namesAt o :=
        mem_flatMap.mpr ⟨x, ho.stated, name_mem_names hcarries.name_ne_nil⟩
      rw [hc.origin_eq h.outside hn (by simp [hresolved])]
      exact ⟨hn, by simp [(hs'.still h o hresolved).1]⟩
  ownShares n hn := by
    rw [hs'.shares]
    rcases hsh n with hsame | ⟨-, x, hx, hcarries, rfl⟩
    · rw [hsame]
      exact h.ownShares n hn
    · obtain ⟨o, ho, hreached, hresolved, -⟩ := hc.owner h.reached hx
      have hn' : x.declarationName ∈ P.namesAt o :=
        mem_flatMap.mpr ⟨x, ho.stated, name_mem_names hcarries.name_ne_nil⟩
      obtain rfl := hP.apart h.reached hreached hn hn'
      rw [h.parsing] at hresolved
      cases hresolved
  namespaces := hsp.namespaces.trans h.namespaces
  importShares shares hin := h.importShares shares (hsp.importShares ▸ hin)

end Graft

/-- The importer notes the module, and takes the share list of the import. -/
theorem Linking.noted (h : Linking P key m done f s) (j : Key) :
    Linking P key m done { f with importShares := f.importShares.tail }
      (s.updateRecord key fun r => { r with importedModuleKeys := r.importedModuleKeys ++ [j] }) := by
  have hrecord : ∀ k, ∃ keys, (s.updateRecord key fun r =>
      { r with importedModuleKeys := r.importedModuleKeys ++ [j] }).records k =
        { s.records k with importedModuleKeys := keys } := by
    intro k
    by_cases hk : k = key
    · subst hk
      exact ⟨_, Function.update_self k _ _⟩
    · exact ⟨_, Function.update_of_ne hk _ _⟩
  generalize hs' : s.updateRecord key _ = s' at hrecord ⊢
  have hkeys : s'.moduleKeyByName = s.moduleKeyByName := hs' ▸ rfl
  have hexports : s'.exports = s.exports := hs' ▸ rfl
  have hscope : s'.effectiveScope = s.effectiveScope := hs' ▸ rfl
  have hstate : ∀ k, (s'.records k).state = (s.records k).state := fun k => by
    obtain ⟨keys, hk⟩ := hrecord k
    rw [hk]
  have hmodule : ∀ k, (s'.records k).module = (s.records k).module := fun k => by
    obtain ⟨keys, hk⟩ := hrecord k
    rw [hk]
  have hshares : ∀ k, (s'.records k).sharesByName = (s.records k).sharesByName := fun k => by
    obtain ⟨keys, hk⟩ := hrecord k
    rw [hk]
  have hstill : StillResolved s s' := fun k hk => ⟨(hstate k).trans hk, hmodule k⟩
  refine { h with
    outside := ⟨fun k hk => ?_, fun k n hk hn => ?_, ?_, ?_⟩
    parsing := (hstate key).trans h.parsing
    merged := h.merged.transfer hstill (hshares key)
    origins := fun n o ho => ?_
    ownShares := fun n hn => by rw [hshares]; exact h.ownShares n hn
    importShares := fun sh hsh => h.importShares sh (mem_of_mem_tail hsh) }
  · obtain ⟨body, hbody, hmerged⟩ := h.outside.modules k ((hstate k).symm.trans hk)
    exact ⟨body, (hmodule k).trans hbody, hmerged.transfer hstill (hshares k)⟩
  · rw [hkeys]
    exact h.outside.keys k n (by rwa [← hstate k]) hn
  · rw [hexports]
    exact h.outside.exported
  · rw [hscope]
    exact h.outside.inScope
  · obtain ⟨hn, ho⟩ := h.origins n o ho
    exact ⟨hn, by rwa [hstate]⟩

theorem importing (hP : P.Distinct) (h : Linking P key m done f s) {d : ImportDecl} {share : List Name}
    {j : Key} (hd : Statement.importDecl d ∈ P.bodyAt key) (himports : P.Imports key j)
    (hpath : resolveImportPath P.env d key = .ok j) (hj : (s.records j).state = .resolved)
    (hshare : share = [] ∨ share ∈ P.importSharesAt key) :
    ∃ C, Importing P s key (importContext s key m.bundles d share j) C := by
  obtain ⟨body, hbody, hmerged⟩ := h.outside.modules j hj
  obtain ⟨hns, halias⟩ := hP.plain h.reached hd
  have hc : (importContext s key m.bundles d share j).body = body := by
    rw [importContext, hbody]
    rfl
  refine ⟨closure body (if d.specifiers.map Specifier.importedName = [] then s.exports j
    else d.specifiers.map Specifier.importedName), ?_⟩
  refine
    { into := rfl
      plain := ⟨by simp only [importContext, hns, hbody], hns, fun r hr => ?_⟩
      stated := hd
      path := hpath
      imports := himports
      bundles := (bundlesAt_eq h.source).symm
      share := hshare
      record := rfl
      resolved := hj
      module := by rw [hc]; exact hbody
      merged := by rw [hc]; exact hmerged
      closed := by rw [hc]; rfl
      origin := fun n => rfl }
  obtain ⟨sp, hsp, rfl⟩ := ImportContext.mem_requestedRenames hr
  exact halias sp hsp

theorem Linking.imported (hP : P.Distinct) (h : Linking P key m done f s) {d : ImportDecl} {j : Key}
    (hd : Statement.importDecl d ∈ P.bodyAt key) (himports : P.Imports key j)
    (hpath : resolveImportPath P.env d key = .ok j) (hj : (s.records j).state = .resolved) :
    Ends (importResolved key m.bundles d (f.importShares.headD []) j
        { f with importShares := f.importShares.tail } s)
      (fun f' s' => Linking P key m (done ++ [.importDecl d]) f' s') (fun _ _ => True) := by
  have hshare : f.importShares.headD [] = [] ∨ f.importShares.headD [] ∈ P.importSharesAt key := by
    cases hshares : f.importShares with
    | nil => exact .inl rfl
    | cons share rest => exact .inr (h.importShares share (by simp [hshares]))
  have hne : j ≠ key := by
    rintro rfl
    rw [h.parsing] at hj
    cases hj
  unfold importResolved
  refine ends_update (ends_get (ends_update ?_))
  have h₁ := h.noted j
  have hj₁ : ((s.updateRecord key fun r =>
      { r with importedModuleKeys := r.importedModuleKeys ++ [j] }).records j).state = .resolved := by
    rwa [(SameAt.updateRecord s _ hne).state]
  generalize s.updateRecord key _ = s₁ at h₁ hj₁ ⊢
  obtain ⟨C, hc⟩ := importing hP h₁ hd himports hpath hj₁ hshare
  have hsome : (importContext s₁ key m.bundles d (f.importShares.headD []) j).imported.module.isNone =
      false := by
    rw [hc.record, hc.module]
    rfl
  rw [hsome, if_neg Bool.false_ne_true]
  refine (splice_plain hc.plain (hc.privateMangled_nil h₁) _).mono (fun f' s' hsp => ?_) fun _ _ h => h
  obtain ⟨sh, rfl, hsh, hcopies⟩ := hsp.shares
  rw [records_grant] at hsh
  exact (grafted s₁ hc.into hc.plain.noNamespace sh).linking hP h₁ hc hsp hsh hcopies

end Import

/-- **What holds along every resolution** of modules with distinct names. -/
def linked {P : Program} (hP : P.Distinct) : Invariant P.env P.root P.source where
  between := Linked P
  within := Linking P
  spelled h := h.spelled _ _
  start hsound h hentered hstate hsource := h.start hP hsound hentered hstate hsource
  outside h := h.outside
  own h hstmt _ := h.own (by rwa [Program.bodyAt_eq h.source]) fun _ hsh => hsh
  skipped _ h hstmt := h.own (by rwa [Program.bodyAt_eq h.source]) fun _ hsh => mem_of_mem_tail hsh
  nested h _ _ _ hs' honward _ := h.nested hs' honward
  imported h hsound _ hsource hstmt himports hpath hj :=
    h.imported hP (by rwa [Program.bodyAt_eq hsource]) himports hpath ((hsound.resolved _).mpr hj)
  finish h _ _ hsource := by
    rw [← Program.bodyAt_eq hsource] at h
    exact h.finish

end Vyb.Modules
