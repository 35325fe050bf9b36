/-
  Subject:   The recursion of `resolveModule`, and a rule for what holds along it.

  A module is on the stack while its imports are resolved, and behind them in `topologicalOrder`. What
  an import does besides (grants, splice) does not touch the stack, the order or the states, and a
  resolution leaves the modules alone that it finds parsed or on the stack.

  * `Imports`, `Cyclic` -- the import graph of a file system, the synthetic imports included;
  * `splice_sharesOnly` -- what a splice changes in the registry;
  * `Sound` -- the invariant; `Sound.enter`, `Sound.finish` -- its two steps;
  * `resolveModule_stack` -- the stack at both ends of a resolution;
  * `Onward` -- what a resolution leaves alone;
  * `Invariant` -- a property between modules and one within a module that imply each other step by
    step; **`resolveModule_run`**, `resolveRoot_run` -- every resolution keeps them.
-/
import Vyb.Lib.Actions
import Vyb.Lib.Precedence
import Vyb.Modules.Registry

namespace Vyb.Modules

open Lib Relation List Function Registry

/-! ## 1. The import graph -/

section Graph

variable (env : Environment) (root : Key) (rootSource : Source)

/-- The source of a module; that of the root is given. -/
def sourceAt (k : Key) : Option Source := if k = root then some rootSource else env.readSourceFile k

/-- The module at `k` has an import of the file `j`. -/
def Imports (k j : Key) : Prop :=
  env.skipImportResolution = false ∧ ∃ m d, sourceAt env root rootSource k = some (.ok m) ∧
    Statement.importDecl d ∈ (withCoreImport env k m).body ∧ resolveImportPath env d k = .ok j

/-- A cycle that the root reaches. -/
def Cyclic : Prop :=
  ∃ k, ReflTransGen (Imports env root rootSource) root k ∧ TransGen (Imports env root rootSource) k k

end Graph

theorem resolveImportPath_mem {env : Environment} {d : ImportDecl} {k j : Key}
    (h : resolveImportPath env d k = .ok j) : j ∈ env.files ∧ env.normalizePath j = j := by
  unfold resolveImportPath at h
  split at h
  · cases h
  split at h
  · cases h
  split at h
  · rename_i path hfind
    obtain rfl := Except.ok.inj h
    refine ⟨by simpa using find?_some hfind, ?_⟩
    have hmem := mem_of_find?_eq_some hfind
    unfold candidates at hmem
    split at hmem
    · rw [mem_singleton.mp hmem]
      exact env.normalize_idem _
    · obtain ⟨r, -, hmem⟩ := mem_flatMap.mp hmem
      rcases mem_pair.mp hmem with rfl | rfl
      · exact env.normalize_idem _
      · exact env.normalize_idem _
  · cases h

/-! ## 2. What a splice leaves alone -/

namespace ResolveError

/-- Not an error of the recursion itself. -/
def isOther : ResolveError → Bool
  | .circularImport _ _ _ | .previouslyFailed _ | .moduleMissing _ | .outOfFuel => false
  | _ => true

def isCircular : ResolveError → Bool
  | .circularImport _ _ _ => true
  | _ => false

theorem isOther_importedFrom (e : ResolveError) (key : Key) (line : Nat) :
    (e.importedFrom key line).isOther = e.isOther := by
  cases e <;> rfl

theorem isCircular_importedFrom (e : ResolveError) (key : Key) (line : Nat) :
    (e.importedFrom key line).isCircular = e.isCircular := by
  cases e <;> rfl

end ResolveError

def Registry.withShares (s : Registry) (key : Key) (shares : List (Name × List Name)) : Registry :=
  s.updateRecord key fun r => { r with sharesByName := shares }

theorem Registry.withShares_withShares (s : Registry) (key : Key) (sh sh' : List (Name × List Name)) :
    (s.withShares key sh).withShares key sh' = s.withShares key sh' := by
  simp [withShares, updateRecord]

theorem Registry.withShares_self (s : Registry) (key : Key) :
    s.withShares key (s.records key).sharesByName = s := by
  simp [withShares, updateRecord]

/-- At both ends only the share lists of the record `key` may have changed. -/
def SharesOnly {α : Type} (key : Key) (x : Resolve α) : Prop :=
  ∀ s, Ends (x s) (fun _ s' => ∃ sh, s' = s.withShares key sh)
    (fun e s' => (∃ sh, s' = s.withShares key sh) ∧ e.isOther = true)

section SharesOnly

variable {α β ι : Type} {key : Key}

theorem sharesOnly_pure (a : α) : SharesOnly key (pure a : Resolve α) := fun s =>
  ends_pure ⟨_, (s.withShares_self key).symm⟩

theorem sharesOnly_throw {e : ResolveError} (he : e.isOther = true) :
    SharesOnly key (throw e : Resolve α) := fun s =>
  ends_throw ⟨⟨_, (s.withShares_self key).symm⟩, he⟩

theorem SharesOnly.bind {x : Resolve α} {f : α → Resolve β} (hx : SharesOnly key x)
    (hf : ∀ a, SharesOnly key (f a)) : SharesOnly key (x >>= f) := by
  intro s
  -- the second part starts from the shares that the first one left
  have hrest : ∀ a s', (∃ sh, s' = s.withShares key sh) →
      Ends (f a s') (fun _ s'' => ∃ sh, s'' = s.withShares key sh)
        (fun e s'' => (∃ sh, s'' = s.withShares key sh) ∧ e.isOther = true) := by
    intro a s' hs'
    obtain ⟨sh, rfl⟩ := hs'
    refine (hf a (s.withShares key sh)).mono ?_ ?_
    · intro b s'' hs''
      obtain ⟨sh', rfl⟩ := hs''
      exact ⟨sh', s.withShares_withShares key sh sh'⟩
    · intro e s'' hs''
      obtain ⟨⟨sh', rfl⟩, he⟩ := hs''
      exact ⟨⟨sh', s.withShares_withShares key sh sh'⟩, he⟩
  exact ends_bind ((hx s).mono (fun _ _ h => h) fun _ _ h => h) hrest

theorem sharesOnly_foldlM {f : β → ι → Resolve β} (hf : ∀ b i, SharesOnly key (f b i)) :
    ∀ (l : List ι) (b : β), SharesOnly key (l.foldlM f b)
  | [], b => sharesOnly_pure b
  | i :: l, b => by
    rw [foldlM_cons]
    exact (hf b i).bind fun b' => sharesOnly_foldlM hf l b'

end SharesOnly

section Splice

variable (c : ImportContext)

theorem carryShare_sharesOnly (originName localName : Name) :
    SharesOnly c.key (carryShare c originName localName) := by
  unfold carryShare
  split
  · exact fun s => ends_modify ⟨_, rfl⟩
  · split
    · exact sharesOnly_pure _
    · exact fun s => ends_modify ⟨_, rfl⟩

theorem place_sharesOnly (st : Splice) (originName name : Name) (stmt : Statement) :
    SharesOnly c.key (place c st originName name stmt) :=
  (carryShare_sharesOnly c originName name).bind fun _ => sharesOnly_pure _

theorem spliceBind_sharesOnly (st : Splice) (b : Bind) : SharesOnly c.key (spliceBind c st b) := by
  simp only [spliceBind]
  split
  · exact sharesOnly_pure st
  split
  · exact sharesOnly_pure st
  split
  · split
    · exact sharesOnly_pure st
    · exact sharesOnly_throw rfl
  · exact place_sharesOnly c st _ _ _

variable (mangled : List (Name × Name))

theorem spliceDecl_sharesOnly (st : Splice) (d : Decl) :
    SharesOnly c.key (spliceDecl c mangled st d) := by
  unfold spliceDecl
  split
  · exact sharesOnly_pure st
  simp only
  split
  · exact sharesOnly_pure st
  split
  · split
    · exact sharesOnly_pure _
    split
    · exact sharesOnly_pure _
    · exact sharesOnly_throw rfl
  split
  · split
    · exact sharesOnly_throw rfl
    · exact place_sharesOnly c _ _ _ _
  · exact place_sharesOnly c _ _ _ _

theorem spliceStatement_sharesOnly (st : Splice) (stmt : Statement) :
    SharesOnly c.key (spliceStatement c mangled st stmt) := by
  unfold spliceStatement
  split
  · exact sharesOnly_throw rfl
  split
  · exact spliceBind_sharesOnly c st _
  · split
    · exact sharesOnly_pure st
    · exact spliceDecl_sharesOnly c mangled st _
  · exact sharesOnly_pure st

/-- A splice changes the importer's share lists and nothing else of the registry. -/
theorem splice_sharesOnly (f : Frame) : SharesOnly c.key (splice c f) := by
  refine (sharesOnly_foldlM (spliceStatement_sharesOnly c _) _ _).bind fun st => ?_
  cases st.requestedNames with
  | cons missing rest => exact sharesOnly_throw rfl
  | nil =>
    cases c.decl.namespaceImport with
    | some ns | none => exact sharesOnly_pure _

end Splice

/-! ## 3. Where a resolution stands -/

/-- The part of the registry that steers the recursion. -/
structure Progress where
  stack : List Key
  order : List Key
  state : Key → ModuleState

def Registry.progress (s : Registry) : Progress :=
  ⟨s.activeStack, s.topologicalOrder, fun k => (s.records k).state⟩

namespace Progress

def enter (p : Progress) (key : Key) : Progress :=
  { p with stack := p.stack ++ [key], state := Function.update p.state key .parsing }

/-- The module is done, and still on the stack. -/
def finish (p : Progress) (key : Key) : Progress :=
  { p with order := p.order ++ [key], state := Function.update p.state key .resolved }

def leave (p : Progress) : Progress := { p with stack := p.stack.dropLast }

end Progress

attribute [local simp] Registry.updateRecord Progress.enter Progress.finish Progress.leave

section Progress

variable (s : Registry) (key : Key) (f : ModuleRecord → ModuleRecord)

theorem state_updateRecord (k : Key) :
    ((s.updateRecord key f).records k).state =
      Function.update (fun k => (s.records k).state) key (f (s.records key)).state k := by
  by_cases hk : k = key
  · subst hk
    simp
  · simp [hk]

theorem progress_updateRecord
    (hf : (f (s.records key)).state = (s.records key).state) :
    (s.updateRecord key f).progress = s.progress := by
  have hstate : (fun k => ((s.updateRecord key f).records k).state) = fun k => (s.records k).state := by
    funext k
    rw [state_updateRecord, hf, update_eq_self]
  simp only [progress, hstate]
  rfl

theorem progress_withShares (sh : List (Name × List Name)) :
    (s.withShares key sh).progress = s.progress := progress_updateRecord s key _ rfl

theorem progress_declare (m : ModuleSource) : (s.declare key m).progress = s.progress :=
  progress_updateRecord s key (fun r =>
    { r with bundles := m.bundles, sharesByName := m.sharesByName, importedModuleKeys := [] }) rfl

theorem progress_grant (c : ImportContext) : (s.grant c).progress = s.progress := by
  unfold Registry.grant
  split <;> rfl

theorem progress_enter : (s.enter key).progress = s.progress.enter key := by
  have hstate := state_updateRecord s key fun r => { r with state := .parsing }
  simp only [progress, enter, Progress.enter, hstate]
  rfl

theorem progress_finish (f : Frame) : (s.finish key f).progress = s.progress.finish key := by
  have hstate := state_updateRecord s key fun r =>
    { r with module := some (rewrittenBody f), state := .resolved }
  simp only [progress, finish, Progress.finish, hstate]
  rfl

end Progress

/-- What an import does once its module is resolved does not concern the recursion. -/
theorem importResolved_progress (key : Key) (bundles : List Name) (d : ImportDecl) (importShare : List Name)
    (importedKey : Key) (f : Frame) (s : Registry) :
    Ends (importResolved key bundles d importShare importedKey f s)
      (fun _ s' => s'.progress = s.progress)
      (fun e s' => s'.progress = s.progress ∧ e.isOther = true) := by
  unfold importResolved
  refine ends_update (ends_get (ends_update ?_))
  generalize hs₁ : updateRecord s key _ = s₁
  have h₁ : s₁.progress = s.progress := hs₁ ▸ progress_updateRecord s key _ rfl
  have h₂ := (progress_grant s₁ (importContext s₁ key bundles d importShare importedKey)).trans h₁
  split
  · exact ends_pure h₂
  · refine (splice_sharesOnly _ f _).mono (fun _ s' h => ?_) fun e s' h => ?_
    · obtain ⟨sh, rfl⟩ := h
      rw [progress_withShares, h₂]
    · obtain ⟨⟨sh, rfl⟩, he⟩ := h
      exact ⟨by rw [progress_withShares, h₂], he⟩

/-! ## 4. The invariant -/

section Soundness

variable (env : Environment) (root : Key) (rootSource : Source)

/-- The modules on the stack are those that are being parsed, each imported by the one below it; the
    resolved ones are in order. -/
structure Sound (p : Progress) : Prop where
  resolved : ∀ k, p.state k = .resolved ↔ k ∈ p.order
  parsing : ∀ k, p.state k = .parsing ↔ k ∈ p.stack
  failed : ∀ k, p.state k ≠ .failed
  sorted : InOrder (Imports env root rootSource) p.order
  reached : ∀ k, k ∈ p.order ∨ k ∈ p.stack → ReflTransGen (Imports env root rootSource) root k
  chain : p.stack.IsChain (Imports env root rootSource)
  nodup : p.stack.Nodup
  located : ∀ k ∈ p.stack, k = root ∨ k ∈ env.files
  rooted : ∀ x ∈ p.stack.head?, x = root

/-- The module at `k` is about to be resolved: it is the root, or the top of the stack imports it. -/
structure Entered (p : Progress) (k : Key) : Prop where
  first : p.stack = [] → k = root
  imported : ∀ x ∈ p.stack.getLast?, Imports env root rootSource x k
  located : k = root ∨ k ∈ env.files

variable {env root rootSource} {p : Progress} {k : Key}

variable (hp : Sound env root rootSource p)
include hp

theorem Entered.reached (hk : Entered env root rootSource p k) :
    ReflTransGen (Imports env root rootSource) root k := by
  cases hlast : p.stack.getLast? with
  | none =>
    rw [hk.first (getLast?_eq_none_iff.mp hlast)]
  | some x =>
    have hx : x ∈ p.stack := mem_of_getLast? hlast
    exact (hp.reached x (.inr hx)).tail (hk.imported x hlast)

/-- A module that is being parsed is imported again only on a cycle. -/
theorem Entered.cyclic (hk : Entered env root rootSource p k)
    (hstate : p.state k = .parsing) : Cyclic env root rootSource := by
  have hmem := (hp.parsing k).mp hstate
  obtain ⟨l, x, hstack⟩ := (eq_nil_or_concat p.stack).resolve_left (ne_nil_of_mem hmem)
  rw [concat_eq_append] at hstack
  have hlast : Imports env root rootSource x k := hk.imported x (by simp [hstack])
  have hchain := hp.chain
  rw [hstack] at hchain hmem
  exact ⟨k, hk.reached hp, .tail' (reaches_last hchain k hmem) hlast⟩

/-- There is room on the stack for every file and the root. -/
theorem Sound.length_stack : p.stack.length ≤ env.files.length + 1 := by
  have hsub : p.stack ⊆ root :: env.files := fun k hk => mem_cons.mpr (hp.located k hk)
  simpa using (hp.nodup.subperm hsub).length_le

theorem Sound.enter (hk : Entered env root rootSource p k)
    (hstate : p.state k = .unresolved) : Sound env root rootSource (p.enter k) := by
  have hstack : k ∉ p.stack := fun h => by
    rw [(hp.parsing k).mpr h] at hstate
    cases hstate
  have horder : k ∉ p.order := fun h => by
    rw [(hp.resolved k).mpr h] at hstate
    cases hstate
  have hother : ∀ {j}, j ≠ k → (p.enter k).state j = p.state j := fun hj =>
    update_of_ne hj _ _
  have hself : (p.enter k).state k = .parsing := update_self k _ _
  refine ⟨fun j => ?_, fun j => ?_, fun j => ?_, hp.sorted, fun j hj => ?_, ?_, ?_, fun j hj => ?_,
    fun x hx => ?_⟩
  · by_cases hj : j = k
    · subst hj
      rw [hself]
      exact ⟨nofun, fun h => absurd h horder⟩
    · rw [hother hj]
      exact hp.resolved j
  · by_cases hj : j = k
    · subst hj
      simp
    · rw [hother hj, hp.parsing j]
      simp [hj]
  · by_cases hj : j = k
    · subst hj
      rw [hself]
      exact nofun
    · rw [hother hj]
      exact hp.failed j
  · rcases hj with hj | hj
    · exact hp.reached j (.inl hj)
    · rcases mem_append.mp hj with hj | hj
      · exact hp.reached j (.inr hj)
      · rw [mem_singleton.mp hj]
        exact hk.reached hp
  · exact isChain_append.mpr ⟨hp.chain, .singleton k, fun x hx y hy => by
      obtain rfl : k = y := by simpa using hy
      exact hk.imported x hx⟩
  · exact hp.nodup.append (nodup_singleton k) (by simpa using hstack)
  · rcases mem_append.mp hj with hj | hj
    · exact hp.located j hj
    · rw [mem_singleton.mp hj]
      exact hk.located
  · by_cases hnil : p.stack = []
    · rw [← hk.first hnil]
      simpa [hnil, eq_comm] using hx
    · refine hp.rooted x ?_
      rwa [Progress.enter, head?_append_of_ne_nil _ hnil] at hx

/-- The module on top of the stack is done. -/
theorem Sound.finish {l : List Key} (hstack : p.stack = l ++ [k])
    (himports : ∀ j, Imports env root rootSource k j → j ∈ p.order) :
    Sound env root rootSource (p.finish k).leave := by
  have hstate : p.state k = .parsing := (hp.parsing k).mpr (by simp [hstack])
  have horder : k ∉ p.order := fun h => by
    rw [(hp.resolved k).mpr h] at hstate
    cases hstate
  have hnodup := hp.nodup
  rw [hstack] at hnodup
  have hl : k ∉ l := fun h => disjoint_of_nodup_append hnodup h (mem_singleton_self k)
  have hleft : (p.finish k).leave.stack = l := by simp [hstack]
  have hsub : ∀ j ∈ l, j ∈ p.stack := fun j hj => by simp [hstack, hj]
  have hother : ∀ {j}, j ≠ k → (p.finish k).leave.state j = p.state j := fun hj =>
    update_of_ne hj _ _
  have hself : (p.finish k).leave.state k = .resolved := update_self k _ _
  refine ⟨fun j => ?_, fun j => ?_, fun j => ?_, hp.sorted.snoc horder himports, fun j hj => ?_, ?_,
    ?_, fun j hj => ?_, fun x hx => ?_⟩
  · by_cases hj : j = k
    · subst hj
      simp
    · rw [hother hj, hp.resolved j]
      simp [hj]
  · rw [hleft]
    by_cases hj : j = k
    · subst hj
      simpa [hself] using hl
    · rw [hother hj, hp.parsing j, hstack]
      simp [hj]
  · by_cases hj : j = k
    · subst hj
      rw [hself]
      exact nofun
    · rw [hother hj]
      exact hp.failed j
  · rw [hleft] at hj
    rcases hj with hj | hj
    · rcases mem_append.mp hj with hj | hj
      · exact hp.reached j (.inl hj)
      · rw [mem_singleton.mp hj]
        exact hp.reached k (.inr (by simp [hstack]))
    · exact hp.reached j (.inr (hsub j hj))
  · rw [hleft]
    have hchain := hp.chain
    rw [hstack] at hchain
    exact hchain.left_of_append
  · rw [hleft]
    exact hnodup.of_append_left
  · rw [hleft] at hj
    exact hp.located j (hsub j hj)
  · rw [hleft] at hx
    refine hp.rooted x ?_
    rw [hstack, head?_append_of_ne_nil _ (by rintro rfl; simp at hx)]
    exact hx

end Soundness

theorem activeStack_eq {s s' : Registry} (h : s'.progress = s.progress) : s'.activeStack = s.activeStack :=
  congrArg Progress.stack h

/-! ## 5. The stack -/

section Stack

variable (env : Environment)

theorem resolveImportPath_isOther {d : ImportDecl} {k : Key} {e : ResolveError}
    (h : resolveImportPath env d k = .error e) : e.isOther = true := by
  unfold resolveImportPath at h
  split at h
  · exact Except.error.inj h ▸ rfl
  split at h
  · exact Except.error.inj h ▸ rfl
  split at h
  · cases h
  · exact Except.error.inj h ▸ rfl

theorem locate_ends (key : Key) (d : ImportDecl) (s : Registry) :
    Ends (locate env key d s)
      (fun r s' => s' = s ∧ resolveImportPath env d key = .ok r.1 ∧ env.readSourceFile r.1 = some r.2)
      (fun e s' => s' = s ∧ e.isOther = true) := by
  unfold locate
  cases hpath : resolveImportPath env d key with
  | error e => exact ends_throw ⟨rfl, resolveImportPath_isOther env hpath⟩
  | ok path =>
    simp only
    split
    · exact ends_throw ⟨rfl, rfl⟩
    · cases hsource : env.readSourceFile path with
      | none => exact ends_throw ⟨rfl, rfl⟩
      | some source => exact ends_pure ⟨rfl, rfl, hsource⟩

variable {resolve : Key → Source → Name → Resolve Key}

section

variable (hresolve : ∀ path source spelling, Keeps Registry.activeStack (resolve path source spelling)) (key : Key)
include hresolve

theorem resolveStatement_stack (bundles : List Name) (f : Frame) (stmt : Statement) :
    Keeps Registry.activeStack (resolveStatement env resolve key bundles f stmt) := by
  unfold resolveStatement
  split
  · simp only
    split
    · exact keeps_throw _
    split
    · exact keeps_pure _
    · refine Keeps.bind (fun s => ?_) fun r => Keeps.bind ((hresolve _ _ _).tryCatch fun e =>
        keeps_throw _) fun importedKey s => ?_
      · exact (locate_ends env key _ s).mono (fun _ _ h => congrArg _ h.1) fun _ _ h => congrArg _ h.1
      · exact (importResolved_progress key bundles _ _ importedKey _ s).mono
          (fun _ _ h => congrArg Progress.stack h) fun _ _ h => congrArg Progress.stack h.1
  · exact keeps_pure _

theorem resolveBody_stack (source : Source) : Keeps Registry.activeStack (resolveBody env resolve key source) := by
  unfold resolveBody
  split
  · exact keeps_throw _
  · exact keeps_throw _
  · refine Keeps.bind ?_ fun _ => Keeps.bind ?_ fun f => ?_
    · exact keeps_modify fun _ => rfl
    · exact keeps_foldlM (resolveStatement_stack env hresolve key _) _ _
    · exact keeps_modify fun _ => rfl

end

/-- **The stack** is at both ends what it was at the start. -/
theorem resolveModule_stack : ∀ (fuel : Nat) (path : Key) (source : Source) (spelling : Name),
    Keeps Registry.activeStack (resolveModule env fuel path source spelling)
  | 0, _, _, _ => keeps_throw _
  | fuel + 1, path, source, spelling => by
    rw [resolveModule]
    refine Keeps.bind ?_ fun _ => keeps_get fun s₁ => ?_
    · exact keeps_modify fun _ => rfl
    split
    · exact keeps_pure _
    · exact keeps_throw _
    · exact keeps_throw _
    · intro s
      have hleave : ∀ s' : Registry, s'.activeStack = (s.enter (env.normalizePath path)).activeStack →
          s'.leave.activeStack = s.activeStack := fun s' hs' => by
        rw [Registry.leave, hs', enter, dropLast_concat]
      refine ends_update (ends_bind (ends_tryCatch
        (resolveBody_stack env (resolveModule_stack fuel) _ source _) fun e s' hs' => ?_)
        fun _ s' hs' => ?_)
      · exact ends_update (ends_throw (hleave s' hs'))
      · exact ends_update (ends_pure (hleave s' hs'))

end Stack

/-! ## 6. What a resolution leaves alone -/

/-- The two registries have the same about the module `k`, up to the spelling of its last import. -/
structure SameAt (s s' : Registry) (k : Key) : Prop where
  record : ∃ spelling, s'.records k = { s.records k with importSpelling := spelling }
  scope : s'.effectiveScope k = s.effectiveScope k
  exports : s'.exports k = s.exports k
  allNames : s'.allNames k = s.allNames k

namespace SameAt

variable {s s' s'' : Registry} {k key : Key}

theorem refl (s : Registry) (k : Key) : SameAt s s k := ⟨⟨_, rfl⟩, rfl, rfl, rfl⟩

theorem trans (h : SameAt s s' k) (h' : SameAt s' s'' k) : SameAt s s'' k := by
  obtain ⟨sp, hrecord⟩ := h.record
  obtain ⟨sp', hrecord'⟩ := h'.record
  exact ⟨⟨sp', by rw [hrecord', hrecord]⟩, h'.scope.trans h.scope, h'.exports.trans h.exports,
    h'.allNames.trans h.allNames⟩

theorem state (h : SameAt s s' k) : (s'.records k).state = (s.records k).state := by
  obtain ⟨sp, hrecord⟩ := h.record
  rw [hrecord]

theorem module (h : SameAt s s' k) : (s'.records k).module = (s.records k).module := by
  obtain ⟨sp, hrecord⟩ := h.record
  rw [hrecord]

theorem updateRecord (s : Registry) (f : ModuleRecord → ModuleRecord) (hk : k ≠ key) :
    SameAt s (s.updateRecord key f) k :=
  ⟨⟨(s.records k).importSpelling, update_of_ne hk _ _⟩, rfl, rfl, rfl⟩

theorem spelled (s : Registry) (key : Key) (spelling : Name) (k : Key) :
    SameAt s (s.updateRecord key fun r => { r with importSpelling := spelling }) k := by
  by_cases hk : k = key
  · subst hk
    exact ⟨⟨spelling, update_self k _ _⟩, rfl, rfl, rfl⟩
  · exact .updateRecord s _ hk

theorem declare (s : Registry) (m : ModuleSource) (hk : k ≠ key) : SameAt s (s.declare key m) k :=
  ⟨⟨(s.records k).importSpelling, update_of_ne hk _ _⟩, update_of_ne hk _ _, update_of_ne hk _ _, rfl⟩

theorem grant (s : Registry) (c : ImportContext) (hk : k ≠ c.key) : SameAt s (s.grant c) k := by
  unfold Registry.grant
  split
  · exact .refl s k
  · exact ⟨⟨_, rfl⟩, update_of_ne hk _ _, update_of_ne hk _ _, rfl⟩

theorem finish (s : Registry) (f : Frame) (hk : k ≠ key) : SameAt s (s.finish key f) k :=
  ⟨⟨(s.records k).importSpelling, update_of_ne hk _ _⟩, rfl, rfl, update_of_ne hk _ _⟩

theorem enter (s : Registry) (hk : k ≠ key) : SameAt s (s.enter key) k :=
  ⟨⟨(s.records k).importSpelling, update_of_ne hk _ _⟩, rfl, rfl, rfl⟩

theorem leave (s : Registry) (k : Key) : SameAt s s.leave k := ⟨⟨_, rfl⟩, rfl, rfl, rfl⟩

end SameAt

/-- A resolution leaves alone what is resolved, or being resolved. -/
def Onward (s s' : Registry) : Prop := ∀ k, (s.records k).state ≠ .unresolved → SameAt s s' k

/-- What an import does once its module is resolved concerns the importer. -/
theorem importResolved_sameAt (key : Key) (bundles : List Name) (d : ImportDecl) (importShare : List Name)
    (importedKey : Key) (f : Frame) (s : Registry) :
    Ends (importResolved key bundles d importShare importedKey f s)
      (fun _ s' => ∀ k, k ≠ key → SameAt s s' k) (fun _ _ => True) := by
  unfold importResolved
  refine ends_update (ends_get (ends_update ?_))
  generalize hs₁ : updateRecord s key _ = s₁
  have h₂ : ∀ k, k ≠ key →
      SameAt s (s₁.grant (importContext s₁ key bundles d importShare importedKey)) k := fun k hk => by
    subst hs₁
    exact (SameAt.updateRecord s _ hk).trans (.grant _ _ hk)
  split
  · exact ends_pure h₂
  · refine (splice_sharesOnly _ f _).mono (fun _ s' h k hk => ?_) fun e s' h => trivial
    obtain ⟨sh, rfl⟩ := h
    exact (h₂ k hk).trans (.updateRecord _ _ hk)

/-! ## 7. The rule -/

section Run

variable (env : Environment) (root : Key) (rootSource : Source)

/-- A property `between` of the registry, and one `within` a module: of the statements that are done,
    the frame and the registry. -/
structure Invariant where
  between : Registry → Prop
  within : Key → ModuleSource → List Statement → Frame → Registry → Prop
  spelled : ∀ {s key spelling}, between s →
    between (s.updateRecord key fun r => { r with importSpelling := spelling })
  start : ∀ {s key m}, Sound env root rootSource s.progress → between s →
    Entered env root rootSource s.progress key → (s.records key).state = .unresolved →
    sourceAt env root rootSource key = some (.ok m) →
    within key m [] (.start (withCoreImport env key m).importShares) ((s.enter key).declare key m)
  outside : ∀ {key m done f s}, within key m done f s → between s
  /-- a statement that stays in the module -/
  own : ∀ {key m done f s stmt}, within key m done f s → stmt ∈ (withCoreImport env key m).body →
    (∀ d, stmt ≠ .importDecl d) → within key m (done ++ [stmt]) (f.own key stmt) s
  /-- an import that is not resolved -/
  skipped : ∀ {key m done f s d}, env.skipImportResolution = true → within key m done f s →
    Statement.importDecl d ∈ (withCoreImport env key m).body →
    within key m (done ++ [.importDecl d])
      (({ f with importShares := f.importShares.tail } : Frame).own key (.importDecl d)) s
  /-- the resolution of another module -/
  nested : ∀ {key m done f s s'}, within key m done f s → key ∈ s.activeStack →
    Sound env root rootSource s.progress → Sound env root rootSource s'.progress → between s' →
    Onward s s' → s.topologicalOrder ⊆ s'.topologicalOrder → within key m done f s'
  imported : ∀ {key m done f s d j}, within key m done f s → Sound env root rootSource s.progress →
    key ∈ s.activeStack → sourceAt env root rootSource key = some (.ok m) →
    Statement.importDecl d ∈ (withCoreImport env key m).body → Imports env root rootSource key j →
    resolveImportPath env d key = .ok j → j ∈ s.topologicalOrder →
    Ends (importResolved key m.bundles d (f.importShares.headD []) j
        { f with importShares := f.importShares.tail } s)
      (fun f' s' => within key m (done ++ [.importDecl d]) f' s') (fun _ _ => True)
  finish : ∀ {key m f s}, within key m (withCoreImport env key m).body f s →
    Sound env root rootSource s.progress → key ∈ s.activeStack →
    sourceAt env root rootSource key = some (.ok m) → between (s.finish key f).leave

variable {env root rootSource}

/-- The recursion itself fails only by finding a cycle. -/
def Failing (env : Environment) (root : Key) (rootSource : Source) (e : ResolveError) : Prop :=
  e.isOther = true ∨ e.isCircular = true ∧ Cyclic env root rootSource

variable (inv : Invariant env root rootSource)

/-- The module at `key` is resolved, and what was resolved before still is. -/
structure Done (s : Registry) (key : Key) (s' : Registry) : Prop where
  sound : Sound env root rootSource s'.progress
  holds : inv.between s'
  onward : Onward s s'
  stack : s'.activeStack = s.activeStack
  order : s.topologicalOrder ⊆ s'.topologicalOrder
  resolved : key ∈ s'.topologicalOrder

/-- What the loop over the statements of the module `key` has done after `done`. -/
structure Looping (s : Registry) (key : Key) (m : ModuleSource) (done : List Statement) (f : Frame)
    (s' : Registry) : Prop where
  sound : Sound env root rootSource s'.progress
  holds : inv.within key m done f s'
  same : ∀ k, k ≠ key → (s.records k).state ≠ .unresolved → SameAt s s' k
  stack : s'.activeStack = s.activeStack
  order : s.topologicalOrder ⊆ s'.topologicalOrder
  imported : env.skipImportResolution = false → ∀ d, Statement.importDecl d ∈ done →
    ∀ j, resolveImportPath env d key = .ok j → j ∈ s'.topologicalOrder

/-- `resolve` resolves every module that may be entered. -/
def Resolves (length : Nat) (resolve : Key → Source → Name → Resolve Key) : Prop :=
  ∀ path source spelling s, Sound env root rootSource s.progress → inv.between s →
    Entered env root rootSource s.progress (env.normalizePath path) →
    ((s.records (env.normalizePath path)).state = .unresolved →
      sourceAt env root rootSource (env.normalizePath path) = some source) →
    length ≤ s.activeStack.length →
    Ends (resolve path source spelling s)
      (fun k s' => k = env.normalizePath path ∧ Done inv s (env.normalizePath path) s')
      (fun e _ => Failing env root rootSource e)

/-- A file that the module on top of the stack imports may be entered. -/
theorem entered_import {s : Registry} {l : List Key} {key : Key} (hstack : s.activeStack = l ++ [key])
    {j : Key} (himports : Imports env root rootSource key j) : Entered env root rootSource s.progress j where
  first h := by
    rw [show s.progress.stack = s.activeStack from rfl, hstack] at h
    simp at h
  imported x hx := by
    rw [show s.progress.stack = s.activeStack from rfl, hstack] at hx
    obtain rfl : key = x := by simpa using hx
    exact himports
  located := by
    obtain ⟨-, m, d, -, -, hpath⟩ := himports
    exact .inr (resolveImportPath_mem hpath).1

/-- While a module is resolved the root is being parsed, so its file is not read again. -/
theorem sourceAt_of_unresolved {s : Registry} (hsound : Sound env root rootSource s.progress)
    (hstack : s.activeStack ≠ []) {j : Key} {source : Source} (hread : env.readSourceFile j = some source)
    (hstate : (s.records j).state = .unresolved) : sourceAt env root rootSource j = some source := by
  have hne : j ≠ root := by
    rintro rfl
    obtain ⟨x, xs, hx⟩ := exists_cons_of_ne_nil hstack
    have hx' : s.progress.stack = x :: xs := hx
    obtain rfl : x = j := hsound.rooted x (by simp [hx'])
    have hparsing := (hsound.parsing x).mpr (by simp [hx'])
    rw [show s.progress.state x = (s.records x).state from rfl, hstate] at hparsing
    cases hparsing
  rw [sourceAt, if_neg hne, hread]

variable {inv} {resolve : Key → Source → Name → Resolve Key} {key : Key} {s₀ : Registry} {l : List Key}
  {m : ModuleSource}

theorem withCoreImport_bundles (env : Environment) (key : Key) (m : ModuleSource) :
    (withCoreImport env key m).bundles = m.bundles := by
  unfold withCoreImport
  split <;> rfl

section

variable (hresolve : Resolves inv s₀.activeStack.length resolve)
include hresolve

theorem resolveStatement_looping
    (hsource : sourceAt env root rootSource key = some (.ok m)) (hstack : s₀.activeStack = l ++ [key])
    (done : List Statement) (stmt : Statement) (hstmt : stmt ∈ (withCoreImport env key m).body) (f : Frame)
    (s : Registry) (h : Looping inv s₀ key m done f s) :
    Ends (resolveStatement env resolve key m.bundles f stmt s)
      (fun f' s' => Looping inv s₀ key m (done ++ [stmt]) f' s')
      (fun e _ => Failing env root rootSource e) := by
  -- without an import to resolve the registry stays
  have hplain : ∀ f', inv.within key m (done ++ [stmt]) f' s →
      (env.skipImportResolution = false → ∀ d, stmt ≠ .importDecl d) →
      Looping inv s₀ key m (done ++ [stmt]) f' s := fun f' hholds hno =>
    { h with
      holds := hholds
      imported := fun hskip d hd j hj => by
        rcases mem_append.mp hd with hd | hd
        · exact h.imported hskip d hd j hj
        · exact absurd (mem_singleton.mp hd).symm (hno hskip d) }
  unfold resolveStatement
  split
  · rename_i d
    simp only
    split
    · exact ends_throw (.inl rfl)
    split
    · rename_i hskip
      exact ends_pure (hplain _ (inv.skipped hskip h.holds hstmt) fun hno => absurd hskip (by simp [hno]))
    rename_i hskip
    have hskip : env.skipImportResolution = false := by simpa using hskip
    refine ends_bind ((locate_ends env key d s).mono (fun _ _ h => h) fun _ _ h => .inl h.2)
      fun r s₁ hr => ?_
    obtain ⟨rfl, hpath, hread⟩ := hr
    have hnorm := (resolveImportPath_mem hpath).2
    have himports : Imports env root rootSource key r.1 := ⟨hskip, m, d, hsource, hstmt, hpath⟩
    have hstack₁ : s₁.activeStack = l ++ [key] := h.stack.trans hstack
    have hkey : key ∈ s₁.activeStack := by simp [hstack₁]
    have hentered := entered_import hstack₁ himports
    have hrun := hresolve r.1 r.2 d.spelling s₁ h.sound (inv.outside h.holds) (by rwa [hnorm])
      (by rw [hnorm]; exact sourceAt_of_unresolved h.sound (by simp [hstack₁]) hread)
      (by rw [h.stack])
    rw [hnorm] at hrun
    refine ends_bind (ends_tryCatch hrun fun e s' he => ends_throw ?_) fun importedKey s₂ hs₂ => ?_
    · rcases he with he | he
      · exact .inl (by rwa [ResolveError.isOther_importedFrom])
      · exact .inr (by rwa [ResolveError.isCircular_importedFrom])
    obtain ⟨rfl, hdone⟩ := hs₂
    have hkey₂ : key ∈ s₂.activeStack := by rwa [hdone.stack]
    have hwithin := inv.nested h.holds hkey h.sound hdone.sound hdone.holds hdone.onward hdone.order
    have himported := inv.imported hwithin hdone.sound hkey₂ hsource hstmt himports hpath hdone.resolved
    have hprogress := importResolved_progress key m.bundles d (f.importShares.headD []) r.1
      { f with importShares := f.importShares.tail } s₂
    have hsame := importResolved_sameAt key m.bundles d (f.importShares.headD []) r.1
      { f with importShares := f.importShares.tail } s₂
    refine ((hprogress.and himported).and hsame).mono (fun f' s₃ hs₃ => ?_) fun e _ he => .inl he.1.1.2
    obtain ⟨⟨hprogress₃, hwithin₃⟩, hsame₃⟩ := hs₃
    have horder : s₃.topologicalOrder = s₂.topologicalOrder := congrArg Progress.order hprogress₃
    refine ⟨hprogress₃ ▸ hdone.sound, hwithin₃, fun k hk hstate => ?_,
      (activeStack_eq hprogress₃).trans (hdone.stack.trans h.stack), ?_, ?_⟩
    · have hsame₁ := h.same k hk hstate
      exact (hsame₁.trans (hdone.onward k (by rwa [hsame₁.state]))).trans (hsame₃ k hk)
    · rw [horder]
      exact fun k hk => hdone.order (h.order hk)
    · intro _ d' hd' j hj
      rw [horder]
      rcases mem_append.mp hd' with hd' | hd'
      · exact hdone.order (h.imported hskip d' hd' j hj)
      · obtain rfl := Statement.importDecl.inj (mem_singleton.mp hd')
        rw [hpath] at hj
        exact Except.ok.inj hj ▸ hdone.resolved
  · rename_i hno
    exact ends_pure (hplain _ (inv.own h.holds hstmt fun d heq => hno d heq) fun _ d heq => hno d heq)

theorem resolveBody_finishes {source : Source}
    (hsource : sourceAt env root rootSource key = some source) (hstack : s₀.activeStack = l ++ [key])
    (hsound : Sound env root rootSource s₀.progress) (hstart : ∀ m, source = .ok m → inv.within key m []
      (.start (withCoreImport env key m).importShares) (s₀.declare key m)) :
    Ends (resolveBody env resolve key source s₀)
      (fun _ s' => Sound env root rootSource s'.leave.progress ∧ inv.between s'.leave ∧
        (∀ k, k ≠ key → (s₀.records k).state ≠ .unresolved → SameAt s₀ s' k) ∧
        key ∈ s'.topologicalOrder ∧ s₀.topologicalOrder ⊆ s'.topologicalOrder)
      (fun e _ => Failing env root rootSource e) := by
  unfold resolveBody
  split
  · exact ends_throw (.inl rfl)
  · exact ends_throw (.inl rfl)
  rename_i m
  have hloop : Looping inv s₀ key m [] (.start (withCoreImport env key m).importShares)
      (s₀.declare key m) :=
    { sound := by rwa [progress_declare]
      holds := hstart m rfl
      same := fun k hk _ => .declare s₀ m hk
      stack := rfl
      order := fun k hk => hk
      imported := fun _ d hd => absurd hd not_mem_nil }
  simp only [withCoreImport_bundles]
  refine ends_update (ends_bind (ends_foldlM hloop fun pre stmt f s hstmt h =>
    resolveStatement_looping hresolve hsource hstack pre stmt hstmt f s h) fun f s h => ?_)
  rw [nil_append] at h
  have hkey : key ∈ s.activeStack := by simp [h.stack, hstack]
  refine ends_modify ⟨?_, inv.finish h.holds h.sound hkey hsource, fun k hk hstate => ?_, ?_, ?_⟩
  · have hprogress : (s.finish key f).leave.progress = (s.progress.finish key).leave := by
      rw [← progress_finish s key f]
      rfl
    rw [hprogress]
    refine h.sound.finish (h.stack.trans hstack) fun j hj => ?_
    obtain ⟨hskip, m', d, hm', hd, hpath⟩ := hj
    obtain rfl : m = m' := Except.ok.inj (Option.some.inj (hsource.symm.trans hm'))
    exact h.imported hskip d hd j hpath
  · exact (h.same k hk hstate).trans (.finish s f hk)
  · exact mem_append_right _ (mem_singleton_self key)
  · exact fun k hk => mem_append_left _ (h.order hk)

end

/-- **A resolution** from a sound state ends in a sound one with the module resolved and the invariant
    kept, or with an error of another kind, or with a cycle. -/
theorem resolveModule_run (inv : Invariant env root rootSource) : ∀ fuel : Nat,
    Resolves inv (env.files.length + 2 - fuel) (resolveModule env fuel)
  | 0, path, source, spelling, s, hsound, _, _, _, hlength => by
    have hroom : s.activeStack.length ≤ env.files.length + 1 := hsound.length_stack
    omega
  | fuel + 1, path, source, spelling, s, hsound, hbetween, hentered, hsource, hlength => by
    rw [resolveModule]
    generalize env.normalizePath path = key at *
    refine ends_update (ends_get ?_)
    have hspelled : inv.between (s.updateRecord key fun r =>
        { r with importSpelling := spelling }) := inv.spelled hbetween
    have hsame := SameAt.spelled s key spelling
    generalize hs₁ : updateRecord s key _ = s₁ at hspelled hsame ⊢
    have h₁ : s₁.progress = s.progress := hs₁ ▸ progress_updateRecord s _ _ rfl
    rw [← h₁] at hsound hentered
    rw [← (hsame _).state] at hsource
    have hstack₁ := activeStack_eq h₁
    have horder₁ : s₁.topologicalOrder = s.topologicalOrder := congrArg Progress.order h₁
    cases hcase : (s₁.records key).state with
    | resolved =>
      exact ends_pure ⟨rfl, hsound, hspelled, fun k _ => hsame k, hstack₁, horder₁ ▸ fun k hk => hk,
        (hsound.resolved _).mp hcase⟩
    | parsing => exact ends_throw (.inr ⟨rfl, hentered.cyclic hsound hcase⟩)
    | failed => exact absurd hcase (hsound.failed _)
    | unresolved =>
      have hsound₂ := hsound.enter hentered hcase
      rw [← progress_enter] at hsound₂
      have hlength₂ : (s₁.enter key).activeStack.length = s.activeStack.length + 1 := by
        simp [enter, hstack₁]
      have hresolve : Resolves inv (s₁.enter key).activeStack.length
          (resolveModule env fuel) := fun p so sp s' h₁ h₂ h₃ h₄ h₅ =>
        resolveModule_run inv fuel p so sp s' h₁ h₂ h₃ h₄ (by omega)
      have hstart : ∀ m, source = .ok m → inv.within key m []
          (.start (withCoreImport env key m).importShares)
          ((s₁.enter key).declare key m) := fun m hm =>
        inv.start hsound hspelled hentered hcase (by rw [hsource hcase, hm])
      have hbody := resolveBody_finishes hresolve (hsource hcase) rfl hsound₂ hstart
      have hkeeps := resolveBody_stack env (resolveModule_stack env fuel) key source (s₁.enter key)
      refine ends_update (ends_bind (ends_tryCatch (hbody.and hkeeps) fun e s' he => ?_)
        fun _ s' hs' => ?_)
      · exact ends_update (ends_throw he.1)
      · obtain ⟨⟨hsound', hbetween', hsame', hmem, horder⟩, hstack'⟩ := hs'
        refine ends_update (ends_pure ⟨rfl, hsound', hbetween', fun k hk => ?_, ?_, ?_, hmem⟩)
        · have hne : k ≠ key := by
            rintro rfl
            exact hk (by rw [← (hsame _).state, hcase])
          have henter := (hsame k).trans (.enter s₁ hne)
          exact (henter.trans (hsame' k hne (by
            rw [(SameAt.enter s₁ hne).state, (hsame k).state]; exact hk))).trans (.leave s' k)
        · rw [Registry.leave, hstack', enter, dropLast_concat, hstack₁]
        · rw [← horder₁]
          exact horder

end Run

/-! ## 8. The root -/

theorem sound_empty (env : Environment) (root : Key) (rootSource : Source) :
    Sound env root rootSource Registry.empty.progress where
  resolved k := ⟨nofun, fun h => absurd h not_mem_nil⟩
  parsing k := ⟨nofun, fun h => absurd h not_mem_nil⟩
  failed k := nofun
  sorted := .nil
  reached k h := by rcases h with h | h <;> exact absurd h not_mem_nil
  chain := .nil
  nodup := nodup_nil
  located k h := absurd h not_mem_nil
  rooted x h := by cases h

/-- A module that has been resolved just now has its body. -/
theorem resolveModule_module (env : Environment) (fuel : Nat) (path : Key) (source : Source) (spelling : Name)
    {s : Registry} (hstate : (s.records (env.normalizePath path)).state = .unresolved) :
    Ends (resolveModule env (fuel + 1) path source spelling s)
      (fun k s' => (s'.records k).module.isSome = true) (fun _ _ => True) := by
  rw [resolveModule]
  refine ends_update (ends_get ?_)
  rw [state_updateRecord]
  simp only [update_self, hstate]
  refine ends_update (ends_bind (ends_tryCatch (E := fun _ _ => True)
    (Q := fun _ s' => (s'.records (env.normalizePath path)).module.isSome = true) ?_
    fun e s' _ => ends_update (ends_throw trivial)) fun _ s' hs' => ends_update (ends_pure hs'))
  unfold resolveBody
  split
  · exact ends_throw trivial
  · exact ends_throw trivial
  · refine ends_update (ends_bind (Q := fun _ _ => True) (Ends.true _) fun f s' _ => ends_modify ?_)
    simp [finish]

/-- The registry in which the root was resolved, before its body is taken out. -/
structure RootResolved {env : Environment} {root : Key} {source : Source}
    (inv : Invariant env root source) (body : List Statement) (s : Registry) : Prop where
  sound : Sound env root source s.progress
  holds : inv.between s
  stack : s.activeStack = []
  resolved : root ∈ s.topologicalOrder
  module : (s.records root).module = some body

theorem resolveRoot_run {env : Environment} {source : Source} {fileName : Name}
    (inv : Invariant env (env.normalizePath fileName) source) (hempty : inv.between .empty) :
    Ends (resolveRoot env source fileName .empty)
      (fun body s' => ∃ s, RootResolved inv body s ∧
        s' = s.updateRecord (env.normalizePath fileName) fun r => { r with module := none })
      (fun e _ => Failing env (env.normalizePath fileName) source e) := by
  have hentered : Entered env (env.normalizePath fileName) source empty.progress
      (env.normalizePath fileName) :=
    { first := fun _ => rfl
      imported := fun x hx => nomatch hx
      located := .inl rfl }
  have hrun := resolveModule_run inv (resolveFuel env) fileName source "<root>".toList .empty
    (sound_empty env (env.normalizePath fileName) source) hempty hentered
    (fun _ => by rw [sourceAt, if_pos rfl]) (by simp [resolveFuel])
  have hmodule := resolveModule_module env (env.files.length + 1) fileName source "<root>".toList
    (s := .empty) rfl
  refine ends_bind ((hrun.and hmodule).mono (fun _ _ h => h) fun _ _ h => h.1) fun k s hs => ends_get ?_
  obtain ⟨⟨rfl, hdone⟩, hsome⟩ := hs
  obtain ⟨body, hbody⟩ := Option.isSome_iff_exists.mp hsome
  simp only [hbody]
  exact ends_update (ends_pure ⟨s, ⟨hdone.sound, hdone.holds, hdone.stack, hdone.resolved, hbody⟩, rfl⟩)

end Vyb.Modules
