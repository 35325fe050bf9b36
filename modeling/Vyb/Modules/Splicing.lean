/-
  Subject:   What the splice of one import leaves in the importer, where nothing gets another name.

  An import is plain if it binds no namespace and no alias. If besides every name of the imported
  module that the importer has already comes from the same module there, then the splice copies
  statements as they are.

  * `Carries` -- what an import may bring: a carried declaration, or a bind that is carried or visible;
  * `Spliced` -- the loop over the imported statements, by what is done; one lemma for a statement that
    is left out, one for a copy and one for a requested name that is found;
  * **`splice_plain`** -- at the end every carried declaration is there, and every requested one is
    visible.
-/
import Vyb.Modules.Runs

namespace Vyb.Modules

open Lib List Option Statement

/-! ## 1. Plain imports -/

/-- An import that carries `C` and renames nothing. -/
structure ImportContext.Plain (c : ImportContext) (C : Carried) : Prop where
  carried : c.carried = some C
  noNamespace : c.decl.namespaceImport = none
  sameNames : ∀ r ∈ c.requestedRenames, r.2 = r.1

inductive Carries (c : ImportContext) (C : Carried) : Statement → Prop where
  | decl {d : Decl} (hname : d.name ≠ []) (hmem : d.name ∈ C.names) : Carries c C (.decl d)
  | bind {b : Bind} (h : bindKey b ∈ C.bindKeys ∨
      declarationVisible (bindKey b) c.imported.sharesByName c.bundles c.decl.kind = true) :
      Carries c C (.bind b)

theorem bindKey_ne_nil (b : Bind) : bindKey b ≠ [] := by
  unfold bindKey
  split <;> simp

variable {x : Statement}

theorem Carries.name_ne_nil {c : ImportContext} {C : Carried} (h : Carries c C x) :
    x.declarationName ≠ [] := by
  cases h with
  | decl hname _ => exact hname
  | bind _ => exact bindKey_ne_nil _

/-- The share list that a copy gets, if it gets one. -/
def carriedShare (c : ImportContext) (name : Name) : Option (List Name) :=
  (c.imported.sharesByName.lookup name).or (if c.importShare = [] then none else some c.importShare)

theorem lookup_getD_self {renames : List (Name × Name)} (h : ∀ r ∈ renames, r.2 = r.1) (n : Name) :
    (renames.lookup n).getD n = n := by
  induction renames with
  | nil => rfl
  | cons r renames ih =>
    rw [List.lookup_cons]
    by_cases hn : n = r.1
    · simp [hn, h r mem_cons_self]
    · rw [beq_eq_false_iff_ne.mpr hn]
      exact ih fun r' hr' => h r' (mem_cons_of_mem _ hr')

/-! ## 2. The loop -/

/-- After the imported statements `pre`, with `requested` still to be found. -/
structure Spliced (c : ImportContext) (C : Carried) (f : Frame) (s : Registry) (pre : List Statement)
    (f' : Frame) (requested : List Name) (s' : Registry) : Prop where
  grown : f.resolvedBody ⊆ f'.resolvedBody
  copied : ∀ x ∈ f'.resolvedBody, x ∈ f.resolvedBody ∨ x ∈ c.body ∧ Carries c C x
  kept : f.seenNames ⊆ f'.seenNames
  seen : ∀ n ∈ f'.seenNames, n ∈ f.seenNames ∨
    ∃ x ∈ f'.resolvedBody, x.declarationName = n ∧ n ≠ []
  origins : ∀ n o, f'.seenOrigins n = some o → f.seenOrigins n = some o ∨
    o = c.declaringOrigin n ∧ ∃ x ∈ c.body, Carries c C x ∧ x.declarationName = n
  found : ∀ d, Statement.decl d ∈ pre → d.name ≠ [] → d.name ∈ C.names →
    d.name ∈ requested ∨ d.name ∈ f'.seenNames
  visible : ∀ n ∈ c.requestedNames, n ∈ requested ∨
    declarationVisible n c.imported.sharesByName c.bundles c.decl.kind = true ∧
      ∃ d, Statement.decl d ∈ c.body ∧ d.name = n
  namespaces : f'.localNamespaces = f.localNamespaces
  importShares : f'.importShares = f.importShares
  shares : ∃ sh, s' = s.withShares c.key sh ∧
    (∀ n, sh.lookup n = (s.records c.key).sharesByName.lookup n ∨
      sh.lookup n = carriedShare c n ∧ ∃ x ∈ c.body, Carries c C x ∧ x.declarationName = n) ∧
    ∀ x ∈ f'.resolvedBody, x ∈ f.resolvedBody ∨ ∀ l, carriedShare c x.declarationName = some l →
      sh.lookup x.declarationName = some l

section Steps

variable {c : ImportContext} {C : Carried} {f f' : Frame} {s s' : Registry} {pre : List Statement}
  {requested : List Name}

theorem Spliced.start (c : ImportContext) (C : Carried) (f : Frame) (s : Registry) :
    Spliced c C f s [] f c.requestedNames s where
  grown _ h := h
  copied _ h := .inl h
  kept _ h := h
  seen _ h := .inl h
  origins _ _ h := .inl h
  found _ h := absurd h not_mem_nil
  visible _ h := .inl h
  namespaces := rfl
  importShares := rfl
  shares := ⟨_, (s.withShares_self c.key).symm, fun _ => .inl rfl, fun _ h => .inl h⟩

namespace Spliced

variable (h : Spliced c C f s pre f' requested s')
include h

/-- A statement that is left out, or was there already. -/
theorem skip {x : Statement}
    (hx : ∀ d, x = .decl d → d.name ≠ [] → d.name ∈ C.names →
      d.name ∈ requested ∨ d.name ∈ f'.seenNames) : Spliced c C f s (pre ++ [x]) f' requested s' :=
  { h with
    found := fun d hd => by
      rcases mem_append.mp hd with hd | hd
      · exact h.found d hd
      · exact hx d (mem_singleton.mp hd).symm }

theorem request {n : Name} (hseen : n ∈ f'.seenNames)
    (hvisible : n ∈ requested →
      declarationVisible n c.imported.sharesByName c.bundles c.decl.kind = true ∧
        ∃ d, Statement.decl d ∈ c.body ∧ d.name = n) : Spliced c C f s pre f' (requested.filter (· ≠ n)) s' :=
  { h with
    found := fun d hd hname hmem => by
      by_cases hn : d.name = n
      · exact .inr (hn ▸ hseen)
      · exact (h.found d hd hname hmem).imp_left fun hr => mem_filter.mpr ⟨hr, by simpa using hn⟩
    visible := fun m hm => by
      rcases h.visible m hm with hr | hv
      · by_cases hn : m = n
        · exact .inr (hn ▸ hvisible (hn ▸ hr))
        · exact .inl (mem_filter.mpr ⟨hr, by simpa using hn⟩)
      · exact .inr hv }

/-- A copied statement, with the share lists `sh` that the importer then has. -/
theorem copy {x : Statement} (hbody : x ∈ c.body)
    (hcarries : Carries c C x) {sh : List (Name × List Name)}
    (hsh : ∀ n, n ≠ x.declarationName → sh.lookup n = (s'.records c.key).sharesByName.lookup n)
    (hself : sh.lookup x.declarationName =
      (carriedShare c x.declarationName).or
        ((s'.records c.key).sharesByName.lookup x.declarationName)) :
    Spliced c C f s pre ((f'.see x.declarationName (c.declaringOrigin x.declarationName)).push x)
      requested (s'.withShares c.key sh) where
  grown _ hy := mem_append_left _ (h.grown hy)
  copied y hy := by
    rcases mem_append.mp hy with hy | hy
    · exact h.copied y hy
    · exact .inr (mem_singleton.mp hy ▸ ⟨hbody, hcarries⟩)
  kept n hn := mem_cons_of_mem _ (h.kept hn)
  seen n hn := by
    rcases mem_cons.mp hn with rfl | hn
    · exact .inr ⟨x, mem_append_right _ (mem_singleton_self x), rfl, hcarries.name_ne_nil⟩
    · exact (h.seen n hn).imp_right fun hx => by
        obtain ⟨y, hy, hname⟩ := hx
        exact ⟨y, mem_append_left _ hy, hname⟩
  origins n o ho := by
    by_cases hn : n = x.declarationName
    · subst hn
      have ho' : some (c.declaringOrigin x.declarationName) = some o := by
        simpa [Frame.see, Frame.push] using ho
      exact .inr ⟨(Option.some.inj ho').symm, x, hbody, hcarries, rfl⟩
    · refine h.origins n o ?_
      simpa [Frame.see, Frame.push, hn] using ho
  found d hd hname hmem := (h.found d hd hname hmem).imp_right fun hs => mem_cons_of_mem _ hs
  visible := h.visible
  namespaces := h.namespaces
  importShares := h.importShares
  shares := by
    obtain ⟨sh₀, rfl, hsh₀, hcopies⟩ := h.shares
    have hold : (((s.withShares c.key sh₀).records c.key).sharesByName) = sh₀ := by
      simp [Registry.withShares, Registry.updateRecord]
    rw [hold] at hsh hself
    refine ⟨sh, s.withShares_withShares c.key sh₀ sh, fun n => ?_, fun y hy => ?_⟩
    · by_cases hn : n = x.declarationName
      · subst hn
        cases hshare : carriedShare c x.declarationName with
        | none =>
          rw [hself, hshare, none_or]
          rw [← hshare]
          exact hsh₀ _
        | some l => exact .inr ⟨by rw [hself, hshare]; rfl, x, hbody, hcarries, rfl⟩
      · rw [hsh n hn]
        exact hsh₀ n
    · -- a copy with the name of the new one would get the same list
      have hlist : ∀ z : Statement, z.declarationName = x.declarationName →
          ∀ l, carriedShare c z.declarationName = some l → sh.lookup z.declarationName = some l := by
        intro z hz l hl
        rw [hz] at hl ⊢
        rw [hself, hl]
        rfl
      by_cases hname : y.declarationName = x.declarationName
      · exact .inr (hlist y hname)
      · rcases mem_append.mp hy with hy | hy
        · rw [hsh _ hname]
          exact hcopies y hy
        · exact absurd (congrArg declarationName (mem_singleton.mp hy)) hname

end Spliced

theorem carryShare_ends (n : Name) :
    Ends (carryShare c n n s') (fun _ s'' => ∃ sh, s'' = s'.withShares c.key sh ∧
      (∀ k, k ≠ n → sh.lookup k = (s'.records c.key).sharesByName.lookup k) ∧
      sh.lookup n = (carriedShare c n).or ((s'.records c.key).sharesByName.lookup n))
      (fun _ _ => True) := by
  have hwrite : ∀ shares, carriedShare c n = some shares →
      (∀ k, k ≠ n → (overwrite (s'.records c.key).sharesByName (n, shares)).lookup k =
        (s'.records c.key).sharesByName.lookup k) ∧
      (overwrite (s'.records c.key).sharesByName (n, shares)).lookup n =
        (carriedShare c n).or ((s'.records c.key).sharesByName.lookup n) := by
    intro shares hshares
    refine ⟨fun k hk => ?_, ?_⟩
    · rw [lookup_overwrite, if_neg hk]
    · rw [lookup_overwrite, if_pos rfl, hshares, some_or]
  unfold carryShare
  cases hlookup : c.imported.sharesByName.lookup n with
  | some shares => exact ends_modify ⟨_, rfl, hwrite shares (by rw [carriedShare, hlookup]; rfl)⟩
  | none =>
    by_cases hshare : c.importShare = []
    · simp only [hshare, if_true]
      refine ends_pure ⟨_, (s'.withShares_self c.key).symm, fun _ _ => rfl, ?_⟩
      rw [carriedShare, hlookup, if_pos hshare]
      rfl
    · simp only [hshare, if_false]
      exact ends_modify ⟨_, rfl, hwrite c.importShare (by
        rw [carriedShare, hlookup, none_or, if_neg hshare])⟩

variable {st : Splice}

theorem place_spliced (h : Spliced c C f s pre st.frame requested s') (hbody : x ∈ c.body)
    (hcarries : Carries c C x) :
    Ends (place c st x.declarationName x.declarationName x s')
      (fun st' s'' => Spliced c C f s pre st'.frame requested s'' ∧
        st'.requestedNames = st.requestedNames ∧ x.declarationName ∈ st'.frame.seenNames)
      (fun _ _ => True) := by
  refine ends_bind (carryShare_ends x.declarationName) fun _ s'' hs'' => ends_pure ?_
  obtain ⟨sh, rfl, hsh, hself⟩ := hs''
  exact ⟨h.copy hbody hcarries hsh hself, rfl, mem_cons_self⟩

theorem spliceBind_spliced {b : Bind} (hb : Statement.bind b ∈ c.body)
    (h : Spliced c C f s pre st.frame st.requestedNames s') (hplain : c.Plain C) :
    Ends (spliceBind c st b s')
      (fun st' s'' => Spliced c C f s (pre ++ [.bind b]) st'.frame st'.requestedNames s'')
      (fun _ _ => True) := by
  have hskip : Spliced c C f s (pre ++ [.bind b]) st.frame st.requestedNames s' :=
    h.skip fun d hd => nomatch hd
  simp only [spliceBind]
  split
  · exact ends_pure hskip
  split
  · exact ends_pure hskip
  rename_i hvisible
  split
  · split
    · exact ends_pure hskip
    · exact ends_throw trivial
  · have hcarries : Carries c C (.bind b) := by
      refine .bind ?_
      simp only [hplain.carried, any_some, Bool.and_eq_true, Bool.not_eq_true', not_and,
        Bool.not_eq_false, decide_eq_false_iff_not] at hvisible
      by_cases hkey : bindKey b ∈ C.bindKeys
      · exact .inl hkey
      · exact .inr (hvisible hkey)
    refine (place_spliced h (x := .bind b) hb hcarries).mono (fun st' s'' hs'' => ?_) fun _ _ h => h
    obtain ⟨hspliced, hreq, -⟩ := hs''
    rw [hreq]
    exact hspliced.skip fun d hd => nomatch hd

/-- Without a rename the copy of a declaration is the declaration. -/
theorem localCopy_plain (hplain : c.Plain C) (st : Splice) (d : Decl) :
    localCopy c [] st d = (d.name, .decl d) := by
  have hname : (if st.requestedNames = [] then d.name
      else (c.requestedRenames.lookup d.name).getD d.name) = d.name := by
    rw [lookup_getD_self hplain.sameNames, ite_self]
  have hns : c.isNamespaceImport = false := by
    rw [ImportContext.isNamespaceImport, hplain.noNamespace]
    rfl
  simp only [localCopy, hname, hns, Bool.false_eq_true, lookup_nil, getD_none, ite_self, mangleBare_nil]

theorem spliceDecl_spliced {d : Decl} (hd : Statement.decl d ∈ c.body) (hname : d.name ≠ [])
    (h : Spliced c C f s pre st.frame st.requestedNames s') (hplain : c.Plain C) :
    Ends (spliceDecl c [] st d s')
      (fun st' s'' => Spliced c C f s (pre ++ [.decl d]) st'.frame st'.requestedNames s'')
      (fun _ _ => True) := by
  have hns : c.isNamespaceImport = false := by
    rw [ImportContext.isNamespaceImport, hplain.noNamespace]
    rfl
  unfold spliceDecl
  split
  · rename_i hnot
    refine ends_pure (h.skip fun d' hd' _ hmem => ?_)
    obtain rfl := decl.inj hd'
    simp [hplain.carried, hmem] at hnot
  rename_i hmem
  have hmem : d.name ∈ C.names := by simpa [hplain.carried] using hmem
  simp only [localCopy_plain hplain]
  split
  · -- requested and not visible
    rename_i hhidden
    refine ends_pure (h.skip fun d' hd' _ _ => .inl ?_)
    obtain rfl := decl.inj hd'
    simp only [hplain.carried, isSome_some, Bool.true_and, Bool.not_not, Bool.and_eq_true,
      requestedNow, decide_eq_true_eq] at hhidden
    exact hhidden.1
  rename_i hvisible
  have hvisible : d.name ∈ st.requestedNames →
      declarationVisible d.name c.imported.sharesByName c.bundles c.decl.kind = true ∧
        ∃ d', decl d' ∈ c.body ∧ d'.name = d.name := by
    intro hr
    exact ⟨by simpa [hplain.carried, requestedNow, hr] using hvisible, d, hd, rfl⟩
  -- the name is there, from before or as a copy
  have hdone : ∀ {f₁ : Frame} {s₁ : Registry}, Spliced c C f s pre f₁ st.requestedNames s₁ →
      d.name ∈ f₁.seenNames →
      Spliced c C f s (pre ++ [.decl d]) f₁ (st.requestedNames.filter (· ≠ d.name)) s₁ := by
    intro f₁ s₁ h₁ hseen
    refine (h₁.request hseen hvisible).skip fun d' hd' _ _ => .inr ?_
    obtain rfl := decl.inj hd'
    exact hseen
  split
  · rename_i hseen
    split
    · exact ends_pure (hdone h hseen)
    split
    · exact ends_pure (hdone h hseen)
    · exact ends_throw trivial
  · rw [hns]
    simp only [Bool.false_eq_true, if_false]
    refine (place_spliced (x := .decl d) (show Spliced c C f s pre
      { st with requestedNames := st.requestedNames.filter (· ≠ d.name) }.frame _ s' from h) hd
      (.decl hname hmem)).mono (fun st' s'' hs'' => ?_) fun _ _ h => h
    obtain ⟨hspliced, hreq, hseen⟩ := hs''
    rw [hreq]
    exact hdone hspliced hseen

theorem spliceStatement_spliced (hx : x ∈ c.body) (h : Spliced c C f s pre st.frame st.requestedNames s')
    (hplain : c.Plain C) :
    Ends (spliceStatement c [] st x s')
      (fun st' s'' => Spliced c C f s (pre ++ [x]) st'.frame st'.requestedNames s'')
      (fun _ _ => True) := by
  unfold spliceStatement
  split
  · exact ends_throw trivial
  split
  · exact spliceBind_spliced hx h hplain
  · rename_i d _
    split
    · rename_i hname
      refine ends_pure (h.skip fun d' hd' hname' => ?_)
      obtain rfl := decl.inj hd'
      exact absurd hname hname'
    · rename_i hname
      exact spliceDecl_spliced hx hname h hplain
  · rename_i hno
    exact ends_pure (h.skip fun d hd => absurd hd (hno d))

/-- **The splice of a plain import.** -/
theorem splice_plain (hplain : c.Plain C) (hmangled : privateMangled c f = []) (s : Registry) :
    Ends (splice c f s) (fun f' s' => Spliced c C f s c.body f' [] s') (fun _ _ => True) := by
  unfold splice
  rw [hmangled]
  have hloop : Ends (c.body.foldlM (spliceStatement c []) ⟨f, c.requestedNames, visibleMangled c⟩ s)
      (fun (st : Splice) s' => Spliced c C f s ([] ++ c.body) st.frame st.requestedNames s')
      (fun _ _ => True) :=
    ends_foldlM (I := fun pre (st : Splice) s' => Spliced c C f s pre st.frame st.requestedNames s')
      (Spliced.start c C f s) fun pre x st s' hx h => spliceStatement_spliced hx h hplain
  refine ends_bind hloop fun st s' h => ?_
  rw [nil_append] at h
  cases hreq : st.requestedNames with
  | cons missing rest => exact ends_throw trivial
  | nil =>
    rw [hreq] at h
    rw [hplain.noNamespace]
    exact ends_pure h

end Steps

end Vyb.Modules
