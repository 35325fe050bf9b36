/-
  Subject:   What an import carries along is closed under references.

  The loop walks every declaration and every bind that it carries, and carries what they refer to, until
  a round adds nothing. Every round but the last adds a name or a bind of the module, so it ends.

  * `Grows` -- what every step of the loop does to the carried set;
  * `closureLoop_settles` -- there are enough rounds;
  * **`closure_decl`**, `closure_bind` -- what a carried declaration or bind refers to is carried;
  * **`mentioned_closure`** -- and what is carried was asked for or is mentioned.
-/
import Vyb.Modules.Registry

namespace Vyb.Modules

open List

section Closure

variable {body : List Statement}

/-- The references of a declaration to the module's declarations are carried. -/
def Settled (body : List Statement) (c : Carried) (refs : List Name) : Prop :=
  ∀ r ∈ refs, r ∈ moduleDeclNames body → r ∈ c.names

/-- A step of the loop: new names and binds are of the module, and what is walked is settled. -/
structure Grows (body : List Statement) (c c' : Carried) : Prop where
  names : ∃ added, c'.names = c.names ++ added ∧ added.Nodup ∧
    ∀ n ∈ added, n ∈ moduleDeclNames body ∧ n ∉ c.names
  bindKeys : ∃ added, c'.bindKeys = c.bindKeys ++ added ∧ added.Nodup ∧
    ∀ k ∈ added, k ∈ (binds body).map bindKey ∧ k ∉ c.bindKeys
  declWalked : c.declWalked ⊆ c'.declWalked
  bindWalked : c.bindWalked ⊆ c'.bindWalked
  settledDecl : ∀ n ∈ c'.declWalked, n ∈ c.declWalked ∨
    ∀ d, declByName body n = some d → Settled body c' d.node.collect
  settledBind : ∀ k ∈ c'.bindWalked, k ∈ c.bindWalked ∨
    ∀ b, bindByKey body k = some b → Settled body c' b.node.collect

namespace Grows

variable {c c' c'' : Carried}

theorem refl (c : Carried) : Grows body c c where
  names := ⟨[], by simp⟩
  bindKeys := ⟨[], by simp⟩
  declWalked _ h := h
  bindWalked _ h := h
  settledDecl _ h := .inl h
  settledBind _ h := .inl h

theorem subset (h : Grows body c c') : c.names ⊆ c'.names := by
  obtain ⟨added, hnames, -⟩ := h.names
  rw [hnames]
  exact subset_append_left _ _

theorem settled (h : Grows body c c') {refs : List Name} (hrefs : Settled body c refs) :
    Settled body c' refs := fun r hr hmem => h.subset (hrefs r hr hmem)

theorem append_added {l l' l'' : List Name} {P : Name → Prop}
    (h : ∃ added, l' = l ++ added ∧ added.Nodup ∧ ∀ n ∈ added, P n ∧ n ∉ l)
    (h' : ∃ added, l'' = l' ++ added ∧ added.Nodup ∧ ∀ n ∈ added, P n ∧ n ∉ l') :
    ∃ added, l'' = l ++ added ∧ added.Nodup ∧ ∀ n ∈ added, P n ∧ n ∉ l := by
  obtain ⟨a, rfl, hnd, ha⟩ := h
  obtain ⟨b, rfl, hnd', hb⟩ := h'
  refine ⟨a ++ b, append_assoc _ _ _, hnd.append hnd' fun n hn hn' => ?_, fun n hn => ?_⟩
  · exact (hb n hn').2 (mem_append_right _ hn)
  · rcases mem_append.mp hn with hn | hn
    · exact ha n hn
    · exact ⟨(hb n hn).1, fun h => (hb n hn).2 (mem_append_left _ h)⟩

theorem trans (h : Grows body c c') (h' : Grows body c' c'') : Grows body c c'' where
  names := append_added h.names h'.names
  bindKeys := append_added h.bindKeys h'.bindKeys
  declWalked _ hn := h'.declWalked (h.declWalked hn)
  bindWalked _ hk := h'.bindWalked (h.bindWalked hk)
  settledDecl n hn := by
    rcases h'.settledDecl n hn with hn | hn
    · exact (h.settledDecl n hn).imp_right fun hs d hd => h'.settled (hs d hd)
    · exact .inr hn
  settledBind k hk := by
    rcases h'.settledBind k hk with hk | hk
    · exact (h.settledBind k hk).imp_right fun hs b hb => h'.settled (hs b hb)
    · exact .inr hk

theorem foldl {step : Carried → Name → Carried} (hstep : ∀ c n, Grows body c (step c n)) :
    ∀ (l : List Name) (c : Carried), Grows body c (l.foldl step c)
  | [], c => .refl c
  | n :: l, c => (hstep c n).trans (foldl hstep l (step c n))

end Grows

/-! ## 1. The steps -/

theorem absorb_grows (body : List Statement) (c : Carried) (ref : Name) :
    Grows body c (absorb body c ref) where
  names := by
    unfold absorb
    split
    · rename_i h
      exact ⟨[ref], rfl, nodup_singleton ref, fun n hn => mem_singleton.mp hn ▸ h⟩
    · exact ⟨[], by simp⟩
  bindKeys := ⟨[], by simp [absorb]⟩
  declWalked _ h := h
  bindWalked _ h := h
  settledDecl _ h := .inl h
  settledBind _ h := .inl h

theorem absorb_settles (c : Carried) {ref : Name} (h : ref ∈ moduleDeclNames body) :
    ref ∈ (absorb body c ref).names := by
  unfold absorb
  by_cases hmem : ref ∈ c.names
  · simp [hmem]
  · simp [h, hmem]

/-- After a walk the references are carried. -/
theorem absorb_all : ∀ (refs : List Name) (c : Carried),
    Settled body (refs.foldl (absorb body) c) refs
  | [], _, _, hr, _ => absurd hr not_mem_nil
  | ref :: refs, c, r, hr, hmem => by
    rcases mem_cons.mp hr with rfl | hr
    · exact (Grows.foldl (absorb_grows body) refs _).subset (absorb_settles c hmem)
    · exact absorb_all refs _ r hr hmem

theorem settled_cons {l : List Name} {a n : Name} {P : Prop} (hn : n ∈ a :: l) (h : n = a → P) : n ∈ l ∨ P :=
  (mem_cons.mp hn).symm.imp_right h

/-- The references of a walk, entered under a name that is marked as walked. -/
theorem walk_decl_grows (body : List Statement) (c : Carried) (name : Name) :
    Grows body c (walkDecl body c name) ∧ name ∈ (walkDecl body c name).declWalked := by
  unfold walkDecl
  split
  · rename_i h
    exact ⟨.refl c, h⟩
  · simp only
    cases hd : declByName body name with
    | none =>
      exact ⟨{ (show Grows body c c from .refl c) with
        declWalked := subset_cons_self _ _
        settledDecl := fun n hn => settled_cons hn fun heq d hd' => by
          rw [heq, hd] at hd'
          cases hd' }, mem_cons_self⟩
    | some d =>
      have hgrows := Grows.foldl (absorb_grows body) d.node.collect
        { c with declWalked := name :: c.declWalked }
      refine ⟨{ hgrows with
        declWalked := fun n hn => hgrows.declWalked (mem_cons_of_mem _ hn)
        settledDecl := fun n hn => ?_ }, hgrows.declWalked mem_cons_self⟩
      rcases hgrows.settledDecl n hn with hn | hn
      · refine settled_cons hn fun heq d' hd' => ?_
        rw [heq, hd] at hd'
        exact Option.some.inj hd' ▸ absorb_all d.node.collect _
      · exact .inr hn

theorem walk_bind_grows (body : List Statement) (c : Carried) (key : Name) :
    Grows body c (walkBind body c key) ∧ key ∈ (walkBind body c key).bindWalked := by
  unfold walkBind
  split
  · rename_i h
    exact ⟨.refl c, h⟩
  · simp only
    cases hb : bindByKey body key with
    | none =>
      exact ⟨{ (show Grows body c c from .refl c) with
        bindWalked := subset_cons_self _ _
        settledBind := fun k hk => settled_cons hk fun heq b hb' => by
          rw [heq, hb] at hb'
          cases hb' }, mem_cons_self⟩
    | some b =>
      have hgrows := Grows.foldl (absorb_grows body) b.node.collect
        { c with bindWalked := key :: c.bindWalked }
      refine ⟨{ hgrows with
        bindWalked := fun k hk => hgrows.bindWalked (mem_cons_of_mem _ hk)
        settledBind := fun k hk => ?_ }, hgrows.bindWalked mem_cons_self⟩
      rcases hgrows.settledBind k hk with hk | hk
      · refine settled_cons hk fun heq b' hb' => ?_
        rw [heq, hb] at hb'
        exact Option.some.inj hb' ▸ absorb_all b.node.collect _
      · exact .inr hk

theorem admitBind_grows (wanted : Carried → Name → Bool) (c : Carried) {key : Name}
    (hkey : key ∈ (binds body).map bindKey) : Grows body c (admitBind body wanted c key) := by
  unfold admitBind
  split
  · rename_i h
    exact { (show Grows body c c from .refl c) with
      bindKeys := ⟨[key], rfl, nodup_singleton key, fun k hk => by
        rw [mem_singleton.mp hk]
        exact ⟨hkey, h.1⟩⟩ }
  · exact .refl c

theorem admitRound_grows (body : List Statement) (wanted : Carried → Name → Bool) :
    ∀ (l : List Name) (c : Carried),
    (∀ k ∈ l, k ∈ (binds body).map bindKey) → Grows body c (l.foldl (admitBind body wanted) c)
  | [], c, _ => .refl c
  | k :: l, c, h => (admitBind_grows wanted c (h k mem_cons_self)).trans
      (admitRound_grows body wanted l _ fun k' hk' => h k' (mem_cons_of_mem _ hk'))

theorem admitLoop_grows (body : List Statement) (wanted : Carried → Name → Bool) :
    ∀ (fuel : Nat) (c : Carried),
    Grows body c (admitLoop body wanted fuel c)
  | 0, c => .refl c
  | fuel + 1, c => by
    have hround := admitRound_grows body wanted _ c fun _ hk => hk
    rw [admitLoop]
    split
    · exact hround
    · exact hround.trans (admitLoop_grows body wanted fuel _)

variable {step : Carried → Name → Carried}

/-- Everything that a fold over names marks is marked. -/
theorem marked_foldl (mark : Carried → List Name)
    (hmark : ∀ c n, n ∈ mark (step c n)) (hmono : ∀ c n, mark c ⊆ mark (step c n)) :
    ∀ (l : List Name) (c : Carried), mark c ⊆ mark (l.foldl step c) ∧ ∀ n ∈ l, n ∈ mark (l.foldl step c)
  | [], c => ⟨fun _ h => h, fun _ h => absurd h not_mem_nil⟩
  | n :: l, c => by
    obtain ⟨hsub, hmem⟩ := marked_foldl mark hmark hmono l (step c n)
    refine ⟨fun k hk => hsub (hmono c n hk), fun k hk => ?_⟩
    rcases mem_cons.mp hk with rfl | hk
    · exact hsub (hmark c k)
    · exact hmem k hk

/-- One round walks all that is carried at its start. -/
theorem closureRound_grows (body : List Statement) (c : Carried) : Grows body c (closureRound body c) ∧
    (∀ n ∈ c.names, n ∈ (closureRound body c).declWalked) ∧
    ∀ k ∈ c.bindKeys, k ∈ (closureRound body c).bindWalked := by
  simp only [closureRound]
  generalize hc₁ : c.names.foldl (walkDecl body) c = c₁
  generalize hc₂ : c₁.bindKeys.foldl (walkBind body) c₁ = c₂
  have h₁ : Grows body c c₁ := hc₁ ▸ Grows.foldl (fun c n => (walk_decl_grows body c n).1) c.names c
  have h₂ : Grows body c₁ c₂ := hc₂ ▸ Grows.foldl (fun c k => (walk_bind_grows body c k).1) c₁.bindKeys c₁
  have h₃ := (admitLoop_grows body (dispatched body) ((binds body).length + 1) c₂).trans
    (admitLoop_grows body (fun _ _ => true) ((binds body).length + 1) _)
  refine ⟨(h₁.trans h₂).trans h₃, fun n hn => ?_, fun k hk => ?_⟩
  · have hmem := (marked_foldl Carried.declWalked (fun c n => (walk_decl_grows body c n).2)
      (fun c n => (walk_decl_grows body c n).1.declWalked) c.names c).2 n hn
    rw [hc₁] at hmem
    exact h₃.declWalked (h₂.declWalked hmem)
  · have hk₁ : k ∈ c₁.bindKeys := by
      obtain ⟨added, heq, -⟩ := h₁.bindKeys
      rw [heq]
      exact mem_append_left _ hk
    have hmem := (marked_foldl Carried.bindWalked (fun c k => (walk_bind_grows body c k).2)
      (fun c k => (walk_bind_grows body c k).1.bindWalked) c₁.bindKeys c₁).2 k hk₁
    rw [hc₂] at hmem
    exact h₃.bindWalked hmem

/-! ## 2. The loop -/

variable {seeds : List Name}

/-- How many names and binds may still be added to the seeds. -/
theorem Grows.length_le {c : Carried} (h : Grows body ⟨seeds, [], seeds, [], [], []⟩ c) :
    c.names.length ≤ seeds.length + (moduleDeclNames body).length ∧
      c.bindKeys.length ≤ (binds body).length := by
  obtain ⟨added, hnames, hnd, hadded⟩ := h.names
  obtain ⟨added', hkeys, hnd', hadded'⟩ := h.bindKeys
  have hle := (hnd.subperm fun n hn => (hadded n hn).1).length_le
  have hle' := (hnd'.subperm fun k hk => (hadded' k hk).1).length_le
  rw [hnames, hkeys]
  simp only [length_append, length_map, length_nil] at hle' ⊢
  omega

/-- Everything that is carried has been walked. -/
def Walked (c : Carried) : Prop := (∀ n ∈ c.names, n ∈ c.declWalked) ∧ ∀ k ∈ c.bindKeys, k ∈ c.bindWalked

theorem closureRound_walked {c : Carried} (hnames : (closureRound body c).names.length = c.names.length)
    (hkeys : (closureRound body c).bindKeys.length = c.bindKeys.length) : Walked (closureRound body c) := by
  obtain ⟨hgrows, hdecl, hbind⟩ := closureRound_grows body c
  obtain ⟨added, heq, -⟩ := hgrows.names
  obtain ⟨added', heq', -⟩ := hgrows.bindKeys
  have hnil : added = [] := length_eq_zero_iff.mp (by rw [heq, length_append] at hnames; omega)
  have hnil' : added' = [] := length_eq_zero_iff.mp (by rw [heq', length_append] at hkeys; omega)
  rw [hnil, append_nil] at heq
  rw [hnil', append_nil] at heq'
  exact ⟨fun n hn => hdecl n (heq ▸ hn), fun k hk => hbind k (heq' ▸ hk)⟩

/-- **The loop ends by a round that adds nothing.** -/
theorem closureLoop_settles : ∀ (fuel : Nat) (c : Carried),
    Grows body ⟨seeds, [], seeds, [], [], []⟩ c →
    seeds.length + (moduleDeclNames body).length + (binds body).length <
      fuel + c.names.length + c.bindKeys.length →
    Grows body ⟨seeds, [], seeds, [], [], []⟩ (closureLoop body fuel c) ∧
      Walked (closureLoop body fuel c)
  | 0, c, h, hfuel => by
    have hle := h.length_le
    omega
  | fuel + 1, c, h, hfuel => by
    have hround := (closureRound_grows body c).1
    have hnext := h.trans hround
    rw [closureLoop]
    split
    · rename_i hsame
      exact ⟨hnext, closureRound_walked hsame.1 hsame.2⟩
    · rename_i hchanged
      obtain ⟨added, heq, -⟩ := hround.names
      obtain ⟨added', heq', -⟩ := hround.bindKeys
      refine closureLoop_settles fuel _ hnext ?_
      simp only [heq, heq', length_append] at hchanged ⊢
      omega

theorem closure_settles (body : List Statement) (seeds : List Name) :
    Grows body ⟨seeds, [], seeds, [], [], []⟩ (closure body seeds) ∧ Walked (closure body seeds) :=
  closureLoop_settles _ _ (.refl _) (by simp only [length_nil]; omega)

/-- **What a carried declaration refers to is carried.** -/
theorem closure_decl {n r : Name} {d : Decl} (hn : n ∈ (closure body seeds).names)
    (hd : declByName body n = some d) (hr : r ∈ d.node.collect) (hmem : r ∈ moduleDeclNames body) :
    r ∈ (closure body seeds).names := by
  obtain ⟨hgrows, hwalked, -⟩ := closure_settles body seeds
  rcases hgrows.settledDecl n (hwalked n hn) with h | h
  · exact absurd h not_mem_nil
  · exact h d hd r hr hmem

theorem closure_bind {k r : Name} {b : Bind} (hk : k ∈ (closure body seeds).bindKeys)
    (hb : bindByKey body k = some b) (hr : r ∈ b.node.collect) (hmem : r ∈ moduleDeclNames body) :
    r ∈ (closure body seeds).names := by
  obtain ⟨hgrows, -, hwalked⟩ := closure_settles body seeds
  rcases hgrows.settledBind k (hwalked k hk) with h | h
  · exact absurd h not_mem_nil
  · exact h b hb r hr hmem

/-! ## 3. Where it comes from -/

theorem declByName_mem {n : Name} {d : Decl} (h : declByName body n = some d) :
    Statement.decl d ∈ body ∧ d.name = n := by
  obtain ⟨x, hx, hsome⟩ := exists_of_findSome?_eq_some h
  cases x with
  | decl d' =>
    by_cases hn : d'.name = n
    · obtain rfl : d' = d := by simpa [hn] using hsome
      exact ⟨hx, hn⟩
    · simp [hn] at hsome
  | _ => cases hsome

theorem bindByKey_mem {k : Name} {b : Bind} (h : bindByKey body k = some b) :
    Statement.bind b ∈ body ∧ bindKey b = k := by
  obtain ⟨x, hx, hsome⟩ := exists_of_findSome?_eq_some h
  cases x with
  | bind b' =>
    by_cases hk : bindKey b' = k
    · obtain rfl : b' = b := by simpa [hk] using hsome
      exact ⟨hx, hk⟩
    · simp [hk] at hsome
  | _ => cases hsome

theorem exists_declByName {d : Decl} (h : Statement.decl d ∈ body) :
    ∃ d', declByName body d.name = some d' := by
  refine Option.isSome_iff_exists.mp (findSome?_isSome_iff.mpr ⟨.decl d, h, ?_⟩)
  simp

theorem exists_bindByKey {b : Bind} (h : Statement.bind b ∈ body) :
    ∃ b', bindByKey body (bindKey b) = some b' := by
  refine Option.isSome_iff_exists.mp (findSome?_isSome_iff.mpr ⟨.bind b, h, ?_⟩)
  simp

/-- The carried names are seeds or identifiers of a statement. -/
def Mentioned (body : List Statement) (seeds : List Name) (c : Carried) : Prop :=
  ∀ n ∈ c.names, n ∈ seeds ∨ ∃ x ∈ body, n ∈ x.collect

theorem absorb_names : ∀ (refs : List Name) (c : Carried),
    ∀ n ∈ (refs.foldl (absorb body) c).names, n ∈ c.names ∨ n ∈ refs
  | [], _, _, hn => .inl hn
  | ref :: refs, c, n, hn => by
    rcases absorb_names refs _ n hn with hn | hn
    · by_cases href : ref ∈ moduleDeclNames body ∧ ref ∉ c.names
      · rw [absorb, if_pos href] at hn
        rcases mem_append.mp hn with hn | hn
        · exact .inl hn
        · exact .inr (mem_singleton.mp hn ▸ mem_cons_self)
      · rw [absorb, if_neg href] at hn
        exact .inl hn
    · exact .inr (mem_cons_of_mem _ hn)

variable {seeds : List Name}

theorem Mentioned.absorb {c : Carried} (h : Mentioned body seeds c) {x : Statement} (hx : x ∈ body) :
    Mentioned body seeds (x.collect.foldl (absorb body) c) := fun n hn => by
  rcases absorb_names x.collect c n hn with hn | hn
  · exact h n hn
  · exact .inr ⟨x, hx, hn⟩

theorem Mentioned.foldl
    (hstep : ∀ c n, Mentioned body seeds c → Mentioned body seeds (step c n)) :
    ∀ (l : List Name) (c : Carried), Mentioned body seeds c → Mentioned body seeds (l.foldl step c)
  | [], _, h => h
  | n :: l, c, h => Mentioned.foldl hstep l (step c n) (hstep c n h)

theorem Mentioned.walkDecl (c : Carried) (name : Name) (h : Mentioned body seeds c) :
    Mentioned body seeds (walkDecl body c name) := by
  unfold Modules.walkDecl
  split
  · exact h
  · simp only
    split
    · rename_i d hd
      exact Mentioned.absorb (x := .decl d) (c := { c with declWalked := name :: c.declWalked }) h
        (declByName_mem hd).1
    · exact h

theorem Mentioned.walkBind (c : Carried) (key : Name) (h : Mentioned body seeds c) :
    Mentioned body seeds (walkBind body c key) := by
  unfold Modules.walkBind
  split
  · exact h
  · simp only
    split
    · rename_i b hb
      exact Mentioned.absorb (x := .bind b) (c := { c with bindWalked := key :: c.bindWalked }) h
        (bindByKey_mem hb).1
    · exact h

theorem Mentioned.admitLoop (wanted : Carried → Name → Bool) : ∀ (fuel : Nat) (c : Carried),
    Mentioned body seeds c → Mentioned body seeds (admitLoop body wanted fuel c)
  | 0, _, h => h
  | fuel + 1, c, h => by
    have hround : Mentioned body seeds (((binds body).map bindKey).foldl (admitBind body wanted) c) := by
      refine Mentioned.foldl (fun c k hc => ?_) _ c h
      unfold admitBind
      split
      · exact hc
      · exact hc
    rw [Modules.admitLoop]
    split
    · exact hround
    · exact Mentioned.admitLoop wanted fuel _ hround

theorem Mentioned.closureLoop : ∀ (fuel : Nat) (c : Carried), Mentioned body seeds c →
    Mentioned body seeds (closureLoop body fuel c)
  | 0, _, h => h
  | fuel + 1, c, h => by
    have hround : Mentioned body seeds (closureRound body c) :=
      .admitLoop _ _ _ (.admitLoop _ _ _ (.foldl .walkBind _ _ (.foldl .walkDecl _ _ h)))
    rw [Modules.closureLoop]
    split
    · exact hround
    · exact Mentioned.closureLoop fuel _ hround

/-- **What is carried** was asked for, or a statement of the module mentions it. -/
theorem mentioned_closure (body : List Statement) (seeds : List Name) :
    Mentioned body seeds (closure body seeds) := .closureLoop _ _ fun _ hn => .inl hn

end Closure

end Vyb.Modules
