/-
  Subject:   Structured programs over events: the order of the text and the paths of execution, and a
             rule that carries a fact from one to the other.

  A one-pass analysis meets the events of a program in the order of the text, each once. An execution
  meets them along a path: one branch of two, a loop body any number of times. The rule relates a
  machine that runs along paths to one that runs along the text.

  * `text`, `Path` -- the two orders;
  * `Happens` -- an event meets a state that it hits;
  * `Framed.stack_scope` -- what a scope leaves of a stack of frames;
  * **`sim`** -- if related states stay related over single events, if analysing what a path skips
    keeps the relation, if analysing a loop body can be undone in it, and if what hits in execution
    hits in the analysis, then a hit on any path is a hit in the text.
-/
import Mathlib.Tactic

namespace Vyb.Lib

open List

/-! ## 1. Programs and their two orders -/

/-- What a machine meets: a scope is entered or left, or an event of the program. -/
inductive Ev (E : Type) where
  | enter
  | exit
  | on (e : E)

/-- Programs over events. A scope, a branch taken and a loop with its body have scopes of their own;
    the other side of a branch is a program, so that branches can be chained. -/
inductive Prog (E : Type) where
  | run (es : List E)
  | scope (body : List (Prog E))
  | branch (test : List E) (yes : List (Prog E)) (no : Prog E)
  | loop (init test update : List E) (body : List (Prog E))
  /-- the execution ends here -/
  | stop (es : List E)

section Orders

variable {E : Type}

/-- The events, met outside of any scope of their own. -/
def plain (es : List E) : List (Ev E) := es.map .on

def wrapped (es : List (Ev E)) : List (Ev E) := .enter :: (es ++ [.exit])

mutual

/-- The events in the order of the text: a loop's update comes before its body. -/
def text : Prog E → List (Ev E)
  | .run es => plain es
  | .scope b => wrapped (textAll b)
  | .branch c y n => plain c ++ (wrapped (textAll y) ++ text n)
  | .loop i c u b => wrapped (plain i ++ (plain c ++ (plain u ++ wrapped (textAll b))))
  | .stop es => plain es

def textAll : List (Prog E) → List (Ev E)
  | [] => []
  | p :: ps => text p ++ textAll ps

end

/-- A scope in execution: it is not left if the execution ends inside. -/
def leave (es : List (Ev E)) (stopped : Bool) : List (Ev E) :=
  .enter :: if stopped then es else es ++ [.exit]

/-- A loop in execution, for bodies `B`. -/
inductive Loop (test update : List (Ev E)) (B : List (Ev E) → Bool → Prop) :
    List (Ev E) → Bool → Prop
  | done : Loop test update B test false
  | stop {es : List (Ev E)} : B es true → Loop test update B (test ++ es) true
  | again {es fs : List (Ev E)} {s : Bool} : B es false → Loop test update B fs s →
      Loop test update B (test ++ es ++ update ++ fs) s

mutual

/-- The events of an execution, and whether it ends inside. -/
def Path : Prog E → List (Ev E) → Bool → Prop
  | .run es, tr, s => tr = plain es ∧ s = false
  | .scope b, tr, s => ∃ es, PathAll b es s ∧ tr = leave es s
  | .branch c y n, tr, s =>
    ∃ es, ((∃ gs, PathAll y gs s ∧ es = leave gs s) ∨ Path n es s) ∧ tr = plain c ++ es
  | .loop i c u b, tr, s =>
    ∃ es, Loop (plain c) (plain u) (fun fs r => ∃ gs, PathAll b gs r ∧ fs = leave gs r) es s ∧
      tr = leave (plain i ++ es) s
  | .stop es, tr, s => tr = plain es ∧ s = true

def PathAll : List (Prog E) → List (Ev E) → Bool → Prop
  | [], tr, s => tr = [] ∧ s = false
  | p :: ps, tr, s =>
    (Path p tr true ∧ s = true) ∨ ∃ es fs, Path p es false ∧ PathAll ps fs s ∧ tr = es ++ fs

end

theorem PathAll.cons {p : Prog E} {ps : List (Prog E)} {es fs : List (Ev E)} {s : Bool} (hp : Path p es false)
    (hps : PathAll ps fs s) : PathAll (p :: ps) (es ++ fs) s :=
  .inr ⟨es, fs, hp, hps, rfl⟩

theorem PathAll.nil : PathAll ([] : List (Prog E)) [] false := ⟨rfl, rfl⟩

theorem Path.run (es : List E) : Path (.run es) (plain es) false := ⟨rfl, rfl⟩

theorem Path.scope {b : List (Prog E)} {es : List (Ev E)} {s : Bool} (h : PathAll b es s) :
    Path (.scope b) (leave es s) s := ⟨es, h, rfl⟩

theorem Path.loop {i c u : List E} {b : List (Prog E)} {es : List (Ev E)} {s : Bool}
    (h : Loop (plain c) (plain u) (fun fs r => ∃ gs, PathAll b gs r ∧ fs = leave gs r) es s) :
    Path (.loop i c u b) (leave (plain i ++ es) s) s := ⟨es, h, rfl⟩

end Orders

/-! ## 2. Machines over events -/

section Machines

variable {E S : Type} (step : S → E → S) (hit : S → E → Prop)

/-- Some event hits the state it meets. -/
def Happens : S → List E → Prop
  | _, [] => False
  | s, e :: es => hit s e ∨ Happens (step s e) es

/-- Every event hits the state it meets. -/
def Always : S → List E → Prop
  | _, [] => True
  | s, e :: es => hit s e ∧ Always (step s e) es

instance decidableHappens [∀ s e, Decidable (hit s e)] : ∀ (s : S) (es : List E),
    Decidable (Happens step hit s es)
  | _, [] => isFalse id
  | s, e :: es =>
    have := decidableHappens (step s e) es
    inferInstanceAs (Decidable (_ ∨ _))

instance decidableAlways [∀ s e, Decidable (hit s e)] : ∀ (s : S) (es : List E),
    Decidable (Always step hit s es)
  | _, [] => isTrue trivial
  | s, e :: es =>
    have := decidableAlways (step s e) es
    inferInstanceAs (Decidable (_ ∧ _))

variable {step hit}

theorem happens_append : ∀ (es fs : List E) (s : S),
    Happens step hit s (es ++ fs) ↔ Happens step hit s es ∨ Happens step hit (es.foldl step s) fs
  | [], fs, s => by simp [Happens]
  | e :: es, fs, s => by
    simp only [cons_append, Happens, foldl_cons, happens_append es fs, or_assoc]

theorem always_append : ∀ (es fs : List E) (s : S),
    Always step hit s (es ++ fs) ↔ Always step hit s es ∧ Always step hit (es.foldl step s) fs
  | [], fs, s => by simp [Always]
  | e :: es, fs, s => by
    simp only [cons_append, Always, foldl_cons, always_append es fs, and_assoc]

theorem always_and {hit' : S → E → Prop} : ∀ {es : List E} {s : S}, Always step hit s es →
    Always step hit' s es → Always step (fun s e => hit s e ∧ hit' s e) s es
  | [], _, _, _ => trivial
  | _ :: _, _, h, h' => ⟨⟨h.1, h'.1⟩, always_and h.2 h'.2⟩

theorem always_not : ∀ {es : List E} {s : S}, ¬ Happens step hit s es →
    Always step (fun s e => ¬ hit s e) s es
  | [], _, _ => trivial
  | _ :: _, _, h => ⟨fun h' => h (.inl h'), always_not fun h' => h (.inr h')⟩

/-- What a hit brings about and no step undoes is there at the end. -/
theorem happens_final {P : S → Prop} (hhit : ∀ s e, hit s e → P (step s e))
    (hkeep : ∀ s e, P s → P (step s e)) : ∀ (es : List E) {s : S},
    P s ∨ Happens step hit s es → P (es.foldl step s)
  | [], _, h => h.elim id False.elim
  | e :: es, s, h => by
    refine happens_final hhit hkeep es ?_
    rcases h with h | h | h
    · exact .inl (hkeep s e h)
    · exact .inl (hhit s e h)
    · exact .inr h

/-! A machine that another one is a part of: `f` takes the states of the one to those of the other. -/

variable {T : Type} {step' : T → E → T} {f : S → T}

theorem foldl_map (hf : ∀ s e, f (step s e) = step' (f s) e) : ∀ (es : List E) (s : S),
    f (es.foldl step s) = es.foldl step' (f s)
  | [], _ => rfl
  | e :: es, s => by rw [foldl_cons, foldl_cons, foldl_map hf es, hf]

theorem always_map {ok : T → E → Prop} (hf : ∀ s e, f (step s e) = step' (f s) e) :
    ∀ (es : List E) (s : S), Always step' ok (f s) es → Always step (fun s e => ok (f s) e) s es
  | [], _, _ => trivial
  | e :: es, s, h => ⟨h.1, always_map hf es (step s e) (by rw [hf]; exact h.2)⟩

end Machines

/-! ## 3. A stack of scopes -/

section Stack

variable {E S F : Type} (step : S → Ev E → S) (stack : S → List F) (r : F → F → Prop)

/-- The machine keeps a stack with one frame for every open scope. What an event does to the frames
    below the innermost one, and the end of a scope to all frames, stays within `r`. -/
structure Framed : Prop where
  refl : ∀ f, r f f
  trans : ∀ f g h, r f g → r g h → r f h
  enter : ∀ s, ∃ f, stack (step s .enter) = f :: stack s
  exit : ∀ s f fs, stack s = f :: fs → List.Forall₂ r (stack (step s .exit)) fs
  on : ∀ s e f fs, stack s = f :: fs →
    ∃ f' fs', stack (step s (.on e)) = f' :: fs' ∧ List.Forall₂ r fs' fs

/-- The events do no more than `r` below the innermost frame. -/
def KeepsTail (s : S) (es : List (Ev E)) : Prop :=
  ∀ f fs, stack s = f :: fs → ∃ f' fs', stack (es.foldl step s) = f' :: fs' ∧ List.Forall₂ r fs' fs

variable {step stack r} (H : Framed step stack r)

include H

theorem Framed.refl_all (fs : List F) : List.Forall₂ r fs fs := List.forall₂_same.mpr fun f _ => H.refl f

theorem Framed.trans_all {fs gs hs : List F} (h : List.Forall₂ r fs gs)
    (h' : List.Forall₂ r gs hs) : List.Forall₂ r fs hs := by
  induction h generalizing hs with
  | nil => exact h'
  | cons hfg _ ih =>
    obtain ⟨_, _⟩ := h'
    rename_i hgh hrest
    exact .cons (H.trans _ _ _ hfg hgh) (ih hrest)

theorem KeepsTail.append {s : S} {es fs : List (Ev E)}
    (h : KeepsTail step stack r s es) (h' : KeepsTail step stack r (es.foldl step s) fs) :
    KeepsTail step stack r s (es ++ fs) := by
  intro g gs hg
  obtain ⟨g', gs', hg', hr⟩ := h g gs hg
  obtain ⟨g'', gs'', hg'', hr'⟩ := h' g' gs' hg'
  rw [foldl_append]
  exact ⟨g'', gs'', hg'', H.trans_all hr' hr⟩

theorem Framed.keepsTail_plain : ∀ (es : List E) (s : S), KeepsTail step stack r s (plain es)
  | [], _, f, fs, h => ⟨f, fs, h, H.refl_all fs⟩
  | e :: es, s, f, fs, h => by
    obtain ⟨f', fs', hf', hr⟩ := H.on s e f fs h
    obtain ⟨f'', fs'', hf'', hr'⟩ := Framed.keepsTail_plain es _ f' fs' hf'
    exact ⟨f'', fs'', hf'', H.trans_all hr' hr⟩

theorem Framed.stack_wrapped {s : S} {es : List (Ev E)}
    (h : KeepsTail step stack r (step s .enter) es) :
    List.Forall₂ r (stack ((wrapped es).foldl step s)) (stack s) := by
  obtain ⟨f, hf⟩ := H.enter s
  obtain ⟨f', fs', hf', hr⟩ := h f _ hf
  rw [wrapped, foldl_cons, foldl_append, foldl_cons, foldl_nil]
  exact H.trans_all (H.exit _ f' fs' hf') hr

theorem Framed.keepsTail_wrapped {s : S} {es : List (Ev E)}
    (h : KeepsTail step stack r (step s .enter) es) : KeepsTail step stack r s (wrapped es) := by
  intro f fs hf
  have hw := H.stack_wrapped h
  rw [hf] at hw
  cases hst : stack ((wrapped es).foldl step s) with
  | nil => rw [hst] at hw; cases hw
  | cons g gs =>
    rw [hst] at hw
    exact ⟨g, gs, rfl, (List.forall₂_cons.mp hw).2⟩

omit H

mutual

theorem Framed.text_tail (H : Framed step stack r) : ∀ (p : Prog E) (s : S),
    KeepsTail step stack r s (text p)
  | .run es, s | .stop es, s => H.keepsTail_plain es s
  | .scope b, _ => H.keepsTail_wrapped (H.textAll_tail b _)
  | .branch c y n, s =>
    (H.keepsTail_plain c s).append H
      ((H.keepsTail_wrapped (H.textAll_tail y _)).append H (H.text_tail n _))
  | .loop i c u b, _ =>
    H.keepsTail_wrapped ((H.keepsTail_plain i _).append H ((H.keepsTail_plain c _).append H
      ((H.keepsTail_plain u _).append H (H.keepsTail_wrapped (H.textAll_tail b _)))))

theorem Framed.textAll_tail (H : Framed step stack r) : ∀ (ps : List (Prog E)) (s : S),
    KeepsTail step stack r s (textAll ps)
  | [], _ => fun f fs hf => ⟨f, fs, hf, H.refl_all fs⟩
  | p :: ps, s => (H.text_tail p s).append H (H.textAll_tail ps _)

end

/-- The stack of a part of the machine. -/
theorem Framed.part {S' : Type} {step' : S' → Ev E → S'} {f : S' → S} (H : Framed step stack r)
    (hf : ∀ s e, f (step' s e) = step (f s) e) : Framed step' (fun s => stack (f s)) r where
  refl := H.refl
  trans := H.trans
  enter s := by rw [hf]; exact H.enter (f s)
  exit s g gs h := by rw [hf]; exact H.exit (f s) g gs h
  on s e g gs h := by rw [hf]; exact H.on (f s) e g gs h

/-- Related stacks: every frame of the second has its partner in the first. -/
theorem exists_of_forall₂ {fs gs : List F} (h : List.Forall₂ r fs gs) {g : F} (hg : g ∈ gs) :
    ∃ f ∈ fs, r f g := by
  induction h with
  | nil => cases hg
  | cons hr _ ih =>
    rcases mem_cons.mp hg with rfl | hg
    · exact ⟨_, mem_cons_self, hr⟩
    · obtain ⟨f, hf, hfg⟩ := ih hg
      exact ⟨f, mem_cons_of_mem _ hf, hfg⟩

/-- **A scope leaves the stack as it was, up to `r`.** -/
theorem Framed.stack_scope (H : Framed step stack r) (b : List (Prog E)) (s : S) :
    List.Forall₂ r (stack ((wrapped (textAll b)).foldl step s)) (stack s) :=
  H.stack_wrapped (H.textAll_tail b _)

/-- A scope leaves the stack as it was, if no event touches the frames around. -/
theorem Framed.stack_scope_eq (H : Framed step stack (fun f g => f = g)) (b : List (Prog E)) (s : S) :
    stack ((wrapped (textAll b)).foldl step s) = stack s := by
  have h := H.stack_scope b s
  rwa [List.forall₂_eq_eq_eq] at h

end Stack

/-! ## 4. From paths to the text -/

section Simulation

variable {E D A : Type} (stepD : D → Ev E → D) (stepA : A → Ev E → A)
  (bad : D → Ev E → Prop) (rep ok : A → Ev E → Prop) (R : D → A → Prop)
  (U : A → List E → Prop) (W : A → A → Prop)

/-- What the program does outside of its own scopes meets `U`. -/
def Still (a : A) : Prog E → Prop
  | .run es => U a es
  | .scope _ => True
  | .branch c y n =>
    U a c ∧ Still ((wrapped (textAll y)).foldl stepA ((plain c).foldl stepA a)) n
  | .loop _ _ _ _ => True
  | .stop es => U a es

mutual

/-- What execution may skip or repeat: the other side of a branch and the tests and updates of loops
    meet `U`, and a loop body takes the analysis from one state to another as `W` asks. -/
def Steady (a : A) : Prog E → Prop
  | .run _ => True
  | .scope b => SteadyAll (stepA a .enter) b
  | .branch c y n =>
    SteadyAll (stepA ((plain c).foldl stepA a) .enter) y ∧
      Still stepA U ((wrapped (textAll y)).foldl stepA ((plain c).foldl stepA a)) n ∧
      Steady ((wrapped (textAll y)).foldl stepA ((plain c).foldl stepA a)) n
  | .loop i c u b =>
    let head := (plain i).foldl stepA (stepA a .enter)
    let tested := (plain c).foldl stepA head
    let updated := (plain u).foldl stepA tested
    U head c ∧ U tested u ∧ W updated ((wrapped (textAll b)).foldl stepA updated) ∧
      SteadyAll (stepA updated .enter) b
  | .stop _ => True

def SteadyAll (a : A) : List (Prog E) → Prop
  | [] => True
  | p :: ps => Steady a p ∧ SteadyAll ((text p).foldl stepA a) ps

end

section Decide

variable [∀ a es, Decidable (U a es)] [∀ a a', Decidable (W a a')]

instance decidableStill : ∀ (a : A) (p : Prog E), Decidable (Still stepA U a p)
  | a, .run es => inferInstanceAs (Decidable (U a es))
  | _, .scope _ => isTrue trivial
  | a, .branch c y n =>
    have := decidableStill ((wrapped (textAll y)).foldl stepA ((plain c).foldl stepA a)) n
    inferInstanceAs (Decidable (_ ∧ _))
  | _, .loop _ _ _ _ => isTrue trivial
  | a, .stop es => inferInstanceAs (Decidable (U a es))

mutual

def decidableSteady : ∀ (a : A) (p : Prog E), Decidable (Steady stepA U W a p)
  | _, .run _ => isTrue trivial
  | a, .scope b => decidableSteadyAll (stepA a .enter) b
  | a, .branch c y n =>
    have := decidableSteadyAll (stepA ((plain c).foldl stepA a) .enter) y
    have := decidableSteady ((wrapped (textAll y)).foldl stepA ((plain c).foldl stepA a)) n
    inferInstanceAs (Decidable (_ ∧ _ ∧ _))
  | a, .loop i c u b =>
    have := decidableSteadyAll (stepA ((plain u).foldl stepA ((plain c).foldl stepA
      ((plain i).foldl stepA (stepA a .enter)))) .enter) b
    inferInstanceAs (Decidable (_ ∧ _ ∧ _ ∧ _))
  | _, .stop _ => isTrue trivial

def decidableSteadyAll : ∀ (a : A) (ps : List (Prog E)), Decidable (SteadyAll stepA U W a ps)
  | _, [] => isTrue trivial
  | a, p :: ps =>
    have := decidableSteady a p
    have := decidableSteadyAll ((text p).foldl stepA a) ps
    inferInstanceAs (Decidable (_ ∧ _))

end

instance (a : A) (p : Prog E) : Decidable (Steady stepA U W a p) := decidableSteady stepA U W a p

end Decide

section Parts

variable {B : Type} {stepB : B → Ev E → B} {UB : B → List E → Prop} {WB : B → B → Prop}
  {stepA : A → Ev E → A} {f : A → B}

theorem still_map (hf : ∀ a e, f (stepA a e) = stepB (f a) e) : ∀ (p : Prog E) (a : A),
    Still stepB UB (f a) p → Still stepA (fun a es => UB (f a) es) a p
  | .run _, _, h | .stop _, _, h => h
  | .scope _, _, _ | .loop _ _ _ _, _, _ => trivial
  | .branch c y n, a, h => by
    refine ⟨h.1, still_map hf n _ ?_⟩
    simp only [foldl_map hf]
    exact h.2

mutual

theorem steady_map (hf : ∀ a e, f (stepA a e) = stepB (f a) e) : ∀ (p : Prog E) (a : A),
    Steady stepB UB WB (f a) p →
      Steady stepA (fun a es => UB (f a) es) (fun a a' => WB (f a) (f a')) a p
  | .run _, _, _ | .stop _, _, _ => trivial
  | .scope b, a, h => steadyAll_map hf b _ (by rw [hf]; exact h)
  | .branch c y n, a, h => by
    refine ⟨steadyAll_map hf y _ ?_, still_map hf n _ ?_, steady_map hf n _ ?_⟩
    all_goals simp only [hf, foldl_map hf]
    · exact h.1
    · exact h.2.1
    · exact h.2.2
  | .loop i c u b, a, h => by
    refine ⟨?_, ?_, ?_, steadyAll_map hf b _ ?_⟩
    all_goals simp only [hf, foldl_map hf]
    · exact h.1
    · exact h.2.1
    · exact h.2.2.1
    · exact h.2.2.2

theorem steadyAll_map (hf : ∀ a e, f (stepA a e) = stepB (f a) e) : ∀ (ps : List (Prog E)) (a : A),
    SteadyAll stepB UB WB (f a) ps →
      SteadyAll stepA (fun a es => UB (f a) es) (fun a a' => WB (f a) (f a')) a ps
  | [], _, _ => trivial
  | p :: ps, a, h => ⟨steady_map hf p a h.1, steadyAll_map hf ps _ (by rw [foldl_map hf]; exact h.2)⟩

end

end Parts

/-- What the rule asks of the two machines. -/
structure Simulation : Prop where
  step : ∀ d a e, R d a → ok a e → (bad d e → rep a e) ∧ R (stepD d e) (stepA a e)
  /-- a scope is skipped -/
  skip : ∀ d a b, R d a → R d ((wrapped (textAll b)).foldl stepA a)
  steady : ∀ d a es, U a es → (R d a ↔ R d ((plain es).foldl stepA a))
  /-- a path comes back to before a loop body -/
  back : ∀ d d₀ a b, W a ((wrapped (textAll b)).foldl stepA a) → R d₀ a →
    R d ((wrapped (textAll b)).foldl stepA a) → R d a

/-- What the rule gives for one stretch of a path and of the text. -/
def Carried (d : D) (a : A) (tr es : List (Ev E)) (s : Bool) : Prop :=
  (Happens stepD bad d tr → Happens stepA rep a es) ∧
    (s = false → R (tr.foldl stepD d) (es.foldl stepA a))

/-- What `sim` shows for the body of a scope or a loop. -/
def BodyCarried (b : List (Prog E)) : Prop :=
  ∀ {d : D} {a : A} {es : List (Ev E)} {s : Bool}, R d a → Always stepA ok a (textAll b) →
    SteadyAll stepA U W a b → PathAll b es s → Carried stepD stepA bad rep R d a es (textAll b) s

variable {stepD stepA bad rep ok R U W} (S : Simulation stepD stepA bad rep ok R U W)

include S

theorem sim_events : ∀ (es : List (Ev E)) {d : D} {a : A}, R d a → Always stepA ok a es →
      (Happens stepD bad d es → Happens stepA rep a es) ∧ R (es.foldl stepD d) (es.foldl stepA a)
  | [], _, _, hR, _ => ⟨id, hR⟩
  | e :: es, d, a, hR, hok => by
    obtain ⟨hbad, hR'⟩ := S.step d a e hR hok.1
    obtain ⟨hhap, hR''⟩ := sim_events es hR' hok.2
    exact ⟨fun h => h.imp hbad hhap, hR''⟩

/-- Events that the path and the text share come first. -/
theorem Carried.after {c es t : List (Ev E)} {s : Bool} {d : D}
    {a : A} (hR : R d a) (hok : Always stepA ok a c)
    (h : Carried stepD stepA bad rep R (c.foldl stepD d) (c.foldl stepA a) es t s) :
    Carried stepD stepA bad rep R d a (c ++ es) (c ++ t) s := by
  simp only [Carried, happens_append, foldl_append]
  exact ⟨fun h' => h'.imp (sim_events S c hR hok).1 h.1, h.2⟩

theorem Carried.enclosed {es t : List (Ev E)} {s : Bool} {d : D}
    {a : A} (hR : R d a) (hok : Always stepA ok a (wrapped t))
    (h : Carried stepD stepA bad rep R (stepD d .enter) (stepA a .enter) es t s) :
    Carried stepD stepA bad rep R d a (leave es s) (wrapped t) s := by
  obtain ⟨hok1, hok2⟩ := hok
  have hokx := ((always_append _ _ _).mp hok2).2
  have hbad1 := (S.step d a .enter hR hok1).1
  unfold Carried leave wrapped
  cases s with
  | true =>
    simp only [↓reduceIte, Happens, happens_append]
    exact ⟨fun h' => h'.imp hbad1 fun h' => .inl (h.1 h'), fun h' => absurd h' (by simp)⟩
  | false =>
    obtain ⟨hbadx, hRx⟩ := sim_events S [.exit] (h.2 rfl) hokx
    simp only [Bool.false_eq_true, ↓reduceIte, Happens, happens_append, foldl_cons,
      foldl_append, forall_const]
    exact ⟨fun h' => h'.imp hbad1 fun h' => h'.imp h.1 hbadx, hRx⟩

theorem sim_scope {b : List (Prog E)}
    (ih : BodyCarried stepD stepA bad rep ok R U W b) {es : List (Ev E)} {s : Bool} {d : D} {a : A}
    (hR : R d a) (hok : Always stepA ok a (wrapped (textAll b))) (hU : SteadyAll stepA U W (stepA a .enter) b)
    (hp : PathAll b es s) : Carried stepD stepA bad rep R d a (leave es s) (wrapped (textAll b)) s := by
  have hokb := ((always_append _ _ _).mp hok.2).1
  exact Carried.enclosed S hR hok (ih (S.step d a .enter hR hok.1).2 hokb hU hp)

/-- A loop, from any of its heads; the analysis has met `init` in the state `a`. -/
theorem sim_loop {c u : List E} {b : List (Prog E)}
    (ih : BodyCarried stepD stepA bad rep ok R U W b) {a : A}
    (hok : Always stepA ok a (plain c ++ (plain u ++ wrapped (textAll b)))) (hc : U a c)
    (hu : U ((plain c).foldl stepA a) u) (hW : W ((plain u).foldl stepA ((plain c).foldl stepA a))
      ((wrapped (textAll b)).foldl stepA ((plain u).foldl stepA ((plain c).foldl stepA a))))
    (hU : SteadyAll stepA U W
      (stepA ((plain u).foldl stepA ((plain c).foldl stepA a)) .enter) b) {es : List (Ev E)} {s : Bool}
    (hl : Loop (plain c) (plain u) (fun fs r => ∃ gs, PathAll b gs r ∧ fs = leave gs r) es s) :
    ∀ {d : D}, R d a → Carried stepD stepA bad rep R d a es
      (plain c ++ (plain u ++ wrapped (textAll b))) s := by
  simp only [always_append] at hok
  obtain ⟨hokc, hoku, hokb⟩ := hok
  have qc := fun d => S.steady d a c hc
  have qu := fun d => S.steady d _ u hu
  simp only [Carried, happens_append, foldl_append]
  induction hl with
  | done =>
    intro d hR
    obtain ⟨hbad, hR1⟩ := sim_events S _ hR hokc
    exact ⟨fun h => .inl (hbad h), fun _ => S.skip _ _ b ((qu _).mp hR1)⟩
  | stop hb =>
    intro d hR
    obtain ⟨gs, hgs, rfl⟩ := hb
    obtain ⟨hbad, hR1⟩ := sim_events S _ hR hokc
    have hscope := sim_scope S ih ((qu _).mp hR1) hokb hU hgs
    refine ⟨fun h => ?_, fun h => absurd h (by simp)⟩
    rcases (happens_append _ _ _).mp h with h | h
    · exact .inl (hbad h)
    · exact .inr (Or.inr (hscope.1 h))
  | again hb _ hrest =>
    intro d hR
    obtain ⟨gs, hgs, rfl⟩ := hb
    obtain ⟨hbadc, hR1⟩ := sim_events S _ hR hokc
    have hscope := sim_scope S ih ((qu _).mp hR1) hokb hU hgs
    -- back from after the body to before the update, where the path is next
    have hback := S.back _ _ _ b hW ((qu _).mp hR1) (hscope.2 rfl)
    obtain ⟨hbadu, hR2⟩ := sim_events S _ ((qu _).mpr hback) hoku
    obtain ⟨hbadr, hR3⟩ := hrest ((qc _).mpr ((qu _).mpr hR2))
    simp only [happens_append, foldl_append]
    refine ⟨fun h => ?_, hR3⟩
    rcases h with ((h | h) | h) | h
    · exact .inl (hbadc h)
    · exact .inr (Or.inr (hscope.1 h))
    · exact .inr (.inl (hbadu h))
    · exact hbadr h

/-- The side of a branch that is not taken. -/
theorem skip_still : ∀ (p : Prog E) {d : D} {a : A}, Still stepA U a p → R d a → R d ((text p).foldl stepA a)
  | .run es, d, a, h, hR | .stop es, d, a, h, hR => (S.steady d a es h).mp hR
  | .scope b, d, a, _, hR => S.skip d a b hR
  | .branch c y n, d, a, h, hR => by
    simp only [text, foldl_append]
    exact skip_still n h.2 (S.skip _ _ y ((S.steady d a c h.1).mp hR))
  | .loop i c u b, d, a, _, hR => by
    have hs := S.skip d a [.run i, .run c, .run u, .scope b] hR
    simp only [textAll, text, append_nil] at hs
    exact hs

omit S

mutual

/-- **The rule**: a hit on a path is a hit in the text, and the relation is kept to the end. -/
theorem sim (S : Simulation stepD stepA bad rep ok R U W) :
    ∀ (p : Prog E) {d : D} {a : A} {tr : List (Ev E)} {s : Bool}, R d a →
      Always stepA ok a (text p) → Steady stepA U W a p →
      Path p tr s → Carried stepD stepA bad rep R d a tr (text p) s
  | .run es, d, a, tr, s, hR, hok, _, hp => by
    obtain ⟨rfl, rfl⟩ := hp
    obtain ⟨hbad, hR'⟩ := sim_events S _ hR hok
    exact ⟨hbad, fun _ => hR'⟩
  | .stop es, d, a, tr, s, hR, hok, _, hp => by
    obtain ⟨rfl, rfl⟩ := hp
    exact ⟨(sim_events S _ hR hok).1, fun h => absurd h (by simp)⟩
  | .scope b, d, a, tr, s, hR, hok, hU, hp => by
    obtain ⟨es, hes, rfl⟩ := hp
    exact sim_scope S (simAll S b) hR hok hU hes
  | .branch c y n, d, a, tr, s, hR, hok, hU, hp => by
    obtain ⟨es, hes, rfl⟩ := hp
    obtain ⟨hUy, hstill, hUn⟩ := hU
    simp only [text, always_append] at hok
    obtain ⟨hokc, hoky, hokn⟩ := hok
    have hR1 := (sim_events S _ hR hokc).2
    refine Carried.after S hR hokc ?_
    simp only [Carried, happens_append, foldl_append]
    rcases hes with ⟨gs, hgs, rfl⟩ | hes
    · have hscope := sim_scope S (simAll S y) hR1 hoky hUy hgs
      exact ⟨fun h => .inl (hscope.1 h), fun hs => skip_still S n hstill (hscope.2 hs)⟩
    · have hno := sim S n (S.skip _ _ y hR1) hokn hUn hes
      exact ⟨fun h => .inr (hno.1 h), hno.2⟩
  | .loop i c u b, d, a, tr, s, hR, hok, hU, hp => by
    obtain ⟨es, hes, rfl⟩ := hp
    obtain ⟨hc, hu, hW, hb⟩ := hU
    obtain ⟨hoki, hokl⟩ := (always_append _ _ _).mp ((always_append _ _ _).mp hok.2).1
    have hR1 := (S.step d a .enter hR hok.1).2
    have hR2 := (sim_events S _ hR1 hoki).2
    exact Carried.enclosed S hR hok
      (Carried.after S hR1 hoki (sim_loop S (simAll S b) hokl hc hu hW hb hes hR2))

theorem simAll (S : Simulation stepD stepA bad rep ok R U W) :
    ∀ (ps : List (Prog E)), BodyCarried stepD stepA bad rep ok R U W ps
  | [], d, a, tr, s, hR, _, _, hp => by
    obtain ⟨rfl, rfl⟩ := hp
    exact ⟨id, fun _ => hR⟩
  | p :: ps, d, a, tr, s, hR, hok, hU, hp => by
    obtain ⟨hokp, hokps⟩ := (always_append _ _ _).mp hok
    simp only [textAll, Carried, happens_append, foldl_append]
    rcases hp with ⟨hp, rfl⟩ | ⟨es, fs, hp, hps, rfl⟩
    · exact ⟨fun h => .inl ((sim S p hR hokp hU.1 hp).1 h), fun h => absurd h (by simp)⟩
    · obtain ⟨hbad1, hR1⟩ := sim S p hR hokp hU.1 hp
      obtain ⟨hbad2, hR2⟩ := simAll S ps (hR1 rfl) hokps hU.2 hps
      simp only [happens_append, foldl_append]
      exact ⟨fun h => h.imp hbad1 hbad2, hR2⟩

end

end Simulation

end Vyb.Lib
