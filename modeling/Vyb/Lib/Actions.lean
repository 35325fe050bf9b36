/-
  Subject:   Rules for actions that change a state and may throw (`EStateM`).

  What an action did to the state stays when it throws, so a rule speaks of both ends.

  * `Ends r Q E` -- the run `r` returned with `Q`, or threw with `E`;
  * `ends_bind`, `ends_tryCatch`, `ends_foldlM` -- sequencing, catching and the invariant rule of a loop
    over a list;
  * `Keeps π x` -- the action leaves the part `π` of the state as it was, at both ends.
-/
import Mathlib.Tactic

namespace Vyb.Lib

open List

universe u

variable {ε σ α β ι : Type}

/-- The run returned a value with `Q`, or threw an error with `E`. -/
def Ends (r : EStateM.Result ε σ α) (Q : α → σ → Prop) (E : ε → σ → Prop) : Prop :=
  match r with
  | .ok a s => Q a s
  | .error e s => E e s

variable {x : EStateM ε σ α}

section Rules

variable {Q : α → σ → Prop} {R : β → σ → Prop} {E : ε → σ → Prop} {s : σ} {E' : ε → σ → Prop}

theorem Ends.mono {r : EStateM.Result ε σ α} {Q' : α → σ → Prop} (h : Ends r Q E) (hQ : ∀ a s, Q a s → Q' a s)
    (hE : ∀ e s, E e s → E' e s) : Ends r Q' E' := by
  cases r with
  | ok a s => exact hQ a s h
  | error e s => exact hE e s h

theorem Ends.true (r : EStateM.Result ε σ α) : Ends r (fun _ _ => True) (fun _ _ => True) := by
  cases r <;> exact trivial

theorem Ends.and {r : EStateM.Result ε σ α} {Q' : α → σ → Prop} (h : Ends r Q E) (h' : Ends r Q' E') :
    Ends r (fun a s => Q a s ∧ Q' a s) (fun e s => E e s ∧ E' e s) := by
  cases r with
  | ok a s | error e s => exact ⟨h, h'⟩

theorem ends_pure {a : α} (h : Q a s) : Ends ((pure a : EStateM ε σ α) s) Q E := h

theorem ends_throw {e : ε} (h : E e s) : Ends ((throw e : EStateM ε σ α) s) Q E := h

theorem ends_modify {f : σ → σ} {Q : PUnit → σ → Prop} (h : Q ⟨⟩ (f s)) :
    Ends ((modify f : EStateM ε σ PUnit) s) Q E := h

/-- **Sequencing.** -/
theorem ends_bind {f : α → EStateM ε σ β} (hx : Ends (x s) Q E) (hf : ∀ a s', Q a s' → Ends (f a s') R E) :
    Ends ((x >>= f) s) R E := by
  show Ends (EStateM.bind x f s) R E
  rw [EStateM.bind]
  cases hr : x s with
  | ok a s' =>
    rw [hr] at hx
    exact hf a s' hx
  | error e s' =>
    rw [hr] at hx
    exact hx

theorem ends_get {f : σ → EStateM ε σ β} (h : Ends (f s s) R E) : Ends ((get >>= f) s) R E := h

theorem ends_update {g : σ → σ} {f : PUnit → EStateM ε σ β} (h : Ends (f ⟨⟩ (g s)) R E) :
    Ends ((modify g >>= f) s) R E := h

/-- **Catching.** The handler starts in the state of the throw. -/
theorem ends_tryCatch {handle : ε → EStateM ε σ α} (hx : Ends (x s) Q E)
    (hh : ∀ e s', E e s' → Ends (handle e s') Q E') : Ends ((tryCatch x handle : EStateM ε σ α) s) Q E' := by
  show Ends (EStateM.tryCatch x handle s) Q E'
  rw [EStateM.tryCatch]
  cases hr : x s with
  | ok a s' =>
    rw [hr] at hx
    exact hx
  | error e s' =>
    rw [hr] at hx
    exact hh e s' hx

/-- **The invariant of a loop over a list** speaks of the items that are done. -/
theorem ends_foldlM {f : β → ι → EStateM ε σ β} {I : List ι → β → σ → Prop} :
    ∀ {todo done : List ι} {b : β} {s : σ}, I done b s →
      (∀ pre i b s, i ∈ todo → I pre b s → Ends (f b i s) (I (pre ++ [i])) E) →
      Ends ((todo.foldlM f b) s) (I (done ++ todo)) E
  | [], done, b, s, h, _ => by
    rw [foldlM_nil, append_nil]
    exact ends_pure h
  | i :: todo, done, b, s, h, hstep => by
    refine ends_bind (hstep done i b s mem_cons_self h) fun b' s' h' => ?_
    rw [append_cons done i todo]
    exact ends_foldlM h' fun pre j b s hj => hstep pre j b s (mem_cons_of_mem _ hj)

end Rules

/-! ## Parts of the state that stay -/

variable {γ : Type} {π : σ → γ}

/-- At both ends the part `π` of the state is what it was. -/
def Keeps (π : σ → γ) (x : EStateM ε σ α) : Prop :=
  ∀ s, Ends (x s) (fun _ s' => π s' = π s) (fun _ s' => π s' = π s)

theorem keeps_pure (a : α) : Keeps π (pure a : EStateM ε σ α) := fun _ => rfl

theorem keeps_throw (e : ε) : Keeps π (throw e : EStateM ε σ α) := fun _ => rfl

theorem keeps_modify {f : σ → σ} (h : ∀ s, π (f s) = π s) : Keeps π (modify f : EStateM ε σ PUnit) := h

theorem Keeps.bind {f : α → EStateM ε σ β} (hx : Keeps π x) (hf : ∀ a, Keeps π (f a)) :
    Keeps π (x >>= f) := fun s =>
  ends_bind (hx s) fun a s' hs' => hs' ▸ hf a s'

theorem keeps_get {f : σ → EStateM ε σ β} (hf : ∀ s, Keeps π (f s)) : Keeps π (get >>= f) := fun s =>
  ends_get (hf s s)

theorem Keeps.tryCatch {x : EStateM ε σ α} {handle : ε → EStateM ε σ α} (hx : Keeps π x)
    (hh : ∀ e, Keeps π (handle e)) : Keeps π (tryCatch x handle : EStateM ε σ α) := fun s =>
  ends_tryCatch (hx s) fun e s' hs' => hs' ▸ hh e s'

theorem keeps_foldlM {f : β → ι → EStateM ε σ β} (hf : ∀ b i, Keeps π (f b i)) :
    ∀ (l : List ι) (b : β), Keeps π (l.foldlM f b)
  | [], b => keeps_pure b
  | i :: l, b => by
    exact (hf b i).bind fun b' => keeps_foldlM hf l b'

end Vyb.Lib
