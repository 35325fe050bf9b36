/-
  Subject:   Programs with loops that need not end.

  * `Fueled α` -- a computation, as what it yields when each of its loops may go `n` rounds. Once it has
    yielded something, more rounds do not change that: the structure carries the proof.
  * `Returns f a`, `Halts f` -- it yields `a`, or anything, with enough rounds. `returns_bind` says how this
    goes through a sequence of computations.
  * `loop body s` -- `while (true) { … }` with a body that goes on from another state or leaves with a
    result. **`loop_returns_iff`**: the loop returns what the body leaves with in a state that it comes to.
  * `loop_halts` and `not_halts_of_comes` -- the rules: a measure that falls in every round; a state in
    which the body does not end.
-/
import Mathlib.Tactic

namespace Vyb.Lib

universe u

/-! ## 1. Computations -/

/-- A computation that may not end. -/
structure Fueled (α : Type u) where
  run : Nat → Option α
  steady : ∀ {n : Nat} {a : α}, run n = some a → run (n + 1) = some a

variable {n : Nat}

namespace Fueled

variable {α β : Type u} {a : α}

theorem mono (f : Fueled α) {m : Nat} (h : n ≤ m) (hn : f.run n = some a) : f.run m = some a := by
  induction h with
  | refl => exact hn
  | step _ ih => exact f.steady ih

instance instMonad : Monad Fueled where
  pure a := ⟨fun _ => some a, id⟩
  bind f g :=
    { run := fun n => (f.run n).bind fun a => (g a).run n
      steady := fun h => by
        obtain ⟨a, hf, hg⟩ := Option.bind_eq_some_iff.mp h
        exact Option.bind_eq_some_iff.mpr ⟨a, f.steady hf, (g a).steady hg⟩ }

/-- With enough rounds `f` yields `a`. -/
def Returns (f : Fueled α) (a : α) : Prop := ∃ n, f.run n = some a

def Halts (f : Fueled α) : Prop := ∃ a, f.Returns a

variable {f : Fueled α}

theorem Returns.unique {b : α} (ha : f.Returns a) (hb : f.Returns b) : a = b := by
  obtain ⟨n, hn⟩ := ha
  obtain ⟨m, hm⟩ := hb
  have h1 := f.mono (le_max_left n m) hn
  have h2 := f.mono (le_max_right n m) hm
  exact Option.some.inj (h1.symm.trans h2)

@[simp] theorem returns_pure {b : α} : (pure a : Fueled α).Returns b ↔ a = b :=
  ⟨fun ⟨_, h⟩ => Option.some.inj h, fun h => ⟨0, congrArg some h⟩⟩

theorem halts_pure (a : α) : (pure a : Fueled α).Halts := ⟨a, returns_pure.mpr rfl⟩

/-- **One computation after the other.** -/
theorem returns_bind {g : α → Fueled β} {b : β} :
    (f >>= g).Returns b ↔ ∃ a, f.Returns a ∧ (g a).Returns b := by
  constructor
  · rintro ⟨n, h⟩
    obtain ⟨a, hf, hg⟩ := Option.bind_eq_some_iff.mp h
    exact ⟨a, ⟨n, hf⟩, ⟨n, hg⟩⟩
  · rintro ⟨a, ⟨n, hf⟩, ⟨m, hg⟩⟩
    exact ⟨max n m, Option.bind_eq_some_iff.mpr
      ⟨a, f.mono (le_max_left n m) hf, (g a).mono (le_max_right n m) hg⟩⟩

theorem halts_bind {g : α → Fueled β} : (f >>= g).Halts ↔ ∃ a, f.Returns a ∧ (g a).Halts := by
  constructor
  · rintro ⟨b, h⟩
    obtain ⟨a, hf, hg⟩ := returns_bind.mp h
    exact ⟨a, hf, b, hg⟩
  · rintro ⟨a, hf, b, hg⟩
    exact ⟨b, returns_bind.mpr ⟨a, hf, hg⟩⟩

end Fueled

/-! ## 2. Loops -/

open Fueled Relation.ReflTransGen Option

section Loop

variable {σ ρ : Type u}

/-- At most `n` rounds of a body that says where to go on, or what to leave with. -/
def loopFor (body : σ → Option (σ ⊕ ρ)) : Nat → σ → Option ρ
  | 0, _ => none
  | n + 1, s => (body s).bind (Sum.elim (loopFor body n) some)

theorem loopFor_steady {body body' : σ → Option (σ ⊕ ρ)} (hbody : ∀ {s x}, body s = some x → body' s = some x) :
    ∀ {n : Nat} {s : σ} {r : ρ}, loopFor body n s = some r → loopFor body' (n + 1) s = some r
  | 0, s, r, h => by cases h
  | n + 1, s, r, h => by
    obtain ⟨x, hx, hr⟩ := bind_eq_some_iff.mp h
    refine bind_eq_some_iff.mpr ⟨x, hbody hx, ?_⟩
    cases x with
    | inl s' => exact loopFor_steady hbody hr
    | inr r' => exact hr

/-- `while (true) body`. -/
def loop (body : σ → Fueled (σ ⊕ ρ)) (s : σ) : Fueled ρ where
  run n := loopFor (fun s => (body s).run n) n s
  steady h := loopFor_steady (fun hx => (body _).steady hx) h

variable {body : σ → Fueled (σ ⊕ ρ)} {s : σ} {r : ρ}

theorem loop_returns_of_exit (h : (body s).Returns (.inr r)) : (loop body s).Returns r := by
  obtain ⟨n, hn⟩ := h
  exact ⟨n + 1, bind_eq_some_iff.mpr ⟨.inr r, (body s).steady hn, rfl⟩⟩

/-- What the body does with `m` rounds of its own loops stays as it is with more. -/
theorem loopFor_mono {m : Nat} {k : Nat} (hm : m ≤ k) (h : loopFor (fun s => (body s).run m) n s = some r) :
    loopFor (fun s => (body s).run k) n s = some r := by
  induction n generalizing s with
  | zero => cases h
  | succ n ih =>
    obtain ⟨x, hx, hr⟩ := bind_eq_some_iff.mp h
    refine bind_eq_some_iff.mpr ⟨x, (body s).mono hm hx, ?_⟩
    cases x with
    | inl s' => exact ih hr
    | inr r' => exact hr

variable {s' : σ}

theorem loop_returns_of_next (h : (body s).Returns (.inl s')) (hr : (loop body s').Returns r) :
    (loop body s).Returns r := by
  obtain ⟨n, hn⟩ := h
  obtain ⟨m, hm⟩ := hr
  have hs := (body s).mono (le_trans (le_max_left n m) (Nat.le_succ _)) hn
  exact ⟨max n m + 1, bind_eq_some_iff.mpr
    ⟨.inl s', hs, loopFor_mono (Nat.le_succ _) ((loop body s').mono (le_max_right n m) hm)⟩⟩

/-- The body goes on from `s` to `s'`. -/
def Next (body : σ → Fueled (σ ⊕ ρ)) (s s' : σ) : Prop := (body s).Returns (.inl s')

/-- A number of rounds lead from `s` to `s'`. -/
abbrev Comes (body : σ → Fueled (σ ⊕ ρ)) : σ → σ → Prop := Relation.ReflTransGen (Next body)

theorem comes_of_loopFor {k : Nat} (h : loopFor (fun s => (body s).run k) n s = some r) :
    ∃ s', Comes body s s' ∧ (body s').Returns (.inr r) := by
  induction n generalizing s with
  | zero => cases h
  | succ n ih =>
    obtain ⟨x, hx, hr⟩ := bind_eq_some_iff.mp h
    cases x with
    | inl s₁ =>
      obtain ⟨s', hs', hr'⟩ := ih hr
      exact ⟨s', Relation.ReflTransGen.head ⟨k, hx⟩ hs', hr'⟩
    | inr r' =>
      cases hr
      exact ⟨s, .refl, k, hx⟩

/-- **What a loop returns.** -/
theorem loop_returns_iff : (loop body s).Returns r ↔ ∃ s', Comes body s s' ∧ (body s').Returns (.inr r) := by
  constructor
  · rintro ⟨n, hn⟩
    exact comes_of_loopFor hn
  · rintro ⟨s', hs, hr⟩
    induction hs using head_induction_on with
    | refl => exact loop_returns_of_exit hr
    | head h _ ih => exact loop_returns_of_next h ih

/-- A loop that goes on does what it would do from the next state. -/
theorem loop_returns_next_iff (h : Next body s s') : (loop body s).Returns r ↔ (loop body s').Returns r := by
  refine ⟨fun hr => ?_, loop_returns_of_next h⟩
  obtain ⟨t, ht, hexit⟩ := loop_returns_iff.mp hr
  rcases ht.cases_head with rfl | ⟨s₁, hs₁, ht⟩
  · exact absurd (h.unique hexit) Sum.inl_ne_inr
  · obtain rfl := Sum.inl.inj (h.unique hs₁)
    exact loop_returns_iff.mpr ⟨t, ht, hexit⟩

/-- **A state that the body does not get out of**, and that the loop comes to. -/
theorem not_halts_of_comes (hs : Comes body s s') (h : ¬ (body s').Halts) : ¬ (loop body s).Halts := by
  induction hs using head_induction_on with
  | refl =>
    rintro ⟨r, hr⟩
    obtain ⟨t, ht, hexit⟩ := loop_returns_iff.mp hr
    rcases ht.cases_head with rfl | ⟨s₁, hs₁, _⟩
    · exact h ⟨_, hexit⟩
    · exact h ⟨_, hs₁⟩
  | head hstep _ ih =>
    rintro ⟨r, hr⟩
    exact ih ⟨r, (loop_returns_next_iff hstep).mp hr⟩

/-- **A measure that falls in every round.** -/
theorem loop_halts (μ : σ → Nat) (I : σ → Prop) (hhalts : ∀ s, I s → (body s).Halts)
    (hnext : ∀ s s', I s → Next body s s' → I s' ∧ μ s' < μ s) (hs : I s) : (loop body s).Halts := by
  induction hμ : μ s using Nat.strong_induction_on generalizing s with
  | _ k ih =>
    obtain ⟨x, hx⟩ := hhalts s hs
    cases x with
    | inl s' =>
      obtain ⟨hI, hlt⟩ := hnext s s' hs hx
      obtain ⟨r, hr⟩ := ih (μ s') (hμ ▸ hlt) hI rfl
      exact ⟨r, loop_returns_of_next hx hr⟩
    | inr r => exact ⟨r, loop_returns_of_exit hx⟩

/-- The states a loop comes to have what every round keeps. -/
theorem comes_invariant {I : σ → Prop} (hnext : ∀ s s', I s → Next body s s' → I s') (hs : I s)
    (h : Comes body s s') : I s' := by
  induction h with
  | refl => exact hs
  | tail _ hstep ih => exact hnext _ _ ih hstep

end Loop

end Vyb.Lib
