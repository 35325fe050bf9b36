/-
  Subject:   Iterators: what a loop over one visits.

  An iterator is a state and a `next` that hands out an element or nothing, and goes to another state.

  * `Yields next s l` -- from `s` on the calls hand out `l`, one after the other, and then nothing;
  * `collect` -- the loop over an iterator; **`collect_of_yields`**: what it visits is what the calls yield;
  * `Round`, `nextOf` -- a `next` that goes round a loop of its own until there is something to hand out;
  * `Trace` -- rounds, and what they hand out on the way; `Trace.yields` -- rounds that lead to the end are
    calls that yield the same.
-/
import Vyb.Lib.While

namespace Vyb.Lib

open Fueled

universe u

variable {σ α : Type u}

/-! ## 1. Calls -/

/-- What the calls of `next` hand out, until they hand out nothing. -/
inductive Yields (next : σ → Fueled (Option α × σ)) : σ → List α → Prop where
  | done {s s' : σ} (h : (next s).Returns (none, s')) : Yields next s []
  | more {s s' : σ} {a : α} {l : List α} (h : (next s).Returns (some a, s')) (hl : Yields next s' l) :
      Yields next s (a :: l)

/-- One round of `for (x in it)`. -/
def collectBody (next : σ → Fueled (Option α × σ)) (s : σ × List α) : Fueled ((σ × List α) ⊕ List α) := do
  let r ← next s.1
  match r.1 with
  | some a => pure (.inl (r.2, s.2 ++ [a]))
  | none => pure (.inr s.2)

/-- The elements that a loop over the iterator visits. -/
def collect (next : σ → Fueled (Option α × σ)) (s : σ) : Fueled (List α) := loop (collectBody next) (s, [])

variable {next : σ → Fueled (Option α × σ)} {l : List α} {s : σ}

theorem loop_collect_of_yields (h : Yields next s l) :
    ∀ acc, (loop (collectBody next) (s, acc)).Returns (acc ++ l) := by
  induction h with
  | done hn =>
    intro acc
    rw [List.append_nil]
    exact loop_returns_of_exit (returns_bind.mpr ⟨_, hn, returns_pure.mpr rfl⟩)
  | @more s s' a l hn _ ih =>
    intro acc
    have hnext : (collectBody next (s, acc)).Returns (.inl (s', acc ++ [a])) :=
      returns_bind.mpr ⟨_, hn, returns_pure.mpr rfl⟩
    have hrest := ih (acc ++ [a])
    rw [List.append_assoc, List.singleton_append] at hrest
    exact loop_returns_of_next hnext hrest

/-- **A loop over an iterator** visits what the calls yield. -/
theorem collect_of_yields (h : Yields next s l) : (collect next s).Returns l :=
  loop_collect_of_yields h []

/-! ## 2. A loop inside `next` -/

/-- What one round comes to. -/
inductive Round (σ α : Type u) where
  | silent (s : σ)
  | emit (a : α) (s : σ)
  | finished

/-- Rounds until one hands something out, or the end is reached. -/
def nextOf (round : σ → Round σ α) (s : σ) : Fueled (Option α × σ) :=
  loop (fun s => pure (match round s with
    | .silent s' => .inl s'
    | .emit a s' => .inr (some a, s')
    | .finished => .inr (none, s))) s

variable {round : σ → Round σ α} {s' : σ}

theorem nextOf_silent {r : Option α × σ} (h : round s = .silent s') (hr : (nextOf round s').Returns r) :
    (nextOf round s).Returns r :=
  loop_returns_of_next (returns_pure.mpr (by rw [h])) hr

theorem nextOf_emit {a : α} (h : round s = .emit a s') : (nextOf round s).Returns (some a, s') :=
  loop_returns_of_exit (returns_pure.mpr (by rw [h]))

theorem nextOf_finished (h : round s = .finished) : (nextOf round s).Returns (none, s) :=
  loop_returns_of_exit (returns_pure.mpr (by rw [h]))

/-- Rounds that lead from `s` to `s'` and hand out `l`. -/
inductive Trace (round : σ → Round σ α) : σ → List α → σ → Prop where
  | refl (s : σ) : Trace round s [] s
  | silent {s s' t : σ} {l : List α} (h : round s = .silent s') (ht : Trace round s' l t) : Trace round s l t
  | emit {s s' t : σ} {a : α} {l : List α} (h : round s = .emit a s') (ht : Trace round s' l t) :
      Trace round s (a :: l) t

theorem Trace.append {s t t' : σ} {l l' : List α} (h : Trace round s l t) (h' : Trace round t l' t') :
    Trace round s (l ++ l') t' := by
  induction h with
  | refl s => exact h'
  | silent hs _ ih => exact .silent hs (ih h')
  | emit hs _ ih => exact .emit hs (ih h')

/-- A silent round does not change what the calls yield. -/
theorem yields_silent (h : round s = .silent s') (hl : Yields (nextOf round) s' l) :
    Yields (nextOf round) s l := by
  cases hl with
  | done hn => exact .done (nextOf_silent h hn)
  | more hn hl => exact .more (nextOf_silent h hn) hl

/-- **Rounds that lead to the end** are calls that yield what was handed out. -/
theorem Trace.yields {t : σ} (h : Trace round s l t) (hend : round t = .finished) :
    Yields (nextOf round) s l := by
  induction h with
  | refl s => exact .done (nextOf_finished hend)
  | silent hs _ ih => exact yields_silent hs (ih hend)
  | emit hs _ ih => exact .more (nextOf_emit hs) (ih hend)

end Vyb.Lib
