/-
  Subject:   The traced call stack of a worker thread, and the fibers that run on it.

  `g_call_stack` belongs to the thread. A worker runs one fiber after another (`resume` is what a yield, an
  await or a sleep comes to), and no switch sets the stack of a fiber aside.

  * **`own_frames_iff`** -- each fiber sees its own frames exactly if none is left while it has frames.
-/
import Mathlib.Logic.Function.Basic
import Mathlib.Data.List.Basic

namespace Vyb.Runtime

open List Function

variable {F : Type}

/-- `g_call_stack`, outermost first, and `g_call_stack_overflow`. -/
structure CallStack (F : Type) where
  frames : List F := []
  overflow : Nat := 0

/-- `MAX_CALL_STACK_DEPTH`. -/
def maxCallStackDepth : Nat := 256

def pushCallFrame (c : CallStack F) (f : F) : CallStack F :=
  if maxCallStackDepth ≤ c.frames.length then { c with overflow := c.overflow + 1 }
  else { c with frames := c.frames ++ [f] }

def popCallFrame (c : CallStack F) : CallStack F :=
  if 0 < c.overflow then { c with overflow := c.overflow - 1 } else { c with frames := c.frames.dropLast }

/-- The stack of the frames `l`. -/
def traced (l : List F) : CallStack F := ⟨l.take maxCallStackDepth, l.length - maxCallStackDepth⟩

theorem pushCallFrame_traced (l : List F) (f : F) : pushCallFrame (traced l) f = traced (l ++ [f]) := by
  unfold pushCallFrame traced maxCallStackDepth
  grind [take_of_length_le]

theorem popCallFrame_traced (l : List F) : popCallFrame (traced l) = traced l.dropLast := by
  unfold popCallFrame traced maxCallStackDepth
  rw [dropLast_eq_take, dropLast_eq_take, take_take, take_take]
  grind

/-- A worker thread, the fiber that runs, and the frames that each fiber has entered and not left. -/
structure Worker (F : Type) where
  trace : CallStack F := {}
  running : Nat := 0
  own : Nat → List F := fun _ => []

inductive FiberEvent (F : Type)
  | push (f : F)
  | pop
  | resume (fiber : Nat)

namespace Worker

variable {w : Worker F} {e : FiberEvent F}

/-- Both sides of a frame that is entered or left. -/
def edit (w : Worker F) (trace : CallStack F) (l : List F) : Worker F :=
  { w with trace, own := update w.own w.running l }

def step (w : Worker F) : FiberEvent F → Worker F
  | .push f => w.edit (pushCallFrame w.trace f) (w.own w.running ++ [f])
  | .pop => w.edit (popCallFrame w.trace) (w.own w.running).dropLast
  | .resume k => { w with running := k }

/-- The running fiber sees its own frames, cut off after 256. -/
def Exact (w : Worker F) : Prop := w.trace.frames = (w.own w.running).take maxCallStackDepth

def Faithful (w : Worker F) : List (FiberEvent F) → Prop
  | [] => w.Exact
  | e :: es => w.Exact ∧ Faithful (w.step e) es

/-- The event leaves a fiber that has frames. -/
def Leaves (w : Worker F) (e : FiberEvent F) : Prop := ∃ k, e = .resume k ∧ k ≠ w.running ∧ w.own w.running ≠ []

def Unwound (w : Worker F) : List (FiberEvent F) → Prop
  | [] => True
  | e :: es => ¬ w.Leaves e ∧ Unwound (w.step e) es

/-- Only the running fiber has frames, and they are on the stack. -/
structure Alone (w : Worker F) : Prop where
  trace : w.trace = traced (w.own w.running)
  others : ∀ k ≠ w.running, w.own k = []

theorem Alone.edit (h : w.Alone) (l : List F) : (w.edit (traced l) l).Alone := by
  refine ⟨congrArg traced (update_self w.running l w.own).symm, fun k hk => ?_⟩
  have hother : update w.own w.running l k = w.own k := update_of_ne hk _ _
  exact hother.trans (h.others k hk)

theorem Alone.step (h : w.Alone) (hstay : ¬ w.Leaves e) : (w.step e).Alone := by
  cases e with
  | push f =>
    rw [Worker.step, h.trace, pushCallFrame_traced]
    exact h.edit _
  | pop =>
    rw [Worker.step, h.trace, popCallFrame_traced]
    exact h.edit _
  | resume k =>
    by_cases hk : k = w.running
    · subst hk
      exact h
    · have hnone : w.own w.running = [] := by_contra fun hne => hstay ⟨k, rfl, hk, hne⟩
      have hall : ∀ j, w.own j = [] := fun j => by
        by_cases hj : j = w.running
        · rw [hj, hnone]
        · exact h.others j hj
      refine ⟨?_, fun j _ => hall j⟩
      exact h.trace.trans (congrArg traced (hnone.trans (hall k).symm))

theorem Alone.not_exact (h : w.Alone) (hleaves : w.Leaves e) : ¬ (w.step e).Exact := by
  obtain ⟨k, rfl, hk, hne⟩ := hleaves
  intro hexact
  have hnil : w.trace.frames = [] := hexact.trans (congrArg _ (h.others k hk))
  rw [h.trace, traced, take_eq_nil_iff] at hnil
  exact hnil.elim (by decide) hne

theorem Faithful.exact : ∀ {es : List (FiberEvent F)}, w.Faithful es → w.Exact
  | [], h => h
  | _ :: _, h => h.1

theorem Alone.faithful_iff : ∀ {w : Worker F} (_ : w.Alone) (es : List (FiberEvent F)),
    w.Faithful es ↔ w.Unwound es
  | w, h, [] => ⟨fun _ => trivial, fun _ => congrArg CallStack.frames h.trace⟩
  | w, h, e :: es => by
    constructor
    · intro ⟨_, hrest⟩
      have hstay : ¬ w.Leaves e := fun hleaves => h.not_exact hleaves hrest.exact
      exact ⟨hstay, ((h.step hstay).faithful_iff es).mp hrest⟩
    · intro ⟨hstay, hrest⟩
      exact ⟨congrArg CallStack.frames h.trace, ((h.step hstay).faithful_iff es).mpr hrest⟩

/-- **Every fiber sees its own frames, all along, exactly if none is left while it has frames.** -/
theorem own_frames_iff (es : List (FiberEvent F)) : Faithful {} es ↔ Unwound {} es :=
  Alone.faithful_iff ⟨by simp [traced], fun _ _ => rfl⟩ es

/-- The second fiber sees the frame of the first. -/
theorem frame_of_another : ¬ Faithful {} [.push "f", .resume 1] := fun h =>
  absurd (show ["f"] = [] from h.2.2) (by decide)

end Worker

end Vyb.Runtime
