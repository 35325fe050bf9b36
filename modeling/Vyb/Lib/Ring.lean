/-
  Subject:   Queues in a ring of memory cells, and queues as such.

  * `Block` -- a block of cells as an allocator hands it out: a cell holds nothing until it is
    written, and an access outside the block is a fault;
  * `Ring b head cap q` -- the cells of `b` from `head` on, counted modulo `cap`, hold the list `q`;
    `Ring.push`, `Ring.pop` and `Ring.copy` say how it changes under a write behind the last entry,
    under the removal of the first and under a copy into a larger block;
  * `Queue` -- the bounded or unbounded queue with a closing mark that a channel is meant to be;
    **`Queue.run_conserves`** -- whatever is done with it, what was accepted is what was delivered
    followed by what is left.
-/
import Mathlib.Tactic

namespace Vyb.Lib

open List Nat

universe u

/-! ## 1. Blocks of cells -/

inductive Fault where
  | outOfBounds
  | uninitialised
  deriving DecidableEq, Repr

@[simp] theorem ok_bind {α β : Type u} (a : α) (f : α → Except Fault β) : (Except.ok a >>= f) = f a := rfl

@[simp] theorem pure_ok {α : Type u} (a : α) : (pure a : Except Fault α) = .ok a := rfl

theorem bind_ok {α β : Type u} {x : Except Fault α} {f : α → Except Fault β} {b : β} (h : x >>= f = .ok b) :
    ∃ a, x = .ok a ∧ f a = .ok b := by
  cases x with
  | error e => cases h
  | ok a => exact ⟨a, rfl, h⟩

/-- The cells of an allocated block. -/
abbrev Block (α : Type u) := List (Option α)

namespace Block

variable {α : Type u}

def alloc (n : Nat) : Block α := List.replicate n none

def load (b : Block α) (i : Nat) : Except Fault α :=
  match b[i]? with
  | none => .error .outOfBounds
  | some none => .error .uninitialised
  | some (some v) => .ok v

def store (b : Block α) (i : Nat) (v : α) : Except Fault (Block α) :=
  if i < b.length then .ok (b.set i (some v)) else .error .outOfBounds

/-- `for (; n > 0; ++i, --n) dst[i] = src[place(i)]`. -/
def copy (src : Block α) (place : Nat → Nat) : Nat → Nat → Block α → Except Fault (Block α)
  | _, 0, dst => .ok dst
  | i, n + 1, dst => do
    let v ← src.load (place i)
    let dst ← dst.store i v
    copy src place (i + 1) n dst

theorem load_of_getElem? {b : Block α} {i : Nat} {v : α} (h : b[i]? = some (some v)) : b.load i = .ok v := by
  rw [load, h]

theorem store_of_lt {b : Block α} {i : Nat} (v : α) (h : i < b.length) :
    b.store i v = .ok (b.set i (some v)) := if_pos h

/-- The copy of the cells that hold `q`, entry by entry: `pre` is what has been copied already. -/
theorem copy_spec {src : Block α} {place : Nat → Nat} : ∀ (q pre : List α) (dst : Block α),
    (∀ i (h : i < q.length), src[place (pre.length + i)]? = some (some q[i])) →
    pre.length + q.length ≤ dst.length →
    (∀ i (h : i < pre.length), dst[i]? = some (some pre[i])) →
    ∃ dst', copy src place pre.length q.length dst = .ok dst' ∧ dst'.length = dst.length ∧
      ∀ i (h : i < (pre ++ q).length), dst'[i]? = some (some (pre ++ q)[i])
  | [], pre, dst, _, _, hpre => ⟨dst, rfl, rfl, by simpa using hpre⟩
  | v :: q, pre, dst, hsrc, hroom, hpre => by
    have hv : src[place pre.length]? = some (some v) := hsrc 0 (by simp)
    have hlt : pre.length < dst.length := by simp at hroom; omega
    -- the induction goes on with `v` among the copied entries
    obtain ⟨dst', hcopy, hlen, hheld⟩ := copy_spec q (pre ++ [v]) (dst.set pre.length (some v))
      (fun i h => by
        have hi := hsrc (i + 1) (by simpa using h)
        simpa [add_assoc, add_comm 1] using hi)
      (by simp at hroom ⊢; omega)
      (fun i h => by
        rcases lt_or_ge i pre.length with hi | hi
        · rw [getElem?_set_ne (by omega), hpre i hi, getElem_append_left hi]
        · obtain rfl : i = pre.length := by simp at h; omega
          rw [getElem?_set_self hlt]
          simp)
    refine ⟨dst', ?_, by simpa using hlen, ?_⟩
    · rw [length_cons, copy, load_of_getElem? hv]
      simpa [store_of_lt v hlt] using hcopy
    · simpa using hheld

end Block

/-! ## 2. Rings -/

section Ring

variable {α : Type u}

/-- The cells of `b` from `head` on, modulo `cap`, hold `q`. -/
structure Ring (b : Block α) (head cap : Nat) (q : List α) : Prop where
  pos : 0 < cap
  head_lt : head < cap
  cells : b.length = cap
  room : q.length ≤ cap
  held : ∀ i (h : i < q.length), b[(head + i) % cap]? = some (some q[i])

variable {b : Block α} {head cap : Nat} {q : List α}

theorem Ring.empty {n : Nat} (h : 0 < n) : Ring (Block.alloc n : Block α) 0 n [] where
  pos := h
  head_lt := h
  cells := length_replicate
  room := zero_le n
  held _ h := nomatch h

theorem mod_ne_of_lt {i j : Nat} (hij : i < j) (hj : j < i + cap) : i % cap ≠ j % cap := by
  intro h
  have h1 := div_add_mod i cap
  have h2 := div_add_mod j cap
  rcases lt_or_ge (i / cap) (j / cap) with hd | hd
  · have : cap * (i / cap + 1) ≤ cap * (j / cap) := mul_le_mul_left cap hd
    rw [mul_add] at this
    omega
  · have : cap * (j / cap) ≤ cap * (i / cap) := mul_le_mul_left cap hd
    omega

/-- The cell behind the last entry is free; written, it is the last entry. -/
theorem Ring.push (H : Ring b head cap q) (v : α) (hroom : q.length < cap) :
    (head + q.length) % cap < b.length ∧
      Ring (b.set ((head + q.length) % cap) (some v)) head cap (q ++ [v]) := by
  have hlt : (head + q.length) % cap < b.length := by
    rw [H.cells]
    exact mod_lt _ H.pos
  refine ⟨hlt, H.pos, H.head_lt, by simpa using H.cells, by simp; omega, fun i h => ?_⟩
  rcases lt_or_ge i q.length with hi | hi
  · have hne : (head + i) % cap ≠ (head + q.length) % cap := mod_ne_of_lt (by omega) (by omega)
    rw [getElem?_set_ne hne.symm, H.held i hi, getElem_append_left hi]
  · obtain rfl : i = q.length := by simp at h; omega
    rw [getElem?_set_self hlt]
    simp

/-- The first entry is in the cell at `head`; without it the ring starts one cell further. -/
theorem Ring.pop {v : α} (H : Ring b head cap (v :: q)) :
    b[head]? = some (some v) ∧ Ring b ((head + 1) % cap) cap q := by
  have hhead := H.held 0 (by simp)
  rw [add_zero, mod_eq_of_lt H.head_lt] at hhead
  have hroom := H.room
  rw [length_cons] at hroom
  refine ⟨by simpa using hhead, H.pos, mod_lt _ H.pos, H.cells, by omega, fun i h => ?_⟩
  have hi := H.held (i + 1) (by simpa using h)
  rw [mod_add_mod, show head + 1 + i = head + (i + 1) by omega, hi]
  simp

/-- Copied from its first entry on into a block with at least as many cells, a ring starts at the
    first cell. -/
theorem Ring.copy (H : Ring b head cap q) {n : Nat} (hn : cap ≤ n) {place : Nat → Nat}
    (hat : ∀ i, i < q.length → place i = (head + i) % cap) :
    ∃ dst, b.copy place 0 q.length (Block.alloc n) = .ok dst ∧ Ring dst 0 n q := by
  have hroom := H.room
  have hsrc : ∀ i (h : i < q.length), b[place (([] : List α).length + i)]? = some (some q[i]) := by
    intro i h
    rw [length_nil, zero_add, hat i h]
    exact H.held i h
  obtain ⟨dst, hcopy, hlen, hheld⟩ := Block.copy_spec q [] (Block.alloc n) hsrc
    (by simp [Block.alloc]; omega) (fun i h => nomatch h)
  have hdst : dst.length = n := hlen.trans length_replicate
  have hpos : 0 < n := H.pos.trans_le hn
  refine ⟨dst, hcopy, hpos, hpos, hdst, by omega, fun i h => ?_⟩
  rw [zero_add, mod_eq_of_lt (by omega)]
  exact hheld i h

end Ring

/-! ## 3. Queues -/

/-- A queue, bounded by `limit` if there is one. -/
structure Queue (α : Type u) where
  items : List α
  limit : Option Nat
  closed : Bool
  deriving DecidableEq, Repr

namespace Queue

variable {α : Type u}

/-- What is done with a queue. A receive that waits does nothing while there is nothing to receive and
    the queue is open. -/
inductive Op (α : Type u) where
  | send (v : α)
  | receive (waits : Bool)
  | length
  | close

inductive Out (α : Type u) where
  | sent (accepted : Bool)
  | value (v : α)
  | absent
  | waiting
  | count (n : Nat)
  | closed
  deriving DecidableEq, Repr

def full (q : Queue α) : Bool := q.limit.any fun n => decide (n ≤ q.items.length)

def step (q : Queue α) : Op α → Queue α × Out α
  | .send v =>
    if q.closed || q.full then (q, .sent false)
    else ({ q with items := q.items ++ [v] }, .sent true)
  | .receive waits =>
    match q.items with
    | v :: rest => ({ q with items := rest }, .value v)
    | [] => (q, if waits && !q.closed then .waiting else .absent)
  | .length => (q, .count q.items.length)
  | .close => ({ q with closed := true }, .closed)

def run (q : Queue α) : List (Op α) → Queue α × List (Out α)
  | [] => (q, [])
  | op :: ops =>
    let (q', out) := q.step op
    let (q'', outs) := q'.run ops
    (q'', out :: outs)

/-- The values of the sends that were accepted, in order. -/
def accepted : List (Op α) → List (Out α) → List α
  | .send v :: ops, .sent true :: outs => v :: accepted ops outs
  | _ :: ops, _ :: outs => accepted ops outs
  | _, _ => []

/-- The values that were received, in order. -/
def delivered (outs : List (Out α)) : List α :=
  outs.filterMap fun
    | .value v => some v
    | _ => none

attribute [local simp] delivered accepted run step

/-- **Nothing is lost, doubled or reordered.** -/
theorem run_conserves : ∀ (ops : List (Op α)) (q : Queue α),
    q.items ++ accepted ops (q.run ops).2 = delivered (q.run ops).2 ++ (q.run ops).1.items
  | [], q => by simp
  | op :: ops, q => by
    have ih := run_conserves ops (q.step op).1
    cases op with
    | send v =>
      by_cases h : (q.closed || q.full) = true
      · simpa [h] using ih
      · simpa [h] using ih
    | receive waits =>
      cases hi : q.items with
      | cons v rest => simpa [hi] using ih
      | nil =>
        cases hw : waits && !q.closed <;>
          simpa [hi, hw] using ih
    | length => simpa using ih
    | close => simpa using ih

end Queue

end Vyb.Lib
