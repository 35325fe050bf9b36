/-
  Subject:   Int and String channels (`runtime/vyb_runtime.c`, `__vyb_chan_*` and `__vyb_strchan_*`).

  A call holds the mutex of its channel from beginning to end, except in `pthread_cond_wait`, which
  gives it up; a call that is woken has the mutex again and starts over at the test of its `while`. So
  the calls of any number of threads take effect one after the other, and an interleaving is a list of
  calls in which a receive that waits stands once for each time it looks.

  * `Chan` -- the ring buffer, with the arithmetic of `size_t`: an allocation has the cells that the
    product `sizeof(slot) * n` still has room for after it has wrapped;
  * `IntChan`, `StrChan` -- the calls of the two runtimes; a String channel also counts references;
  * **`channels_are_queues`** -- as long as no allocation size wraps and no String without data is
    sent, both answer every interleaving as a queue does;
  * `StrChan.references` -- the references a String channel has taken are those of the Strings it holds
    and of those it has delivered;
  * **`Waiting.no_lost_wakeup`** -- no receiver sleeps on while a value is left for it;
  * `allocation_wraps` -- a capacity for which the first send writes outside the buffer, and a String
    that an open, unbounded channel refuses.
-/
import Vyb.Lib.Ring

namespace Vyb.Runtime

open List Bool Nat

open Vyb.Lib (Block Fault Ring Queue bind_ok)

/-! ## 1. The ring buffer -/

/-- The range of `size_t`. -/
abbrev sizeRange : Nat := 2 ^ 64

/-- `malloc(slot * n)`, seen as cells of `slot` bytes. -/
def malloc {α : Type} (slot n : Nat) : Block α := .alloc (slot * n % sizeRange / slot)

/-- `vyb_chan` and `vyb_strchan`; `head` is the cell of the oldest entry. -/
structure Chan (α : Type) where
  buf : Block α
  head : Nat
  size : Nat
  cap : Nat
  bounded : Bool
  closed : Bool
  deriving DecidableEq, Repr

namespace Chan

variable {α : Type}

/-- The cell that is `i` places behind the oldest entry. -/
def place (c : Chan α) (i : Nat) : Nat := (c.head + i) % sizeRange % c.cap

def new (slot : Nat) (capacity : Int) : Chan α :=
  let bounded := decide (0 < capacity)
  let initial := if bounded then capacity.toNat else 8
  { buf := malloc slot initial, head := 0, size := 0, cap := initial, bounded, closed := false }

/-- A block of twice the size, with the entries from its first cell on. -/
def grow (slot : Nat) (c : Chan α) : Except Fault (Chan α) := do
  let ncap := if 0 < c.cap then c.cap * 2 % sizeRange else 8
  let nb ← c.buf.copy c.place 0 c.size (malloc slot ncap)
  return { c with buf := nb, cap := ncap, head := 0 }

/-- An unbounded channel whose cells are all taken grows. -/
def makeRoom (slot : Nat) (c : Chan α) : Except Fault (Chan α) :=
  if !c.bounded && c.size == c.cap then c.grow slot else .ok c

/-- The value goes behind the last entry, unless the channel is closed or bounded and full. -/
def send (slot : Nat) (c : Chan α) (v : α) : Except Fault (Chan α × Bool) := do
  if c.closed then return (c, false)
  if c.bounded && decide (c.cap ≤ c.size) then return (c, false)
  let c ← c.makeRoom slot
  let buf ← c.buf.store (c.place c.size) v
  return ({ c with buf, size := (c.size + 1) % sizeRange }, true)

/-- The oldest value is taken out. If there is none, a call that waits does so while the channel is
    open. -/
def dequeue (waits : Bool) (c : Chan α) : Except Fault (Chan α × Queue.Out α) := do
  if c.size = 0 then return (c, if waits && !c.closed then .waiting else .absent)
  let v ← c.buf.load c.head
  return ({ c with head := (c.head + 1) % sizeRange % c.cap, size := c.size - 1 }, .value v)

def len (c : Chan α) : Nat := c.size

def close (c : Chan α) : Chan α := { c with closed := true }

end Chan

/-! ## 2. The two runtimes -/

/-- A call on a channel. -/
inductive Call (α : Type) where
  | send (v : α)
  | recv
  | recvOpt
  | tryRecv
  | poll
  | tryOpt
  | len
  | close

/-- What a call does to a queue. -/
def Call.spec {α : Type} : Call α → Queue.Op α
  | .send v => .send v
  | .recv => .receive true
  | .recvOpt => .receive true
  | .tryRecv => .receive false
  | .poll => .receive false
  | .tryOpt => .receive false
  | .len => .length
  | .close => .close

namespace IntChan

/-- `sizeof(int64_t)` -/
abbrev slot : Nat := 8

def new (capacity : Int) : Chan Int := Chan.new slot capacity
def send (c : Chan Int) (v : Int) : Except Fault (Chan Int × Bool) := Chan.send slot c v
/-- Returns -1 where the model has `absent`. -/
def recv (c : Chan Int) : Except Fault (Chan Int × Queue.Out Int) := Chan.dequeue true c
/-- Returns -1 where the model has `absent`. -/
def tryRecv (c : Chan Int) : Except Fault (Chan Int × Queue.Out Int) := Chan.dequeue false c
/-- Returns 1 with the value in `*out`, 0 where the model has `absent`. -/
def poll (c : Chan Int) : Except Fault (Chan Int × Queue.Out Int) := Chan.dequeue false c
def recvOpt (c : Chan Int) : Except Fault (Chan Int × Queue.Out Int) := Chan.dequeue true c
def tryOpt (c : Chan Int) : Except Fault (Chan Int × Queue.Out Int) := poll c

def step (c : Chan Int) : Call Int → Except Fault (Chan Int × Queue.Out Int)
  | .send v => do
    let (c, sent) ← send c v
    return (c, .sent sent)
  | .recv => recv c
  | .recvOpt => recvOpt c
  | .tryRecv => tryRecv c
  | .poll => poll c
  | .tryOpt => tryOpt c
  | .len => return (c, .count c.len)
  | .close => return (c.close, .closed)

end IntChan

/-- `vyb_file_str`: a String as it crosses the runtime. The null pointer is 0. -/
structure FileStr where
  ptr : Nat
  len : Int
  deriving DecidableEq, Repr

/-- A String channel, and for every buffer the references the channel's calls have taken on it. -/
structure StrChan where
  chan : Chan FileStr
  refs : Nat → Int

namespace StrChan

/-- `sizeof(vyb_file_str)` -/
abbrev slot : Nat := 16

def new (capacity : Int) : StrChan := ⟨Chan.new slot capacity, fun _ => 0⟩

/-- `__vyb_string_retain` and `__vyb_string_release`. -/
def retain (s : StrChan) (ptr : Nat) : StrChan :=
  { s with refs := fun p => if p = ptr then s.refs p + 1 else s.refs p }
def release (s : StrChan) (ptr : Nat) : StrChan :=
  { s with refs := fun p => if p = ptr then s.refs p - 1 else s.refs p }

/-- The channel takes its reference before it looks whether it can take the String. -/
def send (s : StrChan) (v : FileStr) : Except Fault (StrChan × Bool) := do
  if v.ptr = 0 then return (s, false)
  let s := s.retain v.ptr
  let (c, sent) ← Chan.send slot s.chan v
  let s := { s with chan := c }
  return if sent then (s, true) else (s.release v.ptr, false)

/-- The reference goes to the caller with the String. -/
def dequeue (waits : Bool) (s : StrChan) : Except Fault (StrChan × Queue.Out FileStr) := do
  let (c, out) ← Chan.dequeue waits s.chan
  return ({ s with chan := c }, out)

/-- Returns `{ NULL, 0 }` where the model has `absent`. -/
def recv (s : StrChan) : Except Fault (StrChan × Queue.Out FileStr) := dequeue true s
/-- Returns `{ NULL, 0 }` where the model has `absent`. -/
def tryRecv (s : StrChan) : Except Fault (StrChan × Queue.Out FileStr) := dequeue false s
def recvOpt (s : StrChan) : Except Fault (StrChan × Queue.Out FileStr) := dequeue true s
def tryOpt (s : StrChan) : Except Fault (StrChan × Queue.Out FileStr) := dequeue false s

/-- A String channel has no `poll`; `try_opt` is the same. -/
def step (s : StrChan) : Call FileStr → Except Fault (StrChan × Queue.Out FileStr)
  | .send v => do
    let (s, sent) ← send s v
    return (s, .sent sent)
  | .recv => recv s
  | .recvOpt => recvOpt s
  | .tryRecv => tryRecv s
  | .poll => tryOpt s
  | .tryOpt => tryOpt s
  | .len => return (s, .count s.chan.len)
  | .close => return ({ s with chan := s.chan.close }, .closed)

end StrChan

/-- An interleaving of calls, with what each of them returns. -/
def run {S α : Type} (step : S → Call α → Except Fault (S × Queue.Out α)) :
    S → List (Call α) → Except Fault (S × List (Queue.Out α))
  | s, [] => return (s, [])
  | s, call :: calls => do
    let (s, out) ← step s call
    let (s, outs) ← run step s calls
    return (s, out :: outs)

/-! ## 3. A ring buffer is a queue -/

/-- The queue that a channel is meant to be. -/
def queueOf (α : Type) (capacity : Int) : Queue α :=
  ⟨[], if 0 < capacity then some capacity.toNat else none, false⟩

/-- The channel holds what the queue holds. -/
structure Chan.Holds {α : Type} (c : Chan α) (q : Queue α) : Prop where
  ring : Ring c.buf c.head c.cap q.items
  size : c.size = q.items.length
  range : c.cap < sizeRange / 2
  bounded : c.bounded = q.limit.isSome
  limit : ∀ n, q.limit = some n → n = c.cap
  closed : c.closed = q.closed

theorem malloc_of_lt {α : Type} {slot n : Nat} (hslot : 0 < slot) (h : slot * n < sizeRange) :
    (malloc slot n : Block α) = .alloc n := by
  rw [malloc, Nat.mod_eq_of_lt h, Nat.mul_div_cancel_left n hslot]

namespace Chan

variable {α : Type} {slot : Nat} {c : Chan α} {q : Queue α}

attribute [local simp] queueOf

theorem new_holds {capacity : Int} (hslot : 2 < slot)
    (hcap : 0 < capacity → slot * capacity.toNat < sizeRange) (h8 : slot * 8 < sizeRange) :
    (new slot capacity : Chan α).Holds (queueOf α capacity) := by
  have hrange : ∀ n, slot * n < sizeRange → n < sizeRange / 2 := by
    intro n hn
    have : 3 * n ≤ slot * n := mul_le_mul_right n hslot
    omega
  by_cases hb : 0 < capacity
  · have hpos : 0 < capacity.toNat := by omega
    refine ⟨?_, rfl, ?_, ?_, ?_, rfl⟩
    · simp only [new, hb, decide_true, ↓reduceIte, malloc_of_lt (by omega) (hcap hb), queueOf]
      exact Ring.empty hpos
    · simpa [new, hb] using hrange _ (hcap hb)
    · simp [new, hb]
    · intro n hn
      simpa [new, hb, eq_comm] using hn
  · refine ⟨?_, rfl, ?_, ?_, ?_, rfl⟩
    · simp only [new, hb, decide_false, false_eq_true, ↓reduceIte, malloc_of_lt (by omega : 0 < slot) h8, queueOf]
      exact Ring.empty (by omega)
    · simpa [new, hb] using hrange _ h8
    · simp [new, hb]
    · intro n hn
      simp [hb] at hn

namespace Holds

variable (H : c.Holds q)
include H

theorem place_eq {i : Nat} (hi : i ≤ c.cap) : c.place i = (c.head + i) % c.cap := by
  have h1 := H.ring.head_lt
  have h2 := H.range
  rw [place, Nat.mod_eq_of_lt (a := c.head + i) (by omega)]

theorem full_iff : (c.bounded && decide (c.cap ≤ c.size)) = q.full := by
  rw [H.bounded, H.size, Queue.full]
  cases hl : q.limit with
  | none => rfl
  | some n => simp [H.limit n hl]

/-- Twice the cells, with the same entries. -/
theorem grow (hslot : 2 < slot) (hfree : q.limit = none)
    (hroom : slot * (c.cap * 2) < sizeRange) :
    ∃ c', c.grow slot = .ok c' ∧ c'.Holds q ∧ c'.cap = c.cap * 2 := by
  have hpos := H.ring.pos
  have hmul : 3 * (c.cap * 2) ≤ slot * (c.cap * 2) := mul_le_mul_right _ hslot
  have hncap : (if 0 < c.cap then c.cap * 2 % sizeRange else 8) = c.cap * 2 := by
    rw [if_pos hpos, Nat.mod_eq_of_lt (by omega)]
  have hmore : c.cap ≤ c.cap * 2 := by omega
  have hat : ∀ i, i < q.items.length → c.place i = (c.head + i) % c.cap := fun i hi =>
    H.place_eq (hi.le.trans H.ring.room)
  obtain ⟨nb, hcopy, hring⟩ := H.ring.copy hmore hat
  refine ⟨{ c with buf := nb, cap := c.cap * 2, head := 0 }, ?_, ?_, rfl⟩
  · rw [Chan.grow, hncap, malloc_of_lt (by omega) hroom, H.size, hcopy]
    rfl
  · refine ⟨hring, H.size, by simp only; omega, H.bounded, fun n hn => ?_, H.closed⟩
    rw [hfree] at hn
    cases hn

theorem store (v : α) (hroom : c.size < c.cap) :
    ∃ buf, c.buf.store (c.place c.size) v = .ok buf ∧
      Holds { c with buf, size := (c.size + 1) % sizeRange } { q with items := q.items ++ [v] } := by
  have hrange := H.range
  have hplace : c.place c.size = (c.head + q.items.length) % c.cap := by
    rw [H.place_eq (by omega), H.size]
  obtain ⟨hlt, hring⟩ := H.ring.push v (H.size ▸ hroom)
  refine ⟨_, by rw [hplace]; exact Block.store_of_lt v hlt, hring, ?_, hrange, H.bounded, H.limit,
    H.closed⟩
  simp only [length_append, length_singleton, ← H.size]
  exact Nat.mod_eq_of_lt (by omega)

/-- A channel that is not full has a free cell, after it has grown if it must. -/
theorem makeRoom (hslot : 2 < slot) (hfull : q.full = false)
    (hroom : q.limit = none → slot * (q.items.length * 2) < sizeRange) :
    ∃ c', c.makeRoom slot = .ok c' ∧ c'.Holds q ∧ c'.size < c'.cap := by
  have hsize := H.size
  by_cases hg : (!c.bounded && c.size == c.cap) = true
  · have hg' := hg
    simp only [and_eq_true, not_eq_true', beq_iff_eq] at hg'
    have hfree : q.limit = none := by
      have hb := H.bounded
      rw [hg'.1] at hb
      simpa using hb.symm
    obtain ⟨c', hgrow, H', hcap⟩ := H.grow hslot hfree
      (by rw [← hg'.2, hsize]; exact hroom hfree)
    have hpos := H.ring.pos
    refine ⟨c', by rw [Chan.makeRoom, if_pos hg]; exact hgrow, H', ?_⟩
    rw [H'.size, hcap, ← hsize]
    omega
  · refine ⟨c, by rw [Chan.makeRoom, if_neg hg], H, ?_⟩
    have hle := H.ring.room
    have hc := H.full_iff.trans hfull
    rw [← hsize] at hle
    cases hb : c.bounded <;> simp [hb] at hg hc <;> omega

/-- **A send on a channel is a send on its queue**, where no allocation wraps. -/
theorem send (hslot : 2 < slot) (v : α)
    (hroom : q.limit = none → slot * (q.items.length * 2) < sizeRange) :
    ∃ c' sent, c.send slot v = .ok (c', sent) ∧ c'.Holds (q.step (.send v)).1 ∧
      (q.step (.send v)).2 = .sent sent := by
  have hcfull := H.full_iff
  have hclosed := H.closed
  by_cases hrefused : (q.closed || q.full) = true
  · have hstep : q.step (.send v) = (q, .sent false) := by simp only [Queue.step, hrefused, ↓reduceIte]
    refine ⟨c, false, ?_, hstep ▸ H, by rw [hstep]⟩
    rw [Chan.send, hcfull, hclosed]
    cases hq : q.closed with
    | true => rfl
    | false =>
      rw [hq, Bool.false_or] at hrefused
      rw [hrefused]
      rfl
  · have hstep : q.step (.send v) = ({ q with items := q.items ++ [v] }, .sent true) := by
      simp only [Queue.step, hrefused, false_eq_true, ↓reduceIte]
    obtain ⟨hq, hfull⟩ : q.closed = false ∧ q.full = false := by simpa using hrefused
    obtain ⟨c₁, hroom, H₁, hlt⟩ := H.makeRoom hslot hfull hroom
    obtain ⟨buf, hbuf, H₂⟩ := H₁.store v hlt
    refine ⟨{ c₁ with buf, size := (c₁.size + 1) % sizeRange }, true, ?_, hstep ▸ H₂, by rw [hstep]⟩
    rw [Chan.send, hcfull, hclosed, hq, hfull]
    simp [hroom, hbuf]

/-- **A receive on a channel is a receive on its queue.** -/
theorem dequeue (waits : Bool) :
    ∃ c', c.dequeue waits = .ok (c', (q.step (.receive waits)).2) ∧
      c'.Holds (q.step (.receive waits)).1 := by
  have hsize := H.size
  cases hi : q.items with
  | nil =>
    rw [hi] at hsize
    refine ⟨c, ?_, by simpa [Queue.step, hi] using H⟩
    simp only [Chan.dequeue, Queue.step, hi]
    rw [if_pos (by simpa using hsize), H.closed]
    rfl
  | cons v rest =>
    have hring := H.ring
    rw [hi] at hsize hring
    obtain ⟨hhead, hpop⟩ := hring.pop
    have hrange := H.range
    have hlt := hring.head_lt
    have hplace : (c.head + 1) % sizeRange % c.cap = (c.head + 1) % c.cap := by
      rw [Nat.mod_eq_of_lt (a := c.head + 1) (by omega)]
    refine ⟨{ c with head := (c.head + 1) % sizeRange % c.cap, size := c.size - 1 }, ?_, ?_⟩
    · simp only [Chan.dequeue, Queue.step, hi]
      rw [if_neg (by simp [hsize]), Block.load_of_getElem? hhead]
      rfl
    · simp only [Queue.step, hi]
      refine ⟨by rw [hplace]; exact hpop, by simp [hsize], hrange, H.bounded, H.limit, H.closed⟩

theorem close : c.close.Holds { q with closed := true } :=
  ⟨H.ring, H.size, H.range, H.bounded, H.limit, rfl⟩

end Holds

end Chan

/-! ## 4. Interleavings -/

section Interleavings

variable {S α : Type} (slot : Nat) (isNull : α → Bool)

/-- What is asked of a call: a String that is sent has data, and an unbounded channel that has to grow
    for the value can ask for twice the cells. -/
def Admits (q : Queue α) : Call α → Prop
  | .send v => isNull v = false ∧ (q.limit = none → slot * (q.items.length * 2) < sizeRange)
  | _ => True

/-- It is asked of every call of an interleaving. -/
def AdmitsAll : Queue α → List (Call α) → Prop
  | _, [] => True
  | q, call :: calls => Admits slot isNull q call ∧ AdmitsAll (q.step call.spec).1 calls

instance (q : Queue α) : ∀ call, Decidable (Admits slot isNull q call)
  | .send _ => inferInstanceAs (Decidable (_ ∧ _))
  | .recv | .recvOpt | .tryRecv | .poll | .tryOpt | .len | .close => isTrue trivial

instance decidableAdmitsAll : ∀ (q : Queue α) (calls : List (Call α)),
    Decidable (AdmitsAll slot isNull q calls)
  | _, [] => isTrue trivial
  | q, call :: calls =>
    have := decidableAdmitsAll (q.step call.spec).1 calls
    inferInstanceAs (Decidable (_ ∧ _))

variable (step : S → Call α → Except Fault (S × Queue.Out α)) (chan : S → Chan α)

/-- **The calls are answered as the queue answers them**: every call returns, with what the queue
    returns; what was accepted is what was delivered and, behind it, what is left in the channel. -/
def AnswersAs (s : S) (q : Queue α) (calls : List (Call α)) : Prop :=
  ∃ s' outs, run step s calls = .ok (s', outs) ∧ outs = (q.run (calls.map Call.spec)).2 ∧
    (chan s').Holds (q.run (calls.map Call.spec)).1 ∧
    q.items ++ Queue.accepted (calls.map Call.spec) outs =
      Queue.delivered outs ++ (q.run (calls.map Call.spec)).1.items

variable {slot isNull step chan}

/-- From one call to all of them. -/
theorem answersAs_of_step (hstep : ∀ s q call, (chan s).Holds q → Admits slot isNull q call →
      ∃ s', step s call = .ok (s', (q.step call.spec).2) ∧ (chan s').Holds (q.step call.spec).1) :
    ∀ (calls : List (Call α)) (s : S) (q : Queue α), (chan s).Holds q →
      AdmitsAll slot isNull q calls → AnswersAs step chan s q calls := by
  have hrun : ∀ (calls : List (Call α)) (s : S) (q : Queue α), (chan s).Holds q →
      AdmitsAll slot isNull q calls → ∃ s', run step s calls = .ok (s', (q.run (calls.map Call.spec)).2) ∧
        (chan s').Holds (q.run (calls.map Call.spec)).1 := by
    intro calls
    induction calls with
    | nil => exact fun s q H _ => ⟨s, rfl, H⟩
    | cons call calls ih =>
      intro s q H hadmits
      obtain ⟨s₁, hs₁, H₁⟩ := hstep s q call H hadmits.1
      obtain ⟨s₂, hs₂, H₂⟩ := ih s₁ _ H₁ hadmits.2
      refine ⟨s₂, ?_, H₂⟩
      simp [run, hs₁, hs₂, Queue.run]
  intro calls s q H hadmits
  obtain ⟨s', hs', H'⟩ := hrun calls s q H hadmits
  exact ⟨s', _, hs', rfl, H', Queue.run_conserves _ q⟩

end Interleavings

theorem IntChan.step_answers {c : Chan Int} {q : Queue Int} (call : Call Int) (H : c.Holds q)
    (hadmits : Admits slot (fun _ => false) q call) :
    ∃ c', step c call = .ok (c', (q.step call.spec).2) ∧ c'.Holds (q.step call.spec).1 := by
  match call with
  | .send v =>
    obtain ⟨c', sent, hsend, H', hout⟩ := H.send (by decide) v hadmits.2
    refine ⟨c', ?_, H'⟩
    simp [step, IntChan.send, hsend, Call.spec, hout]
  | .recv | .recvOpt => exact H.dequeue true
  | .tryRecv | .poll | .tryOpt => exact H.dequeue false
  | .len => exact ⟨c, by rw [step, Chan.len, H.size]; rfl, H⟩
  | .close => exact ⟨c.close, rfl, H.close⟩

theorem StrChan.dequeue_answers {s : StrChan} {q : Queue FileStr} (H : s.chan.Holds q) (waits : Bool) :
    ∃ s', s.dequeue waits = .ok (s', (q.step (.receive waits)).2) ∧
      s'.chan.Holds (q.step (.receive waits)).1 := by
  obtain ⟨c', hc', H'⟩ := H.dequeue waits
  refine ⟨{ s with chan := c' }, ?_, H'⟩
  simp [StrChan.dequeue, hc']

theorem StrChan.step_answers {s : StrChan} {q : Queue FileStr} (call : Call FileStr) (H : s.chan.Holds q)
    (hadmits : Admits slot (fun v => v.ptr == 0) q call) :
    ∃ s', step s call = .ok (s', (q.step call.spec).2) ∧ s'.chan.Holds (q.step call.spec).1 := by
  match call with
  | .send v =>
    have hptr : v.ptr ≠ 0 := by simpa using hadmits.1
    obtain ⟨c', sent, hsend, H', hout⟩ := H.send (by decide) v hadmits.2
    cases sent with
    | true =>
      refine ⟨{ s.retain v.ptr with chan := c' }, ?_, H'⟩
      simp [step, StrChan.send, hptr, retain, hsend, Call.spec, hout]
    | false =>
      refine ⟨release { s.retain v.ptr with chan := c' } v.ptr, ?_, H'⟩
      simp [step, StrChan.send, hptr, retain, release, hsend, Call.spec, hout]
  | .recv | .recvOpt => exact dequeue_answers H true
  | .tryRecv | .poll | .tryOpt => exact dequeue_answers H false
  | .len => exact ⟨s, by rw [step, Chan.len, H.size]; rfl, H⟩
  | .close => exact ⟨{ s with chan := s.chan.close }, rfl, H.close⟩

/-- **Channels are queues.** For every capacity whose buffer has a size that does not wrap, and every
    interleaving in which no String without data is sent and an unbounded channel holds less than half
    of what can be allocated when a value is sent, Int channels and String channels answer as the
    bounded or unbounded queue does: a send is refused exactly when the queue is closed or full, values
    are delivered in the order in which they were accepted, none lost, doubled or reordered, and
    absence is reported only when nothing is left. -/
theorem channels_are_queues (capacity : Int) :
    ((0 < capacity → IntChan.slot * capacity.toNat < sizeRange) →
      ∀ calls, AdmitsAll IntChan.slot (fun _ => false) (queueOf Int capacity) calls →
        AnswersAs IntChan.step id (IntChan.new capacity) (queueOf Int capacity) calls) ∧
    ((0 < capacity → StrChan.slot * capacity.toNat < sizeRange) →
      ∀ calls, AdmitsAll StrChan.slot (fun v => v.ptr == 0) (queueOf FileStr capacity) calls →
        AnswersAs StrChan.step StrChan.chan (StrChan.new capacity) (queueOf FileStr capacity) calls) := by
  refine ⟨fun hcap calls hadmits => ?_, fun hcap calls hadmits => ?_⟩
  · exact answersAs_of_step (fun c q call => IntChan.step_answers call) calls _ _
      (Chan.new_holds (by decide) hcap (by decide)) hadmits
  · exact answersAs_of_step (fun s q call => StrChan.step_answers call) calls _ _
      (Chan.new_holds (by decide) hcap (by decide)) hadmits

/-- A bounded Int channel that goes round its two cells, is full, drained and closed, and a String
    channel that is closed with a value left in it. -/
theorem channels_are_queues_small :
    AnswersAs IntChan.step id (IntChan.new 2) (queueOf Int 2)
      [.send 1, .send 2, .send 3, .recv, .send (-1), .poll, .recvOpt, .recv, .close, .send 5, .recv] ∧
    AnswersAs StrChan.step StrChan.chan (StrChan.new 0) (queueOf FileStr 0)
      [.send ⟨64, 3⟩, .close, .send ⟨80, 1⟩, .recv, .tryOpt] :=
  ⟨(channels_are_queues 2).1 (by decide) _ (by decide),
    (channels_are_queues 0).2 (by decide) _ (by decide)⟩

/-- **Where they are not**: for a capacity of 2^61 the buffer has no cell at all, and the first send
    writes outside of it; and an open, unbounded String channel refuses a String without data, which is
    what `__vyb_strchan_try` returns when there is nothing to receive. -/
theorem allocation_wraps :
    run IntChan.step (IntChan.new (2 ^ 61)) [.send 7] = .error .outOfBounds ∧
      ((queueOf Int (2 ^ 61)).run [.send 7]).2 = [.sent true] ∧
      (run StrChan.step (StrChan.new 0) [.send ⟨0, 0⟩]).map Prod.snd = .ok [.sent false] ∧
      ((queueOf FileStr 0).run [.send ⟨0, 0⟩]).2 = [.sent true] := by
  refine ⟨?_, ?_, ?_, ?_⟩ <;> decide

/-! ## 5. References of a String channel -/

/-- The references that a list of Strings accounts for. -/
def countRefs (p : Nat) (vs : List FileStr) : Int := (vs.countP fun v => v.ptr == p : Nat)

namespace StrChan

theorem dequeue_refs {s s' : StrChan} {waits : Bool} {out : Queue.Out FileStr}
    (h : s.dequeue waits = .ok (s', out)) : s'.refs = s.refs := by
  obtain ⟨r, -, h⟩ := bind_ok h
  cases h
  rfl

attribute [local simp] countRefs retain

/-- A send that is refused gives its reference back. -/
theorem send_refs {s s' : StrChan} {v : FileStr} {sent : Bool} (h : s.send v = .ok (s', sent)) (p : Nat) :
    s'.refs p = s.refs p + countRefs p (if sent then [v] else []) := by
  unfold send at h
  by_cases hptr : v.ptr = 0
  · simp only [hptr, ↓reduceIte, pure, Except.pure, Except.ok.injEq, Prod.mk.injEq] at h
    obtain ⟨rfl, rfl⟩ := h
    simp
  · simp only [hptr, ↓reduceIte] at h
    obtain ⟨⟨c, taken⟩, -, h⟩ := bind_ok h
    cases taken with
    | true =>
      cases h
      by_cases hp : v.ptr = p
      · simp [hp]
      · simp [hp, Ne.symm hp]
    | false =>
      cases h
      by_cases hp : p = v.ptr <;> simp [release, hp]

theorem step_refs {s s' : StrChan} {call : Call FileStr} {out : Queue.Out FileStr}
    (h : step s call = .ok (s', out)) (p : Nat) :
    s'.refs p = s.refs p + countRefs p (Queue.accepted [call.spec] [out]) := by
  match call with
  | .send v =>
    obtain ⟨⟨s₁, sent⟩, hs, h⟩ := bind_ok h
    cases h
    rw [send_refs hs p]
    cases sent <;> rfl
  | .recv | .recvOpt | .tryRecv | .poll | .tryOpt =>
    rw [dequeue_refs h]
    exact (Int.add_zero _).symm
  | .len | .close =>
    obtain ⟨rfl, _⟩ := Prod.mk.inj (Except.ok.inj h)
    exact (Int.add_zero _).symm

theorem accepted_cons (op : Queue.Op FileStr) (ops : List (Queue.Op FileStr)) (out : Queue.Out FileStr)
    (outs : List (Queue.Out FileStr)) :
    Queue.accepted (op :: ops) (out :: outs) =
      Queue.accepted [op] [out] ++ Queue.accepted ops outs := by
  match op, out with
  | .send _, .sent true => rfl
  | .send _, .sent false | .send _, .value _ | .send _, .absent | .send _, .waiting
  | .send _, .count _ | .send _, .closed | .receive _, _ | .length, _ | .close, _ => rfl

/-- A channel has one reference for every String it has accepted. -/
theorem run_refs (p : Nat) : ∀ (calls : List (Call FileStr)) {s s' : StrChan}
    {outs : List (Queue.Out FileStr)}, run step s calls = .ok (s', outs) →
    s'.refs p = s.refs p + countRefs p (Queue.accepted (calls.map Call.spec) outs)
  | [], s, s', outs, h => by
    obtain ⟨rfl, rfl⟩ := Prod.mk.inj (Except.ok.inj h)
    simp [Queue.accepted]
  | call :: calls, s, s', outs, h => by
    obtain ⟨r, hs, h⟩ := bind_ok h
    obtain ⟨r', hr, h⟩ := bind_ok h
    cases h
    rw [run_refs p calls hr, step_refs hs p, map_cons,
      accepted_cons call.spec (calls.map Call.spec) r.2 r'.2]
    simp only [countRefs, countP_append, cast_add]
    omega

end StrChan

/-! ## 6. Wake-ups -/

/-- A channel, and how many receivers are in `pthread_cond_wait`: asleep, or signalled and not yet resumed. -/
structure Waiting where
  chan : Chan Int
  asleep : Nat
  signalled : Nat

namespace Waiting

/-- A send that is accepted signals one sleeper, `close` signals all; a receive that waits falls asleep. -/
def after (w : Waiting) : Chan Int × Queue.Out Int → Waiting
  | (c, .sent true) => ⟨c, w.asleep - 1, w.signalled + min 1 w.asleep⟩
  | (c, .waiting) => ⟨c, w.asleep + 1, w.signalled⟩
  | (c, .closed) => ⟨c, 0, w.signalled + w.asleep⟩
  | (c, _) => { w with chan := c }

/-- A receiver that wakes up without a signal looks again as one that calls. -/
inductive Event where
  | call (call : Call Int)
  | resume
  | spurious

def step (w : Waiting) : Event → Except Fault Waiting
  | .call call => return w.after (← IntChan.step w.chan call)
  | .resume =>
    if w.signalled = 0 then return w
    else return { w with signalled := w.signalled - 1 }.after (← w.chan.dequeue true)
  | .spurious => return { w with asleep := w.asleep - 1 }

/-- Each value that a sleeper could take has a receiver on its way. -/
def Covered (w : Waiting) : Prop := 0 < w.asleep → w.chan.size ≤ w.signalled ∧ w.chan.closed = false

end Waiting

namespace Chan

variable {α : Type} {slot : Nat} {c c' : Chan α}

theorem makeRoom_effect (h : c.makeRoom slot = .ok c') : c'.closed = c.closed ∧ c'.size = c.size := by
  unfold makeRoom at h
  split at h
  · obtain ⟨nb, -, h⟩ := bind_ok h
    cases h
    exact ⟨rfl, rfl⟩
  · cases h
    exact ⟨rfl, rfl⟩

theorem send_effect {v : α} {sent : Bool} (h : c.send slot v = .ok (c', sent)) :
    c'.closed = c.closed ∧ c'.size ≤ c.size + sent.toNat := by
  unfold send at h
  split at h
  · cases h
    exact ⟨rfl, le_rfl⟩
  split at h
  · cases h
    exact ⟨rfl, le_rfl⟩
  · obtain ⟨c₁, h₁, h⟩ := bind_ok h
    obtain ⟨buf, -, h⟩ := bind_ok h
    cases h
    obtain ⟨hclosed, hsize⟩ := makeRoom_effect h₁
    exact ⟨hclosed, hsize ▸ mod_le _ _⟩

end Chan

namespace Waiting

theorem covered_dequeue {w : Waiting} {waits : Bool} {r : Chan Int × Queue.Out Int}
    (hw : 0 < w.asleep → w.chan.size - 1 ≤ w.signalled ∧ w.chan.closed = false)
    (h : w.chan.dequeue waits = .ok r) : (w.after r).Covered := by
  unfold Chan.dequeue at h
  split at h
  · next hempty =>
    cases h
    have hsize : w.chan.size ≤ w.signalled := hempty ▸ zero_le _
    by_cases hwaits : (waits && !w.chan.closed) = true
    · have hopen : w.chan.closed = false := by simpa using (and_eq_true_iff.mp hwaits).2
      rw [if_pos hwaits]
      exact fun _ => ⟨hsize, hopen⟩
    · rw [if_neg hwaits]
      exact fun hasleep => ⟨hsize, (hw hasleep).2⟩
  · obtain ⟨v, -, h⟩ := bind_ok h
    cases h
    exact hw

theorem covered_call {w : Waiting} (call : Call Int) {r : Chan Int × Queue.Out Int} (hw : w.Covered)
    (h : IntChan.step w.chan call = .ok r) : (w.after r).Covered := by
  match call with
  | .send v =>
    obtain ⟨⟨c, sent⟩, hsend, h⟩ := bind_ok h
    obtain ⟨hclosed, hsize⟩ := Chan.send_effect hsend
    cases h
    intro hasleep
    cases sent with
    | false => exact ⟨hsize.trans (hw hasleep).1, hclosed.trans (hw hasleep).2⟩
    | true =>
      -- another one is asleep still, so the signal was not in vain
      have hpos : 1 < w.asleep := by simpa only [after, Nat.sub_pos_iff_lt] using hasleep
      have hold := hw (by omega)
      refine ⟨?_, hclosed.trans hold.2⟩
      simp only [after, toNat_true] at hsize ⊢
      omega
  | .recv | .recvOpt | .tryRecv | .poll | .tryOpt =>
    exact covered_dequeue (fun hasleep => ⟨(sub_le _ _).trans (hw hasleep).1, (hw hasleep).2⟩) h
  | .len =>
    cases h
    exact hw
  | .close =>
    cases h
    exact nofun

theorem covered_step {w w' : Waiting} (e : Event) (hw : w.Covered) (h : w.step e = .ok w') : w'.Covered := by
  cases e with
  | call call =>
    obtain ⟨r, hr, h⟩ := bind_ok h
    cases h
    exact covered_call call hw hr
  | resume =>
    rw [step] at h
    split at h
    · cases h
      exact hw
    · obtain ⟨r, hr, h⟩ := bind_ok h
      cases h
      refine covered_dequeue (fun hasleep => ?_) hr
      exact ⟨Nat.sub_le_sub_right (hw hasleep).1 1, (hw hasleep).2⟩
  | spurious =>
    cases h
    intro hasleep
    exact hw (lt_of_lt_of_le hasleep (sub_le _ _))

theorem covered_run {w' : Waiting} : ∀ {events : List Event} {w : Waiting}, w.Covered →
    events.foldlM step w = .ok w' → w'.Covered
  | [], _, hw, h => by
    cases h
    exact hw
  | e :: events, w, hw, h => by
    rw [foldlM_cons] at h
    obtain ⟨w₁, h₁, h⟩ := bind_ok h
    exact covered_run (covered_step e hw h₁) h

/-- **No wake-up is lost**: while a receiver sleeps, no more values are buffered than there are receivers on their
way, and the channel is open. -/
theorem no_lost_wakeup (capacity : Int) (events : List Event) (w : Waiting)
    (h : events.foldlM step ⟨IntChan.new capacity, 0, 0⟩ = .ok w) (hasleep : 0 < w.asleep) :
    w.chan.size ≤ w.signalled ∧ w.chan.closed = false :=
  covered_run (nofun : Covered ⟨IntChan.new capacity, 0, 0⟩) h hasleep

/-- Two receivers sleep, a value is sent, and neither has resumed yet. -/
theorem no_lost_wakeup_two : ∃ w, [Event.call .recv, .call .recvOpt, .call (.send 7)].foldlM step
    ⟨IntChan.new 0, 0, 0⟩ = .ok w ∧ w.asleep = 1 ∧ w.chan.size ≤ w.signalled ∧ w.chan.closed = false :=
  ⟨_, rfl, rfl, no_lost_wakeup 0 [.call .recv, .call .recvOpt, .call (.send 7)] _ rfl (by decide)⟩

end Waiting

end Vyb.Runtime
