/-
  Subject:   Strings as values `{ ptr, len }` over reference counted buffers, and what a String channel
             does with them (`src/vre/llvm/cgen_string_type.cpp`, `cgen_expr_literals.cpp`,
             `runtime/vyb_runtime.c`).

  A literal is data of the program; `concat`, `trim` and a `substring` inside its bounds fill a new
  buffer, which is registered with one reference; a `substring` outside of them is the null pointer with
  length 0. `__vyb_strchan_send` takes the null pointer for no String at all.

  * `Heap` -- the buffers, with `retain` and the `release` that frees at the last reference;
  * `StrExpr.eval` -- the operations on the heap, `StrExpr.value` -- the bytes they stand for;
  * `StrExpr.eval_spec` -- a value has its bytes, one reference that is its own, and a null pointer just
    where a `substring` was out of bounds;
  * **`string_delivered_iff`** -- an open, unbounded channel takes a String and hands its bytes on
    exactly if it is not such a `substring`;
  * `empty_substring_dropped` -- one that is refused.
-/
import Vyb.Runtime.Str
import Vyb.Runtime.Channel

namespace Vyb.Runtime

open List Option Nat

open Vyb.Lib (Fault Queue)

/-! ## 1. Buffers -/

/-- A buffer and its count in the registry; data of the program is not registered. -/
structure Buffer where
  bytes : Str
  refs : Option Int
  deriving DecidableEq, Repr

/-- One reference less; the last one frees the buffer. -/
def Buffer.drop (b : Buffer) : Option Buffer :=
  match b.refs with
  | none => some b
  | some n => if n = 1 then none else some { b with refs := some (n - 1) }

/-- The cell behind address `p` is number `p - 1`; a buffer that has been freed leaves `none`. -/
abbrev Heap := List (Option Buffer)

namespace Heap

def bufferAt (h : Heap) : Nat → Option Buffer
  | 0 => none
  | p + 1 => h[p]?.join

/-- The `len` bytes behind `ptr`; no byte is looked at if there are none. -/
def load (h : Heap) (v : FileStr) : Option Str :=
  if v.len = 0 then some [] else (h.bufferAt v.ptr).map fun b => b.bytes.take v.len.toNat

/-- A new buffer for the bytes and the NUL behind them. -/
def place (h : Heap) (text : Str) (refs : Option Int) : Heap × FileStr :=
  (h ++ [some ⟨text ++ [0], refs⟩], ⟨h.length + 1, text.length⟩)

/-- `__vyb_string_retain` -/
def retain (h : Heap) : Nat → Heap
  | 0 => h
  | p + 1 => h.modify p (Option.map fun b => { b with refs := b.refs.map (· + 1) })

/-- `__vyb_string_release` -/
def release (h : Heap) : Nat → Heap
  | 0 => h
  | p + 1 => h.modify p (Option.bind · Buffer.drop)

/-! ## 2. The operations -/

def literal (h : Heap) (text : Str) : Heap × FileStr := h.place text none

/-- `malloc(len + 1)`, `__vyb_string_register`, `memcpy` and the NUL. -/
def build (h : Heap) (text : Str) : Heap × FileStr := h.place text (some 1)

def concat (h : Heap) (s other : FileStr) : Option (Heap × FileStr) := do
  let str1 ← h.load s
  let str2 ← h.load other
  some (h.build (str1 ++ str2))

def substring (h : Heap) (s : FileStr) (start stop : Int) : Option (Heap × FileStr) :=
  if Str.InBounds s.len start stop then do
    let data ← h.load s
    some (h.build ((data.drop start.toNat).take (stop - start).toNat))
  else some (h, ⟨0, 0⟩)

def trim (h : Heap) (s : FileStr) : Option (Heap × FileStr) := do
  let data ← h.load s
  some (h.build data.trim)

end Heap

open Heap

/-- A String put together from literals. -/
inductive StrExpr where
  | literal (text : Str)
  | concat (s other : StrExpr)
  | substring (s : StrExpr) (start stop : Int)
  | substringFrom (s : StrExpr) (start : Int)
  | trim (s : StrExpr)
  deriving DecidableEq, Repr

namespace StrExpr

/-- `exprProducesOwnedStringTemp` -/
def producesOwnedTemp : StrExpr → Bool
  | .literal _ => false
  | _ => true

/-- The code that is generated for it. An argument of `concat` that nobody else owns is given up. -/
def eval : StrExpr → Heap → Option (Heap × FileStr)
  | .literal text, h => some (h.literal text)
  | .concat s other, h => do
    let (h, str1) ← s.eval h
    let (h, str2) ← other.eval h
    let (h, r) ← h.concat str1 str2
    some (if other.producesOwnedTemp then h.release str2.ptr else h, r)
  | .substring s start stop, h => do
    let (h, str) ← s.eval h
    h.substring str start stop
  | .substringFrom s start, h => do
    let (h, str) ← s.eval h
    h.substring str start str.len
  | .trim s, h => do
    let (h, str) ← s.eval h
    h.trim str

/-- The bytes that it stands for. -/
def value : StrExpr → Str
  | .literal text => text
  | .concat s other => s.value ++ other.value
  | .substring s start stop => s.value.substring start stop
  | .substringFrom s start => s.value.suffix start
  | .trim s => s.value.trim

/-- A `substring` whose bounds its String does not have. -/
def OutOfBounds : StrExpr → Prop
  | .substring s start stop => ¬ Str.InBounds s.value.length start stop
  | .substringFrom s start => ¬ Str.InBounds s.value.length start s.value.length
  | _ => False

instance decOutOfBounds : ∀ e : StrExpr, Decidable e.OutOfBounds
  | .substring _ _ _ | .substringFrom _ _ => inferInstanceAs (Decidable (¬ _))
  | .literal _ | .concat _ _ | .trim _ => inferInstanceAs (Decidable False)

end StrExpr

/-! ## 3. What an operation leaves behind -/

namespace Heap

variable {h h' h'' : Heap} {text : Str}

/-- The buffers of `h` are untouched in `h'`. -/
structure Extends (h h' : Heap) : Prop where
  longer : h.length ≤ h'.length
  kept : ∀ i < h.length, h'[i]? = h[i]?

theorem Extends.refl (h : Heap) : Extends h h := ⟨le_refl _, fun _ _ => rfl⟩

theorem Extends.trans (a : Extends h h') (b : Extends h' h'') : Extends h h'' :=
  ⟨a.longer.trans b.longer, fun i hi =>
    (b.kept i (hi.trans_le a.longer)).trans (a.kept i hi)⟩

theorem Extends.place (a : Extends h h') (refs : Option Int) : Extends h (h'.place text refs).1 :=
  a.trans ⟨by simp [Heap.place], fun i hi => getElem?_append_left hi⟩

theorem Extends.bufferAt (a : Extends h h') {p : Nat} {b : Buffer} (hb : h.bufferAt p = some b) :
    h'.bufferAt p = some b := by
  cases p with
  | zero => cases hb
  | succ p =>
    simp only [Heap.bufferAt, join_eq_some_iff] at hb ⊢
    have hlt : p < h.length := (List.getElem?_eq_some_iff.mp hb).1
    rw [a.kept p hlt, hb]

theorem bufferAt_le {p : Nat} {b : Buffer} (hb : h.bufferAt p = some b) : p ≤ h.length := by
  cases p with
  | zero => exact zero_le _
  | succ p =>
    rw [bufferAt, join_eq_some_iff] at hb
    exact (List.getElem?_eq_some_iff.mp hb).1

/-- Releasing a buffer that is not among those of `h` leaves these alone. -/
theorem Extends.release (a : Extends h h') {p : Nat} (hp : p = 0 ∨ h.length < p) :
    Extends h (h'.release p) := by
  cases p with
  | zero => exact a
  | succ p =>
    refine ⟨by simpa [Heap.release] using a.longer, fun i hi => ?_⟩
    rw [Heap.release, getElem?_modify_ne _ _ (by omega), a.kept i hi]

theorem release_bufferAt_ne {p q : Nat} (hpq : p ≠ q) : (h.release p).bufferAt q = h.bufferAt q := by
  match p, q with
  | 0, _ | _ + 1, 0 => rfl
  | p + 1, q + 1 =>
    rw [release, bufferAt, getElem?_modify_ne _ _ (by omega), bufferAt]

theorem place_bufferAt (refs : Option Int) :
    (h.place text refs).1.bufferAt (h.length + 1) = some ⟨text ++ [0], refs⟩ := by
  simp [place, bufferAt]

/-- A buffer of the heap with the bytes of a String in front. -/
structure Holds (h : Heap) (v : FileStr) (text : Str) : Prop where
  len : v.len = text.length
  data : v.ptr ≠ 0 → ∃ b, h.bufferAt v.ptr = some b ∧ b.bytes.take text.length = text ∧
    (b.refs = none ∨ b.refs = some 1)
  null : v.ptr = 0 → text = []

variable {v : FileStr}

theorem load_of_bufferAt {b : Buffer} (hb : h.bufferAt v.ptr = some b) (hlen : v.len = text.length)
    (htake : b.bytes.take text.length = text) : h.load v = some text := by
  rw [load, hlen]
  by_cases htext : text = []
  · simp [htext]
  · rw [if_neg (by simpa using htext), hb]
    simp [htake]

theorem load_null (hlen : v.len = 0) : h.load v = some [] := if_pos hlen

theorem Holds.load (H : h.Holds v text) : h.load v = some text := by
  by_cases hptr : v.ptr = 0
  · rw [H.null hptr]
    exact load_null (by rw [H.len, H.null hptr]; rfl)
  · obtain ⟨b, hb, htake, -⟩ := H.data hptr
    exact load_of_bufferAt hb H.len htake

theorem Holds.extends (H : h.Holds v text) (a : Extends h h') : h'.Holds v text where
  len := H.len
  data hptr := by
    obtain ⟨b, hb, hrest⟩ := H.data hptr
    exact ⟨b, a.bufferAt hb, hrest⟩
  null := H.null

theorem Holds.le (H : h.Holds v text) : v.ptr ≤ h.length := by
  by_cases hptr : v.ptr = 0
  · rw [hptr]
    exact zero_le _
  · obtain ⟨b, hb, -⟩ := H.data hptr
    exact bufferAt_le hb

theorem place_holds {refs : Option Int} (hrefs : refs = none ∨ refs = some 1) :
    (h.place text refs).1.Holds (h.place text refs).2 text where
  len := rfl
  data _ := ⟨_, place_bufferAt refs, by simp, hrefs⟩
  null h0 := absurd h0 (succ_ne_zero _)

end Heap

/-! ## 4. Evaluation -/

namespace StrExpr

/-- What an evaluation leaves: the buffers there were, and a value with its bytes, which stands in a new
buffer, or in none if a `substring` was out of bounds. -/
structure Evaluated (e : StrExpr) (h h' : Heap) (v : FileStr) : Prop where
  kept : h.Extends h'
  holds : h'.Holds v e.value
  fresh : v.ptr = 0 ∨ h.length < v.ptr
  null : v.ptr = 0 ↔ e.OutOfBounds

variable {e s : StrExpr} {h h₁ : Heap} {str : FileStr}

/-- The operations that fill a buffer. -/
theorem Evaluated.place (hkept : h.Extends h₁) {refs : Option Int} (hrefs : refs = none ∨ refs = some 1)
    (hin : ¬ e.OutOfBounds) : Evaluated e h (h₁.place e.value refs).1 (h₁.place e.value refs).2 where
  kept := hkept.place refs
  holds := Heap.place_holds hrefs
  fresh := .inr (lt_succ_of_le hkept.longer)
  null := iff_of_false (succ_ne_zero _) hin

theorem substring_spec {start stop : Int} (hs : Evaluated s h h₁ str)
    (hvalue : e.value = s.value.substring start stop)
    (hout : e.OutOfBounds ↔ ¬ Str.InBounds s.value.length start stop) :
    ∃ h' v, h₁.substring str start stop = some (h', v) ∧ Evaluated e h h' v := by
  have hlen := hs.holds.len
  by_cases hin : Str.InBounds s.value.length start stop
  · refine ⟨_, _, ?_, Evaluated.place hs.kept (.inr rfl) (fun hc => hout.mp hc hin)⟩
    rw [Heap.substring, hlen, if_pos hin, hs.holds.load, hvalue, Str.substring, if_pos hin]
    rfl
  · refine ⟨h₁, ⟨0, 0⟩, ?_, hs.kept, ?_, .inl rfl, iff_of_true rfl (hout.mpr hin)⟩
    · rw [Heap.substring, hlen, if_neg hin]
    · rw [hvalue, Str.substring, if_neg hin]
      exact ⟨rfl, fun hc => absurd rfl hc, fun _ => rfl⟩

/-- **Every evaluation succeeds**, and leaves what `Evaluated` says. -/
theorem eval_spec (e : StrExpr) : ∀ h : Heap, ∃ h' v, e.eval h = some (h', v) ∧ Evaluated e h h' v := by
  induction e with
  | literal text => exact fun h => ⟨_, _, rfl, Evaluated.place (.refl h) (.inl rfl) id⟩
  | concat s other ihs iho =>
    intro h
    obtain ⟨h₁, str1, heval1, hs⟩ := ihs h
    obtain ⟨h₂, str2, heval2, ho⟩ := iho h₁
    have hload1 := (hs.holds.extends ho.kept).load
    have hplaced : Evaluated (.concat s other) h _ _ :=
      Evaluated.place (hs.kept.trans ho.kept) (.inr rfl) id
    let r := h₂.build (s.value ++ other.value)
    refine ⟨if other.producesOwnedTemp then r.1.release str2.ptr else r.1, r.2, ?_, ?_⟩
    · simp only [eval, heval1, heval2, Heap.concat, hload1, ho.holds.load, bind_eq_bind, bind_some]
      rfl
    · split
      · -- the argument has a buffer of its own, which is not the one of the result
        have hne : str2.ptr ≠ h₂.length + 1 := by
          have := ho.holds.le
          omega
        have hfresh : str2.ptr = 0 ∨ h.length < str2.ptr := by
          have := hs.kept.longer
          have := ho.fresh
          omega
        refine ⟨hplaced.kept.release hfresh, ⟨hplaced.holds.len, fun hptr => ?_, hplaced.holds.null⟩,
          hplaced.fresh, hplaced.null⟩
        obtain ⟨b, hb, hrest⟩ := hplaced.holds.data hptr
        exact ⟨b, (release_bufferAt_ne hne).trans hb, hrest⟩
      · exact hplaced
  | substring s start stop ih =>
    intro h
    obtain ⟨h₁, str, heval, hs⟩ := ih h
    simp only [eval, heval, bind_eq_bind, bind_some]
    exact substring_spec hs rfl Iff.rfl
  | substringFrom s start ih =>
    intro h
    obtain ⟨h₁, str, heval, hs⟩ := ih h
    simp only [eval, heval, bind_eq_bind, bind_some, hs.holds.len]
    exact substring_spec hs rfl Iff.rfl
  | trim s ih =>
    intro h
    obtain ⟨h₁, str, heval, hs⟩ := ih h
    refine ⟨_, _, ?_, Evaluated.place hs.kept (.inr rfl) id⟩
    simp only [eval, heval, Heap.trim, hs.holds.load, bind_eq_bind, bind_some]
    rfl

end StrExpr

/-! ## 5. Through a channel -/

/-- `__vyb_strchan_send`, with its reference in the heap too. -/
def Heap.sendStr (h : Heap) (s : StrChan) (v : FileStr) : Except Fault (Heap × StrChan × Bool) := do
  let h := h.retain v.ptr
  let (s, sent) ← s.send v
  return (if sent then h else h.release v.ptr, s, sent)

/-- The String is accepted, and after what the channel held before, however it is received, it comes out
with its bytes, also when its sender has given up its own reference. -/
def StrExpr.Delivered (e : StrExpr) (h : Heap) (s : StrChan) (ahead : List FileStr) : Prop :=
  ∃ h₁ v h₂ s₁, e.eval h = some (h₁, v) ∧ h₁.sendStr s v = .ok (h₂, s₁, true) ∧
    (∀ receives : List (Call FileStr), (∀ c ∈ receives, ∃ waits, c.spec = .receive waits) →
      receives.length = ahead.length + 1 →
      ∃ s₂, run StrChan.step s₁ receives = .ok (s₂, (ahead ++ [v]).map .value)) ∧
    h₂.load v = some e.value ∧ (h₂.release v.ptr).load v = some e.value

/-- As many receives as there are values take them all. -/
theorem run_receives : ∀ (calls : List (Call FileStr)) (q : Queue FileStr),
    (∀ c ∈ calls, ∃ waits, c.spec = .receive waits) → calls.length = q.items.length →
    (q.run (calls.map Call.spec)).2 = q.items.map .value
  | [], q, _, hlen => by
    rw [length_nil] at hlen
    rw [eq_nil_of_length_eq_zero hlen.symm]
    rfl
  | c :: calls, q, hcalls, hlen => by
    obtain ⟨waits, hc⟩ := hcalls c mem_cons_self
    cases hitems : q.items with
    | nil => simp [hitems] at hlen
    | cons v rest =>
      have ih := run_receives calls { q with items := rest }
        (fun c' hc' => hcalls c' (mem_cons_of_mem c hc')) (by simpa [hitems] using hlen)
      simp only [map_cons, hc, Queue.run, Queue.step, hitems, ih]

theorem admitsAll_receives {calls : List (Call FileStr)} (isNull : FileStr → Bool) (slot : Nat)
    (hcalls : ∀ c ∈ calls, ∃ waits, c.spec = .receive waits) : ∀ q, AdmitsAll slot isNull q calls := by
  induction calls with
  | nil => exact fun _ => trivial
  | cons c calls ih =>
    intro q
    refine ⟨?_, ih (fun c' hc' => hcalls c' (mem_cons_of_mem c hc')) _⟩
    obtain ⟨waits, hc⟩ := hcalls c mem_cons_self
    cases c with
    | send v => cases hc
    | recv | recvOpt | tryRecv | poll | tryOpt | len | close => exact trivial

/-- The channel's own reference keeps the buffer. -/
theorem Heap.Holds.retained {h : Heap} {v : FileStr} {text : Str} (H : h.Holds v text) :
    (h.retain v.ptr).load v = some text ∧ ((h.retain v.ptr).release v.ptr).load v = some text := by
  by_cases hptr : v.ptr = 0
  · have hlen : v.len = 0 := by rw [H.len, H.null hptr]; rfl
    rw [H.null hptr]
    exact ⟨load_null hlen, load_null hlen⟩
  · obtain ⟨⟨bytes, refs⟩, hb, htake, hrefs⟩ := H.data hptr
    obtain ⟨p, hp⟩ := exists_eq_succ_of_ne_zero hptr
    rw [hp] at hb
    have hret : (h.retain v.ptr).bufferAt v.ptr = some ⟨bytes, refs.map (· + 1)⟩ := by
      rw [hp]
      simp only [Heap.bufferAt, join_eq_some_iff] at hb ⊢
      simp [retain, hb]
    have hrel : ((h.retain v.ptr).release v.ptr).bufferAt v.ptr = some ⟨bytes, refs⟩ := by
      rw [hp] at hret ⊢
      simp only [Heap.bufferAt, join_eq_some_iff] at hret ⊢
      rw [Heap.release, getElem?_modify, hret]
      rcases hrefs with rfl | rfl
      · simp [Buffer.drop]
      · simp [Buffer.drop]
    exact ⟨load_of_bufferAt hret H.len htake, load_of_bufferAt hrel H.len htake⟩

/-- What a channel that is neither closed nor full is sent. -/
theorem StrChan.send_accepted {s : StrChan} {q : Queue FileStr} {v : FileStr} (H : s.chan.Holds q)
    (hopen : q.closed = false) (hfull : q.full = false)
    (hroom : q.limit = none → slot * (q.items.length * 2) < sizeRange) (hptr : v.ptr ≠ 0) :
    ∃ s', s.send v = .ok (s', true) ∧ s'.chan.Holds { q with items := q.items ++ [v] } := by
  have hstep : q.step (.send v) = ({ q with items := q.items ++ [v] }, .sent true) := by
    simp [Queue.step, hopen, hfull]
  obtain ⟨c', sent, hsend, H', hout⟩ := H.send (by decide) v hroom
  rw [hstep] at H' hout
  obtain rfl : sent = true := by simpa [eq_comm] using hout
  refine ⟨{ s.retain v.ptr with chan := c' }, ?_, H'⟩
  simp [send, hptr, retain, hsend]

section Channel

variable {s : StrChan} {q : Queue FileStr} (H : s.chan.Holds q) (hopen : q.closed = false)
  (hunbounded : q.limit = none) (hroom : StrChan.slot * (q.items.length * 2) < sizeRange)

include H hopen hunbounded hroom

/-- **Strings and channels.** On an open, unbounded channel every String is accepted and received with
its bytes, unless its last operation is a `substring` out of bounds. -/
theorem string_delivered_iff (e : StrExpr) (h : Heap) : e.Delivered h s q.items ↔ ¬ e.OutOfBounds := by
  obtain ⟨h₁, v, heval, hev⟩ := e.eval_spec h
  constructor
  · rintro ⟨h₁', v', h₂, s₁, heval', hsend, -⟩ hout
    obtain ⟨rfl, rfl⟩ := Prod.mk.inj (some.inj (heval'.symm.trans heval))
    have hnull := hev.null.mpr hout
    simp [sendStr, StrChan.send, hnull] at hsend
  · intro hin
    have hptr : v.ptr ≠ 0 := fun h0 => hin (hev.null.mp h0)
    have hfull : q.full = false := by rw [Queue.full, hunbounded]; rfl
    obtain ⟨s₁, hsend, H₁⟩ := StrChan.send_accepted H hopen hfull (fun _ => hroom) hptr
    refine ⟨h₁, v, h₁.retain v.ptr, s₁, heval, ?_, fun receives hreceives hlen => ?_, hev.holds.retained⟩
    · simp [sendStr, hsend]
    · obtain ⟨s₂, outs, hrun, houts, -, -⟩ := answersAs_of_step (fun s q call => StrChan.step_answers call)
        receives s₁ _ H₁ (admitsAll_receives _ _ hreceives _)
      exact ⟨s₂, by rw [hrun, houts, run_receives receives _ hreceives (by simpa using hlen)]⟩

end Channel

/-- A String that is put together with all the operations, behind one that was sent before. -/
theorem string_delivered_iff_words :
    StrExpr.Delivered (.trim (.concat (.literal (Str.ascii " a"))
      (.concat (.substring (.literal (Str.ascii "xyz")) 1 2) (.substring (.literal (Str.ascii "b ")) 3 1))))
      [] (StrChan.new 0) [] :=
  (string_delivered_iff (q := queueOf FileStr 0) (Chan.new_holds (by decide) (by decide) (by decide)) rfl
    rfl (by decide) _ _).mpr (by decide)

/-- `"abc".substring(2, 9)` is the empty String, and an open, unbounded channel refuses it; it takes the
empty String `""`. -/
theorem empty_substring_dropped :
    (StrExpr.substring (.literal (Str.ascii "abc")) 2 9).eval [] =
      some ([some ⟨Str.ascii "abc" ++ [0], none⟩], ⟨0, 0⟩) ∧
    (StrExpr.substring (.literal (Str.ascii "abc")) 2 9).value = [] ∧
    ((StrChan.new 0).send ⟨0, 0⟩).map Prod.snd = .ok false ∧
    (StrExpr.literal []).eval [] = some ([some ⟨[0], none⟩], ⟨1, 0⟩) ∧
    ((StrChan.new 0).send ⟨1, 0⟩).map Prod.snd = .ok true := by
  decide

end Vyb.Runtime
