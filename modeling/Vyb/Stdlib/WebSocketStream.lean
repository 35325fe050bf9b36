/-
  Subject:   `ws_recv_frame` and `ws_recv_text` (`stdlib/websocket/mod.vyb`), call after call.

  `ws_recv_text` hands out a payload and nothing else: what was read past its frame is gone, and the next
  call begins at the next read. A ping is answered and then handed out as if it were a message, and a
  call gives up after 32 frames.

  * `recvTexts` -- successive calls; the first one has the bytes that came with the handshake;
  * `Apart` -- no ping, at most 31 pongs before a message, and behind the message, in the read in which it
    ends, nothing but pongs;
  * **`messages_in_order`** -- then the calls return the payloads of the messages, in order, and the next
    call nothing;
  * `messages_lost` -- without it: a message that is dropped, a ping that is returned, a message that is
    not waited for.
-/
import Vyb.Stdlib.WebSocket

namespace Vyb.Stdlib

open Lib Vyb.Runtime Str List

/-! ## 1. The calls -/

namespace WsOpcode

abbrev text : Nat := 1
abbrev binary : Nat := 2
abbrev close : Nat := 8
abbrev ping : Nat := 9
abbrev pong : Nat := 10

end WsOpcode

/-- The two directions of a socket: what will be read, and what has been sent. -/
structure Peer where
  reads : Reads
  sent : List Str
  deriving DecidableEq, Repr

/-- The frame that stands for an absent one. -/
def closeRead : WsRead := ⟨⟨WsOpcode.close, [], true⟩, []⟩

section Calls

-- the random seeds of the frames that are sent
variable (rand : Nat → Int)

def wsPong (payload : Str) (c : Peer) : Peer :=
  { c with sent := c.sent ++ [wsEncodeFrame WsOpcode.pong payload true (rand c.sent.length)] }

/-- The loop of `ws_recv_frame`; `guard` is what is left of its 32 rounds. -/
def recvLoop : Nat → Str → Peer → Option WsRead × Peer
  | 0, _, c => (none, c)
  | guard + 1, carry, c =>
    let (got, reads) := wsReadFrame carry c.reads
    let c := { c with reads }
    let got := got.getD closeRead
    if got.frame.opcode = WsOpcode.close then (none, c)
    else if got.frame.opcode = WsOpcode.pong then recvLoop guard got.rest c
    else (some got, if got.frame.opcode = WsOpcode.ping then wsPong rand got.frame.data c else c)

def wsRecvFrame (pending : Str) (c : Peer) : Option WsRead × Peer := recvLoop rand 32 pending c

def wsRecvText (pending : Str) (c : Peer) : Option Str × Peer :=
  let (got, c) := wsRecvFrame rand pending c
  let got := got.getD closeRead
  if got.frame.opcode = WsOpcode.close then (none, c) else (some got.frame.data, c)

/-- `n` calls; only the first has pending bytes to pass. -/
def recvTexts : Nat → Str → Peer → List (Option Str)
  | 0, _, _ => []
  | n + 1, pending, c =>
    let (text, c) := wsRecvText rand pending c
    text :: recvTexts n [] c

end Calls

/-! ## 2. What the peer sends -/

/-- A frame that the peer sends, with its key if it masks. -/
structure Sent where
  frame : WsFrame
  key : Option Str
  deriving DecidableEq, Repr

namespace Sent

def bytes (f : Sent) : Str := wire f.frame f.key

/-- A whole message. -/
def IsData (f : Sent) : Prop := f.frame.opcode = WsOpcode.text ∨ f.frame.opcode = WsOpcode.binary

instance decIsData (f : Sent) : Decidable f.IsData := inferInstanceAs (Decidable (_ ∨ _))

def IsPong (f : Sent) : Prop := f.frame.opcode = WsOpcode.pong

instance decIsPong (f : Sent) : Decidable f.IsPong := inferInstanceAs (Decidable (_ = _))

/-- The fields fit, and the length is one that `ws_read_frame` can read. -/
structure Fits (f : Sent) : Prop where
  wireable : Wireable f.frame f.key
  short : f.frame.data.length < 2 ^ 32

end Sent

def wires (fs : List Sent) : Str := (fs.map Sent.bytes).flatten

/-- The payloads of the messages. -/
def payloads (fs : List Sent) : List Str := (fs.filter (·.IsData)).map (·.frame.data)

/-- The messages are kept apart: the reads fall into groups, one for each message; there is no ping, at
most 31 pongs stand before a message, and in the read in which a message ends only pongs follow it. -/
inductive Apart : Str → Reads → List Sent → Prop where
  | done {pending : Str} {reads : Reads} {pongs : List Sent} (hpongs : ∀ f ∈ pongs, f.IsPong)
      (hbytes : pending ++ reads.flatten = wires pongs) : Apart pending reads pongs
  | message {pending : Str} {group reads : Reads} {before after frames : List Sent} {d : Sent}
      (hbefore : ∀ f ∈ before, f.IsPong) (hguard : before.length ≤ 31) (hdata : d.IsData)
      (hafter : ∀ f ∈ after, f.IsPong)
      (hbytes : pending ++ group.flatten = wires (before ++ d :: after))
      (hends : group = [] ∨ (pending ++ group.dropLast.flatten).length < (wires (before ++ [d])).length)
      (hmore : Apart [] reads frames) : Apart pending (group ++ reads) (before ++ d :: (after ++ frames))

/-! ## 3. One call -/

section Call

variable (rand : Nat → Int) {start : Str} {reads : Reads}

theorem wires_cons (f : Sent) (fs : List Sent) : wires (f :: fs) = f.bytes ++ wires fs := rfl

theorem wires_append (fs gs : List Sent) : wires (fs ++ gs) = wires fs ++ wires gs := by
  simp [wires]

theorem recvLoop_succ {c : Peer} {carry left : Str} {f : WsFrame} {reads' : Reads} (guard : Nat)
    (h : wsReadFrame carry c.reads = (some ⟨f, left⟩, reads')) :
    recvLoop rand (guard + 1) carry c =
      if f.opcode = WsOpcode.close then (none, { c with reads := reads' })
      else if f.opcode = WsOpcode.pong then recvLoop rand guard left { c with reads := reads' }
      else (some ⟨f, left⟩, if f.opcode = WsOpcode.ping then wsPong rand f.data { c with reads := reads' }
        else { c with reads := reads' }) := by
  rw [recvLoop, h]
  rfl

/-- Pongs are passed over, as long as there are rounds left for the message. -/
theorem recvLoop_message {d : Sent} (hd : d.IsData) (hfits : d.Fits) :
    ∀ (before : List Sent) {guard pos : Nat}
    {carry tail : Str} {c : Peer}, (∀ f ∈ before, f.IsPong ∧ f.Fits) → before.length < guard →
    Cursor start reads pos carry c.reads →
    (start ++ reads.flatten).drop pos = wires (before ++ [d]) ++ tail →
    ∃ left reads', recvLoop rand guard carry c = (some ⟨d.frame, left⟩, { c with reads := reads' }) ∧
      Cursor start reads (pos + (wires (before ++ [d])).length) left reads'
  | [], guard + 1, pos, carry, tail, c, _, _, C, h => by
    rw [nil_append, wires_cons] at h ⊢
    simp only [wires, map_nil, flatten_nil, append_nil] at h ⊢
    obtain ⟨left, reads', hread, C'⟩ := wsReadFrame_spec C hfits.wireable hfits.short h
    refine ⟨left, reads', ?_, C'⟩
    rw [recvLoop_succ rand guard hread]
    rcases hd with hd | hd
    · simp [hd]
    · simp [hd]
  | f :: before, guard + 1, pos, carry, tail, c, hbefore, hguard, C, h => by
    obtain ⟨hpong, hf⟩ := hbefore f mem_cons_self
    rw [cons_append, wires_cons, append_assoc] at h
    obtain ⟨left, reads', hread, C'⟩ := wsReadFrame_spec C hf.wireable hf.short h
    have h' : (start ++ reads.flatten).drop (pos + (wire f.frame f.key).length) =
        wires (before ++ [d]) ++ tail := by
      rw [← drop_drop, h]
      exact drop_left
    have hguard' : before.length < guard := by simpa using hguard
    obtain ⟨left', reads'', hloop, C''⟩ := recvLoop_message hd hfits before
      (c := { c with reads := reads' }) (fun g hg => hbefore g (mem_cons_of_mem f hg)) hguard' C' h'
    refine ⟨left', reads'', ?_, ?_⟩
    · have hop : f.frame.opcode = WsOpcode.pong := hpong
      rw [recvLoop_succ rand guard hread, if_neg (by rw [hop]; decide), if_pos hop, hloop]
    · rw [cons_append, wires_cons, length_append, ← Nat.add_assoc]
      exact C''

/-- Behind the last message there is nothing to return. -/
theorem recvLoop_done : ∀ (guard : Nat) {pongs : List Sent} {pos : Nat} {carry : Str} {c : Peer},
    (∀ f ∈ pongs, f.IsPong ∧ f.Fits) → Cursor start reads pos carry c.reads →
    (start ++ reads.flatten).drop pos = wires pongs → (recvLoop rand guard carry c).1 = none
  | 0, _, _, _, _, _, _, _ => rfl
  | guard + 1, [], pos, carry, c, _, C, h => by
    obtain ⟨reads', hshort⟩ := fill_short (n := 2)
      (by rw [C.ahead, h]; exact Nat.two_pos)
    have hread : wsReadFrame carry c.reads = (none, reads') := recv_bind_none hshort
    rw [recvLoop, hread]
    rfl
  | guard + 1, f :: pongs, pos, carry, c, hpongs, C, h => by
    obtain ⟨hpong, hf⟩ := hpongs f mem_cons_self
    rw [wires_cons] at h
    obtain ⟨left, reads', hread, C'⟩ := wsReadFrame_spec C hf.wireable hf.short h
    have h' : (start ++ reads.flatten).drop (pos + (wire f.frame f.key).length) = wires pongs := by
      rw [← drop_drop, h]
      exact drop_left
    have hop : f.frame.opcode = WsOpcode.pong := hpong
    rw [recvLoop_succ rand guard hread, if_neg (by rw [hop]; decide), if_pos hop]
    exact recvLoop_done guard (fun g hg => hpongs g (mem_cons_of_mem f hg)) C' h'

end Call

/-! ## 4. Call after call -/

section Messages

variable {fs gs : List Sent}

theorem payloads_append : payloads (fs ++ gs) = payloads fs ++ payloads gs := by
  simp [payloads]

theorem payloads_pongs (h : ∀ f ∈ fs, f.IsPong) : payloads fs = [] := by
  have hnone : fs.filter (·.IsData) = [] := filter_eq_nil_iff.mpr fun f hf => by
    have hop : f.frame.opcode = WsOpcode.pong := h f hf
    simp [Sent.IsData, hop]
  rw [payloads, hnone]
  rfl

theorem payloads_data {d : Sent} (h : d.IsData) : payloads [d] = [d.frame.data] := by
  simp [payloads, h]

end Messages

/-- **The stream of messages.** However the frames arrive, with keys or without, if they are kept apart as
`Apart` says, the calls return the payloads of the messages, in order, each once, and the call after the
last of them returns nothing. -/
theorem messages_in_order (rand : Nat → Int) {pending : Str} {reads : Reads} {frames : List Sent}
    (hfits : ∀ f ∈ frames, f.Fits) (hne : ∀ r ∈ reads, r ≠ []) (h : Apart pending reads frames)
    (sent : List Str) :
    recvTexts rand ((payloads frames).length + 1) pending ⟨reads, sent⟩ =
      (payloads frames).map some ++ [none] := by
  induction h with
  | @done pending reads pongs hpongs hbytes =>
    have C : Cursor pending reads 0 pending reads := Cursor.begin hne
    have hdone := recvLoop_done rand (c := ⟨reads, sent⟩) 32
      (fun f hf => ⟨hpongs f hf, hfits f hf⟩) C hbytes
    simp only [payloads_pongs hpongs, recvTexts, wsRecvText, wsRecvFrame, hdone]
    rfl
  | @message pending group reads before after frames d hbefore hguard hdata hafter hbytes hends hmore ih =>
    have hd : d.Fits := hfits d (by simp)
    have hpongs : ∀ f ∈ before, f.IsPong ∧ f.Fits := fun f hf => ⟨hbefore f hf, hfits f (by simp [hf])⟩
    have hsplit : wires (before ++ d :: after) = wires (before ++ [d]) ++ wires after := by
      rw [← wires_append, append_assoc]
      rfl
    have hstream : pending ++ (group ++ reads).flatten =
        wires (before ++ [d]) ++ (wires after ++ reads.flatten) := by
      rw [flatten_append, ← append_assoc, hbytes, hsplit, append_assoc]
    have C : Cursor pending (group ++ reads) 0 pending (group ++ reads) := Cursor.begin hne
    obtain ⟨left, reads', hloop, C'⟩ := recvLoop_message rand (c := ⟨group ++ reads, sent⟩) hdata hd
      before hpongs (Nat.lt_succ_of_le hguard) C hstream
    -- the reads of this message are used up, and the next call begins with the next group
    obtain rfl : reads' = reads := by
      refine C'.rest_eq ?_ ?_
      · simpa using hends
      · rw [hbytes, hsplit]
        simp
    have hpay : payloads (before ++ d :: (after ++ frames)) = d.frame.data :: payloads frames := by
      rw [payloads_append, payloads_pongs hbefore, nil_append, ← singleton_append, payloads_append,
        payloads_data hdata, payloads_append, payloads_pongs hafter]
      rfl
    have hclose : d.frame.opcode ≠ WsOpcode.close := by
      rcases hdata with h | h <;> rw [h] <;> decide
    have ih' := ih (fun f hf => hfits f (by simp [hf])) (fun r hr => hne r (mem_append_right group hr))
    rw [hpay, length_cons, recvTexts, wsRecvText, wsRecvFrame, hloop]
    simp only [Option.getD_some, if_neg hclose, ih', map_cons, cons_append]

/-- A text behind a pong that arrives in two reads, and a binary message with a pong behind it. -/
theorem messages_in_order_two :
    recvTexts (fun _ => 0) 3 []
      ⟨[[0x8a, 0x00, 0x81], [0x01, 0x61], [0x82, 0x01, 0x62, 0x8a, 0x00]], []⟩ =
      [some (ascii "a"), some (ascii "b"), none] :=
  have hapart : Apart [] ([[0x8a, 0x00, 0x81], [0x01, 0x61]] ++ ([[0x82, 0x01, 0x62, 0x8a, 0x00]] ++ []))
      ([⟨⟨10, [], true⟩, none⟩] ++ ⟨⟨1, ascii "a", true⟩, none⟩ :: ([] ++
        ([] ++ ⟨⟨2, ascii "b", true⟩, none⟩ :: ([⟨⟨10, [], true⟩, none⟩] ++ [])))) :=
    .message (by decide) (by decide) (by decide) (by decide) (by decide) (by decide)
      (.message (by decide) (by decide) (by decide) (by decide) (by decide) (by decide)
        (.done (by decide) (by decide)))
  messages_in_order (fun _ => 0) (fun f hf => by
    simp only [cons_append, nil_append, append_nil, mem_cons, not_mem_nil,
      or_false] at hf
    rcases hf with rfl | rfl | rfl | rfl <;>
      exact ⟨⟨by decide, fun k hk => by cases hk⟩, by decide⟩) (by decide) hapart []

/-- Two texts in one read: the second is dropped. A ping is returned as a message. After 32 pongs the call
gives up before the message. -/
theorem messages_lost :
    recvTexts (fun _ => 0) 2 [] ⟨[wire ⟨1, ascii "a", true⟩ none ++ wire ⟨1, ascii "b", true⟩ none], []⟩ =
      [some (ascii "a"), none] ∧
    recvTexts (fun _ => 0) 2 [] ⟨[wire ⟨9, ascii "p", true⟩ none, wire ⟨1, ascii "a", true⟩ none], []⟩ =
      [some (ascii "p"), some (ascii "a")] ∧
    recvTexts (fun _ => 0) 1 []
      ⟨[(List.replicate 32 (wire ⟨10, [], true⟩ none)).flatten ++ wire ⟨1, ascii "a", true⟩ none], []⟩ =
      [none] := by
  decide +kernel

end Vyb.Stdlib
