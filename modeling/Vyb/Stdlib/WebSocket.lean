/-
  Subject:   WebSocket frames (`stdlib/websocket/mod.vyb`): `ws_encode_frame` and `ws_read_frame`.

  A socket is what its reads return, one after the other; behind the last of them `socket_recv` returns
  the empty String, as it does at the end of the stream and on an error.

  * `wsEncodeFrame`, `wsReadFrame` -- the code;
  * `wire` -- a frame as RFC 6455 lays it out, masked or not; `encodeFrame_eq_wire`;
  * **`wsReadFrame_spec`** -- a frame with less than 2^32 bytes that is ahead on the stream is read, and
    the cursor moves behind it;
  * **`frame_read_back`** -- so what `ws_encode_frame` writes is read back for every segmentation, and
    what follows is left.
-/
import Vyb.Lib.Chunks
import Vyb.Runtime.Str
import Vyb.Collections.HashMap

namespace Vyb.Stdlib

open Lib Vyb.Runtime Str List Nat
open Vyb.Collections (wrap64)

/-! ## 1. Writing -/

/-- The rounds of `mask_bytes`; `%` and `/` go with the sign of `s`. -/
def maskLoop : Nat → Int → Str
  | 0, _ => []
  | k + 1, s =>
    let s := (wrap64 (wrap64 (s * 1103515245) + 12345)).tmod 2147483648
    fromByteInt ((s.tdiv 65536).tmod 256) ++ maskLoop k s

/-- The 4 mask bytes of a seed. -/
def maskBytes (seed : Int) : Str := maskLoop 4 seed

/-- XOR with the key, from its first byte on. -/
def applyMask (data key : Str) : Str :=
  data.mapIdx fun i c => UInt8.ofNat (c.toNat ^^^ charAt key (i % 4))

/-- The second byte of a frame and the longer length fields. -/
def encodeLength (n : Nat) : Str :=
  if n < 126 then fromByte (128 + n)
  else if n < 65536 then
    fromByte (128 + 126) ++ fromByte (n / 256 % 256) ++ fromByte (n % 256)
  else
    fromByte (128 + 127) ++ fromByte 0 ++ fromByte 0 ++ fromByte 0 ++ fromByte 0 ++
      fromByte (n / 16777216 % 256) ++ fromByte (n / 65536 % 256) ++ fromByte (n / 256 % 256) ++
      fromByte (n % 256)

/-- The body of `ws_encode_frame` behind the choice of the key. -/
def encodeFrame (opcode : Nat) (payload : Str) (fin : Bool) (key : Str) : Str :=
  let b0 := if fin then opcode + 128 else opcode
  fromByte b0 ++ encodeLength payload.length ++ key ++ applyMask payload key

def wsEncodeFrame (opcode : Nat) (payload : Str) (fin : Bool) (maskSeed : Int) : Str :=
  encodeFrame opcode payload fin (maskBytes maskSeed)

/-! ## 2. Reading -/

structure WsFrame where
  opcode : Nat
  data : Str
  fin : Bool
  deriving DecidableEq, Repr

/-- A frame and the bytes that were read past it. -/
structure WsRead where
  frame : WsFrame
  rest : Str
  deriving DecidableEq, Repr

/-- The reads of a socket that are still to come. -/
abbrev Reads := Chunks UInt8

/-- What may be absent, and takes reads from the socket in any case. -/
abbrev Recv := OptionT (StateM Reads)

def readExact (n : Nat) (pending : Str) : Recv Str := fun reads => fill n pending reads

/-- `if (s.len() > n) { s.substring(n, s.len()) } else { "" }` -/
def overflow (n : Nat) (s : Str) : Str := if n < s.length then s.substring n s.length else []

/-- The payload length, from the 7-bit field or the bytes behind it. -/
def readLength (len7 : Nat) (extra : Str) : Recv (Nat × Str) :=
  if len7 = 126 then do
    let two ← readExact 2 extra
    pure (charAt two 0 * 256 + charAt two 1, overflow 2 two)
  else if len7 = 127 then do
    let eight ← readExact 8 extra
    -- the upper four bytes are not looked at
    pure (charAt eight 4 * 16777216 + charAt eight 5 * 65536 + charAt eight 6 * 256 + charAt eight 7,
      overflow 8 eight)
  else pure (len7, extra)

/-- The key keeps what was read past it; only its first four bytes are used. -/
def readKey (masked : Bool) (extra : Str) : Recv (Str × Str) :=
  if masked then do
    let key ← readExact 4 extra
    pure (key, overflow 4 key)
  else pure ([], extra)

/-- `read_exact(..) else ""` is shorter than what was asked for exactly when it was absent, and then the
frame is absent. -/
def wsReadFrame (pending : Str) : Recv WsRead := do
  let head ← readExact 2 pending
  let b0 := charAt head 0
  let b1 := charAt head 1
  let fin := b0 &&& 128 != 0
  let opcode := b0 % 16
  let masked := b1 &&& 128 != 0
  let len7 := b1 % 128
  let (n, extra) ← readLength len7 (overflow 2 head)
  let (key, extra) ← readKey masked extra
  let body ← readExact n extra
  let payload := body.substring 0 n
  pure ⟨⟨opcode, if masked then applyMask payload key else payload, fin⟩, overflow n body⟩

/-! ## 3. The format -/

/-- `k` bytes, the most significant first. -/
def bigEndian : Nat → Nat → Str
  | 0, _ => []
  | k + 1, n => UInt8.ofNat (n / 256 ^ k % 256) :: bigEndian k n

/-- The 7-bit length field and its extension. -/
def lengthField (n : Nat) : Nat × Str :=
  if n < 126 then (n, []) else if n < 65536 then (126, bigEndian 2 n) else (127, bigEndian 8 n)

/-- A frame on the wire: RFC 6455, section 5.2, without reserved bits. A client masks. -/
def wire (f : WsFrame) (key : Option Str) : Str :=
  let b0 := if f.fin then f.opcode + 128 else f.opcode
  let len7 := (lengthField f.data.length).1
  let b1 := if key.isSome then len7 + 128 else len7
  [UInt8.ofNat b0, UInt8.ofNat b1] ++ ((lengthField f.data.length).2 ++ (key.getD [] ++
    key.elim f.data (applyMask f.data)))

/-- The fields fit: a 4-bit opcode and a 4-byte key. -/
structure Wireable (f : WsFrame) (key : Option Str) : Prop where
  opcode : f.opcode < 16
  key : ∀ k ∈ key, k.length = 4

theorem length_bigEndian : ∀ k n : Nat, (bigEndian k n).length = k
  | 0, _ => rfl
  | k + 1, n => congrArg succ (length_bigEndian k n)

theorem charAt_bigEndian : ∀ (k n : Nat) {i : Nat}, i < k →
    charAt (bigEndian k n) i = n / 256 ^ (k - 1 - i) % 256
  | k + 1, n, 0, _ => byte_toNat (mod_lt _ (by omega))
  | k + 1, n, i + 1, hi => by
    have ih := charAt_bigEndian k n (i := i) (by omega)
    rw [show k + 1 - 1 - (i + 1) = k - 1 - i by omega, ← ih]
    rfl

variable {n : Nat}

theorem encodeLength_eq (h : n < 2 ^ 32) :
    encodeLength n = UInt8.ofNat ((lengthField n).1 + 128) :: (lengthField n).2 := by
  unfold encodeLength lengthField
  split_ifs with h1 h2
  · rw [add_comm]
    rfl
  · simp [fromByte, bigEndian]
  · have h4 : n / 4294967296 = 0 := by omega
    have h5 : n / 1099511627776 = 0 := by omega
    have h6 : n / 281474976710656 = 0 := by omega
    have h7 : n / 72057594037927936 = 0 := by omega
    simp [fromByte, bigEndian, h4, h5, h6, h7]

theorem encodeFrame_eq_wire {opcode : Nat} {payload key : Str} {fin : Bool} (h : payload.length < 2 ^ 32) :
    encodeFrame opcode payload fin key = wire ⟨opcode, payload, fin⟩ (some key) := by
  rw [encodeFrame, encodeLength_eq h]
  simp [wire, fromByte]

/-! ## 4. What is read -/

theorem overflow_eq (n : Nat) (s : Str) : overflow n s = s.drop n := by
  unfold overflow
  split_ifs with h
  · exact substring_to_end h.le
  · exact (drop_eq_nil_of_le (Nat.le_of_not_lt h)).symm

/-- A mask taken off again; only the first four bytes of the key are used. -/
theorem applyMask_applyMask {data key key' : Str} (h : key'.take 4 = key.take 4) :
    applyMask (applyMask data key) key' = data := by
  rw [applyMask, applyMask, mapIdx_mapIdx]
  refine ext_getElem (by simp) fun i h1 h2 => ?_
  have hk : charAt key' (i % 4) = charAt key (i % 4) := charAt_of_take h (mod_lt _ (by omega))
  have hlt : data[i].toNat ^^^ charAt key (i % 4) < 2 ^ 8 := xor_lt_two_pow data[i].toNat_lt (charAt_lt _ _)
  simp only [getElem_mapIdx, Function.comp, hk, byte_toNat hlt, Nat.xor_assoc, Nat.xor_self,
    xor_zero, UInt8.ofNat_toNat]

theorem length_applyMask (data key : Str) : (applyMask data key).length = data.length := by
  simp [applyMask]

/-- A read that succeeds, and the rest of the program behind it. -/
theorem recv_bind {α β : Type} {x : Recv α} {f : α → Recv β} {reads reads' : Reads} {a : α}
    (h : x reads = (some a, reads')) : (x >>= f) reads = f a reads' := by
  show (OptionT.bind x f) reads = _
  simp only [OptionT.bind, OptionT.mk, bind, StateT.bind, h]

theorem recv_bind_none {α β : Type} {x : Recv α} {f : α → Recv β} {reads reads' : Reads}
    (h : x reads = (none, reads')) : (x >>= f) reads = (none, reads') := by
  show (OptionT.bind x f) reads = _
  simp only [OptionT.bind, OptionT.mk, bind, StateT.bind, h]
  rfl

/-- The flag in the upper bit of the two header bytes and the field below it. -/
theorem flag_bit {k : Nat} (hk : k < 128) (flag : Bool) :
    ((if flag then k + 128 else k) &&& 128 != 0) = flag ∧ (if flag then k + 128 else k) % 128 = k := by
  have hall : ∀ k < 128, (k &&& 128) = 0 ∧ (k + 128 &&& 128) = 128 := by decide
  obtain ⟨h0, h1⟩ := hall k hk
  cases flag with
  | false => simpa [h0] using hk
  | true => simpa [h1] using hk

section Stream

variable {start buf : Str} {reads rest : Reads} {pos : Nat} {tail : Str}

theorem readExact_spec (C : Cursor start reads pos buf rest) {a : Str} (hn : a.length = n)
    (h : (start ++ reads.flatten).drop pos = a ++ tail) :
    ∃ got rest', readExact n buf rest = (some got, rest') ∧ n ≤ got.length ∧ got.take n = a ∧
      Cursor start reads (pos + n) (overflow n got) rest' ∧
      (start ++ reads.flatten).drop (pos + n) = tail := by
  subst hn
  have hlen : pos + a.length ≤ (start ++ reads.flatten).length := by
    have hle := C.pos_le
    have heq := congrArg length h
    simp only [length_drop, length_append] at heq hle ⊢
    omega
  obtain ⟨got, rest', hfill, hgot, htake, C'⟩ := C.fill hlen
  refine ⟨got, rest', hfill, hgot, ?_, ?_, ?_⟩
  · rw [htake, h, take_left]
  · rw [overflow_eq]
    exact C'
  · rw [← drop_drop, h, drop_left]

theorem charAt_got {got a : Str} (h : got.take n = a) {i : Nat} (hi : i < n) : charAt got i = charAt a i :=
  charAt_of_take (by rw [← h, take_take, min_self]) hi

/-- Of the eight bytes of the longest length field, four are looked at. -/
theorem readLength_extended (C : Cursor start reads pos buf rest)
    (h : (start ++ reads.flatten).drop pos = bigEndian 8 n ++ tail) :
    ∃ buf' rest', readLength 127 buf rest = (some (n % 2 ^ 32, buf'), rest') ∧
      Cursor start reads (pos + 8) buf' rest' ∧ (start ++ reads.flatten).drop (pos + 8) = tail := by
  obtain ⟨got, rest', hread, -, htake, C', htail⟩ := readExact_spec C (length_bigEndian 8 n) h
  have hat : ∀ i < 8, charAt got i = n / 256 ^ (7 - i) % 256 := fun i hi =>
    (charAt_got htake hi).trans (charAt_bigEndian 8 n hi)
  have e : charAt got 4 * 16777216 + charAt got 5 * 65536 + charAt got 6 * 256 + charAt got 7 = n % 2 ^ 32 := by
    rw [hat 4 (by omega), hat 5 (by omega), hat 6 (by omega), hat 7 (by omega)]
    omega
  refine ⟨_, rest', ?_, C', htail⟩
  rw [readLength, if_neg (by omega), if_pos rfl, recv_bind hread, e]
  rfl

theorem readLength_spec (C : Cursor start reads pos buf rest) (hn : n < 2 ^ 32)
    (h : (start ++ reads.flatten).drop pos = (lengthField n).2 ++ tail) :
    ∃ buf' rest', readLength (lengthField n).1 buf rest = (some (n, buf'), rest') ∧
      Cursor start reads (pos + (lengthField n).2.length) buf' rest' ∧
      (start ++ reads.flatten).drop (pos + (lengthField n).2.length) = tail := by
  unfold lengthField at h ⊢
  split_ifs at h ⊢ with h1 h2
  · refine ⟨buf, rest, ?_, C, h⟩
    rw [readLength, if_neg (by simp only; omega), if_neg (by simp only; omega)]
    rfl
  · simp only [length_bigEndian] at h ⊢
    obtain ⟨got, rest', hread, -, htake, C', htail⟩ := readExact_spec C (length_bigEndian 2 n) h
    have hat : ∀ i < 2, charAt got i = n / 256 ^ (1 - i) % 256 := fun i hi =>
      (charAt_got htake hi).trans (charAt_bigEndian 2 n hi)
    have e : charAt got 0 * 256 + charAt got 1 = n := by
      rw [hat 0 (by omega), hat 1 (by omega)]
      omega
    refine ⟨_, rest', ?_, C', htail⟩
    rw [readLength, if_pos rfl, recv_bind hread, e]
    rfl
  · simp only [length_bigEndian] at h ⊢
    have hread := readLength_extended C h
    rwa [mod_eq_of_lt hn] at hread

theorem readKey_spec (C : Cursor start reads pos buf rest) {key : Option Str} (hkey : ∀ k ∈ key, k.length = 4)
    (h : (start ++ reads.flatten).drop pos = key.getD [] ++ tail) :
    ∃ got buf' rest', readKey key.isSome buf rest = (some (got, buf'), rest') ∧
      got.take 4 = (key.getD []).take 4 ∧
      Cursor start reads (pos + (key.getD []).length) buf' rest' ∧
      (start ++ reads.flatten).drop (pos + (key.getD []).length) = tail := by
  cases key with
  | none => exact ⟨[], buf, rest, rfl, rfl, C, h⟩
  | some k =>
    have hk : k.length = 4 := hkey k rfl
    simp only [Option.getD_some] at h ⊢
    rw [hk]
    obtain ⟨got, rest', hread, -, htake, C', htail⟩ := readExact_spec C hk h
    refine ⟨got, _, rest', ?_, ?_, C', htail⟩
    · rw [readKey, Option.isSome_some, if_pos rfl, recv_bind hread]
      rfl
    · rw [htake, ← hk, take_length]

theorem lengthField_lt (n : Nat) : (lengthField n).1 < 128 := by
  unfold lengthField
  split_ifs <;> simp only <;> omega

/-- **A frame that is ahead is read**, however it arrives, and the cursor is behind it. -/
theorem wsReadFrame_spec (C : Cursor start reads pos buf rest) {f : WsFrame} {key : Option Str}
    (hf : Wireable f key) (hlen : f.data.length < 2 ^ 32)
    (h : (start ++ reads.flatten).drop pos = wire f key ++ tail) :
    ∃ left rest', wsReadFrame buf rest = (some ⟨f, left⟩, rest') ∧
      Cursor start reads (pos + (wire f key).length) left rest' := by
  obtain ⟨opcode, data, fin⟩ := f
  have hop : opcode < 16 := hf.opcode
  simp only at hlen
  have hlen7 := lengthField_lt data.length
  have hbody : (key.elim data (applyMask data)).length = data.length := by
    cases key with
    | none => rfl
    | some k => exact length_applyMask data k
  simp only [wire, append_assoc] at h
  -- the two bytes of the header
  obtain ⟨head, reads₁, hhead, -, htake, C₁, h₁⟩ := readExact_spec C (n := 2) rfl h
  have hb0 : charAt head 0 = if fin then opcode + 128 else opcode := by
    rw [charAt_got htake (by omega)]
    exact byte_toNat (by split <;> omega)
  have hb1 : charAt head 1 = if key.isSome then (lengthField data.length).1 + 128
      else (lengthField data.length).1 := by
    rw [charAt_got htake (by omega)]
    exact byte_toNat (by split <;> omega)
  obtain ⟨hfin, -⟩ := flag_bit (k := opcode) (by omega) fin
  obtain ⟨hmasked, hfield⟩ := flag_bit hlen7 key.isSome
  have hopcode : (if fin then opcode + 128 else opcode) % 16 = opcode := by split <;> omega
  -- the longer length fields, the key and the payload
  obtain ⟨buf₂, reads₂, hlength, C₂, h₂⟩ := readLength_spec C₁ hlen h₁
  obtain ⟨got, buf₃, reads₃, hkey, hgot, C₃, h₃⟩ := readKey_spec C₂ hf.key h₂
  obtain ⟨body, reads₄, hread, hle, hpayload, C₄, -⟩ := readExact_spec C₃ hbody h₃
  refine ⟨overflow data.length body, reads₄, ?_, ?_⟩
  · rw [wsReadFrame, recv_bind hhead]
    simp only [hb0, hb1, hfin, hmasked, hfield, hopcode]
    rw [recv_bind hlength, recv_bind hkey, recv_bind hread, substring_from_start hle, hpayload]
    have hdata : (if key.isSome then applyMask (key.elim data (applyMask data)) got
        else key.elim data (applyMask data)) = data := by
      cases key with
      | none => rfl
      | some k => exact applyMask_applyMask hgot
    rw [hdata]
    rfl
  · convert C₄ using 1
    simp only [wire, length_append, hbody]
    simp only [length_cons, length_nil]
    omega

end Stream

/-- **What is written is read back.** For every opcode, every FIN bit, every key and every payload below
2^32 bytes, and for every way in which the frame and what follows it arrive, some of it perhaps read
already, `ws_read_frame` returns just that frame, and what it has read past the frame and not read yet is
what follows. The keys that `ws_encode_frame` makes of a seed are among them. -/
theorem frame_read_back (opcode : Nat) (fin : Bool) (payload : Str) (hop : opcode < 16)
    (hlen : payload.length < 2 ^ 32) :
    (∀ key trailing pending : Str, ∀ reads : Reads, key.length = 4 → (∀ r ∈ reads, r ≠ []) →
      pending ++ reads.flatten = encodeFrame opcode payload fin key ++ trailing →
      ∃ left reads', wsReadFrame pending reads = (some ⟨⟨opcode, payload, fin⟩, left⟩, reads') ∧
        left ++ reads'.flatten = trailing) ∧
    (∀ (seed : Int) (trailing pending : Str) (reads : Reads), (∀ r ∈ reads, r ≠ []) →
      pending ++ reads.flatten = wsEncodeFrame opcode payload fin seed ++ trailing →
      ∃ left reads', wsReadFrame pending reads = (some ⟨⟨opcode, payload, fin⟩, left⟩, reads') ∧
        left ++ reads'.flatten = trailing) := by
  have hread : ∀ key trailing pending : Str, ∀ reads : Reads, key.length = 4 → (∀ r ∈ reads, r ≠ []) →
      pending ++ reads.flatten = encodeFrame opcode payload fin key ++ trailing →
      ∃ left reads', wsReadFrame pending reads = (some ⟨⟨opcode, payload, fin⟩, left⟩, reads') ∧
        left ++ reads'.flatten = trailing := by
    intro key trailing pending reads hkey hne hstream
    rw [encodeFrame_eq_wire hlen] at hstream
    have hf : Wireable ⟨opcode, payload, fin⟩ (some key) :=
      ⟨hop, fun k hk => by rw [← Option.some.inj hk]; exact hkey⟩
    have C₀ : Cursor pending reads 0 pending reads := Cursor.begin hne
    obtain ⟨left, reads', hres, C⟩ := wsReadFrame_spec C₀ hf hlen hstream
    refine ⟨left, reads', hres, ?_⟩
    rw [C.ahead, hstream, zero_add, drop_left]
  exact ⟨hread, fun seed trailing pending reads => hread _ trailing pending reads rfl⟩

/-- A text of three bytes that arrives in three pieces, the last of them with a byte of the next frame. -/
theorem frame_read_back_pieces : ∃ left reads',
    wsReadFrame [] [(wsEncodeFrame 1 (ascii "abc") true (-7)).take 1,
      ((wsEncodeFrame 1 (ascii "abc") true (-7)).drop 1).take 4,
      (wsEncodeFrame 1 (ascii "abc") true (-7)).drop 5 ++ [0x8a]] =
        (some ⟨⟨1, ascii "abc", true⟩, left⟩, reads') ∧ left ++ reads'.flatten = [0x8a] :=
  (frame_read_back 1 true (ascii "abc") (by decide) (by decide)).2 (-7) [0x8a] [] _ (by decide)
    (by decide)

/-! ## 5. Longer lengths -/

/-- The part of `ws_read_frame` behind the length. -/
def readPayload (b0 : Nat) (masked : Bool) (n : Nat) (extra : Str) : Recv WsRead := do
  let (key, extra) ← readKey masked extra
  let body ← readExact n extra
  let payload := body.substring 0 n
  pure ⟨⟨b0 % 16, if masked then applyMask payload key else payload, b0 &&& 128 != 0⟩, overflow n body⟩

theorem recv_some {α β : Type} {x : Recv α} {f : α → Recv β} {reads : Reads} {b : β}
    (h : ((x >>= f) reads).1 = some b) : ∃ a reads', x reads = (some a, reads') ∧ (f a reads').1 = some b := by
  rcases hx : x reads with ⟨_ | a, reads'⟩
  · rw [recv_bind_none hx] at h
    cases h
  · rw [recv_bind hx] at h
    exact ⟨a, reads', rfl, h⟩

theorem length_readPayload {b0 : Nat} {masked : Bool} {extra : Str} {reads : Reads} {r : WsRead}
    (h : (readPayload b0 masked n extra reads).1 = some r) : r.frame.data.length = n := by
  obtain ⟨⟨key, extra'⟩, reads₁, -, h⟩ := recv_some h
  obtain ⟨body, reads₂, hbody, h⟩ := recv_some (x := readExact n extra') h
  have hle : n ≤ body.length := le_length_of_fill hbody
  cases h
  have htake : (body.substring 0 n).length = n := by
    rw [substring_from_start hle, length_take, min_eq_left hle]
  cases masked with
  | false => exact htake
  | true => exact (length_applyMask _ _).trans htake

/-- A frame read behind a header of ten bytes that says `n` has `n` bytes. -/
def LengthKept (b0 b1 : UInt8) (n : Nat) : Prop := ∀ (tail pending : Str) (reads : Reads), (∀ r ∈ reads, r ≠ []) →
  pending ++ reads.flatten = [b0, b1] ++ (bigEndian 8 n ++ tail) →
  ∀ r ∈ (wsReadFrame pending reads).1, r.frame.data.length = n

section Extended

variable {b0 b1 : UInt8} {tail pending : Str} {reads : Reads}

theorem wsReadFrame_extended (hb1 : b1.toNat % 128 = 127) (hne : ∀ r ∈ reads, r ≠ [])
    (h : pending ++ reads.flatten = [b0, b1] ++ (bigEndian 8 n ++ tail)) :
    ∃ buf rest, wsReadFrame pending reads =
        readPayload b0.toNat (b1.toNat &&& 128 != 0) (n % 2 ^ 32) buf rest ∧
      Cursor pending reads 10 buf rest ∧ (pending ++ reads.flatten).drop 10 = tail := by
  obtain ⟨head, reads₁, hhead, -, htake, C₁, h₁⟩ := readExact_spec (Cursor.begin hne) (n := 2) rfl h
  obtain ⟨buf, reads₂, hlength, C₂, h₂⟩ := readLength_extended C₁ h₁
  have hat0 : charAt head 0 = b0.toNat := charAt_got htake (by omega)
  have hat1 : charAt head 1 = b1.toNat := charAt_got htake (by omega)
  refine ⟨buf, reads₂, ?_, C₂, h₂⟩
  rw [wsReadFrame, recv_bind hhead]
  simp only [hat0, hat1, hb1]
  rw [recv_bind hlength]
  rfl

end Extended

/-- **Which lengths are kept**: those below 2^32. The upper four bytes of a longer one are dropped. -/
theorem length_kept_iff (b0 b1 : UInt8) (n : Nat) (hb1 : b1.toNat % 128 = 127) :
    LengthKept b0 b1 n ↔ n < 2 ^ 32 := by
  constructor
  · intro hkept
    -- a key, if there is one, and as many bytes as the code asks for
    obtain ⟨key, hsome, hkey⟩ : ∃ key : Option Str, key.isSome = (b1.toNat &&& 128 != 0) ∧ ∀ k ∈ key, k.length = 4 := by
      cases b1.toNat &&& 128 != 0 with
      | false => exact ⟨none, rfl, nofun⟩
      | true => exact ⟨some [0, 0, 0, 0], rfl, by simp⟩
    have hstream := append_nil ([b0, b1] ++ (bigEndian 8 n ++ (key.getD [] ++ (replicate (n % 2 ^ 32) 0 ++ []))))
    have hreads : ∀ r ∈ ([] : Reads), r ≠ [] := nofun
    obtain ⟨buf, rest, hframe, C, h⟩ := wsReadFrame_extended hb1 hreads hstream
    obtain ⟨got, buf₂, reads₂, hreadKey, -, C₂, h₂⟩ := readKey_spec C hkey h
    obtain ⟨body, reads₃, hbody, -⟩ := readExact_spec C₂ length_replicate h₂
    obtain ⟨r, hr⟩ : ∃ r, (readPayload b0.toNat key.isSome (n % 2 ^ 32) buf rest).1 = some r := by
      rw [readPayload, recv_bind hreadKey]
      dsimp only
      rw [recv_bind hbody]
      exact ⟨_, rfl⟩
    have hlen := hkept _ _ [] hreads hstream r (by rw [hframe, ← hsome]; exact hr)
    rw [← hlen, length_readPayload hr]
    exact mod_lt n (by decide)
  · intro hlt tail pending reads hne h r hr
    obtain ⟨buf, rest, hframe, -⟩ := wsReadFrame_extended hb1 hne h
    rw [hframe] at hr
    rw [length_readPayload hr, mod_eq_of_lt hlt]

theorem length_kept_small : LengthKept 0x82 0x7f 65536 :=
  (length_kept_iff 0x82 0x7f 65536 (by decide)).mpr (by decide)

/-- The header of a frame of 2^32 bytes: a frame without a byte is returned. -/
theorem length_dropped : ¬ LengthKept 0x82 0x7f (2 ^ 32) := by
  intro h
  have hlen := h [] [0x82, 0x7f, 0, 0, 0, 1, 0, 0, 0, 0] [] nofun (by decide) ⟨⟨2, [], true⟩, []⟩ (by decide)
  cases hlen

end Vyb.Stdlib
