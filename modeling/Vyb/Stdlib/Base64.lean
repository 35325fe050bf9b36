/-
  Subject:   base64 (`stdlib/base64/mod.vyb`).

  The two loops go over the bytes in groups, three of them on the way in and four on the way out, so they
  are recursions over what is left of the text. All numbers are bytes or put together from three of
  them, and no operation on them leaves the range of `Int`.

  * `b64Decode_b64Encode` -- what was encoded is decoded;
  * `PadBitsZero` -- the bits of the last character that belong to no byte are zero;
  * **`base64_inverse_iff`** -- a text that is decoded is the encoding of its bytes exactly if they are;
  * `zh_decodes` -- `Zh==` is decoded like `Zg==`.
-/
import Vyb.Runtime.Str

namespace Vyb.Stdlib

open Vyb.Runtime Str List Option Nat

/-! ## 1. The code -/

/-- The character of a 6-bit value. -/
def b64Char (k : Nat) : Str :=
  if k < 26 then fromByte (65 + k)
  else if k < 52 then fromByte (97 + k - 26)
  else if k < 62 then fromByte (48 + k - 52)
  else if k = 62 then ascii "+"
  else ascii "/"

/-- The value of a character; `none` where the source has -1. -/
def b64Val (c : Nat) : Option Nat :=
  if 65 ≤ c ∧ c ≤ 90 then some (c - 65)
  else if 97 ≤ c ∧ c ≤ 122 then some (c - 97 + 26)
  else if 48 ≤ c ∧ c ≤ 57 then some (c - 48 + 52)
  else if c = 43 then some 62
  else if c = 47 then some 63
  else none

/-- One round of `b64_encode`; the second and the third byte may be missing. -/
def encodeGroup (b0 : Nat) (b1 b2 : Option Nat) : Str :=
  let trip := b0 <<< 16 ||| b1.getD 0 <<< 8 ||| b2.getD 0
  b64Char (trip >>> 18 &&& 63) ++ b64Char (trip >>> 12 &&& 63) ++
    (if b1.isSome then b64Char (trip >>> 6 &&& 63) else ascii "=") ++
    (if b2.isSome then b64Char (trip &&& 63) else ascii "=")

def b64Encode : Str → Str
  | [] => []
  | [b0] => encodeGroup b0.toNat none none
  | [b0, b1] => encodeGroup b0.toNat (some b1.toNat) none
  | b0 :: b1 :: b2 :: rest => encodeGroup b0.toNat (some b1.toNat) (some b2.toNat) ++ b64Encode rest

/-- One round of `b64_decode`: only the `last` group may be padded. -/
def decodeGroup (last : Bool) (c0 c1 c2 c3 : Nat) : Option Str := do
  let v0 ← b64Val c0
  let v1 ← b64Val c1
  if c2 = 61 then
    -- a tail of two
    if !last ∨ c3 ≠ 61 then none
    else
      let trip := v0 <<< 18 ||| v1 <<< 12
      some (fromByte (trip >>> 16 &&& 0xFF))
  else if c3 = 61 then
    if !last then none
    else
      let v2 ← b64Val c2
      let trip := v0 <<< 18 ||| v1 <<< 12 ||| v2 <<< 6
      some (fromByte (trip >>> 16 &&& 0xFF) ++ fromByte (trip >>> 8 &&& 0xFF))
  else
    let v2 ← b64Val c2
    let v3 ← b64Val c3
    let trip := v0 <<< 18 ||| v1 <<< 12 ||| v2 <<< 6 ||| v3
    some (fromByte (trip >>> 16 &&& 0xFF) ++ fromByte (trip >>> 8 &&& 0xFF) ++ fromByte (trip &&& 0xFF))

def decodeGroups : Str → Option Str
  | [] => some []
  | c0 :: c1 :: c2 :: c3 :: rest => do
    let group ← decodeGroup rest.isEmpty c0.toNat c1.toNat c2.toNat c3.toNat
    let more ← decodeGroups rest
    some (group ++ more)
  | _ => none

def b64Decode (s : Str) : Option Str := if s.length % 4 ≠ 0 then none else decodeGroups s

/-! ## 2. The alphabet -/

theorem b64Val_lt {c v : Nat} (h : b64Val c = some v) : v < 64 := by
  unfold b64Val at h
  split_ifs at h <;> simp only [some.injEq] at h <;> omega

theorem b64Val_ne_pad {v : Nat} : b64Val 61 ≠ some v := by simp [b64Val]

/-- A character stands for one byte, and its value is read back. -/
theorem b64Char_spec {k : Nat} (h : k < 64) :
    ∃ c : UInt8, b64Char k = [c] ∧ b64Val c.toNat = some k ∧ c.toNat ≠ 61 := by
  have hall : ∀ k < 64, ∃ c : Nat, c < 256 ∧ b64Char k = fromByte c ∧ b64Val c = some k ∧ c ≠ 61 := by
    intro k hk
    unfold b64Char b64Val
    split_ifs with h26 h52 h62 heq
    · exact ⟨65 + k, by omega, rfl, by rw [if_pos (by omega)]; congr 1; omega, by omega⟩
    · refine ⟨97 + k - 26, by omega, rfl, ?_, by omega⟩
      rw [if_neg (by omega), if_pos (by omega)]
      congr 1
      omega
    · refine ⟨48 + k - 52, by omega, rfl, ?_, by omega⟩
      rw [if_neg (by omega), if_neg (by omega), if_pos (by omega)]
      congr 1
      omega
    · exact ⟨43, by omega, rfl, by simp [heq], by omega⟩
    · exact ⟨47, by omega, rfl, by simp; omega, by omega⟩
  obtain ⟨c, hc, hchar, hval, hne⟩ := hall k h
  refine ⟨UInt8.ofNat c, hchar, ?_, ?_⟩
  · rwa [byte_toNat hc]
  · rwa [byte_toNat hc]

/-- No two characters have one value. -/
theorem b64Char_of_b64Val {c : UInt8} {v : Nat} (h : b64Val c.toNat = some v) : b64Char v = [c] := by
  suffices b64Char v = fromByte c.toNat by rw [this, fromByte_toNat]
  unfold b64Val at h
  unfold b64Char
  split_ifs at h <;> simp only [some.injEq] at h
  · rw [if_pos (by omega), show 65 + v = c.toNat by omega]
  · rw [if_neg (by omega), if_pos (by omega), show 97 + v - 26 = c.toNat by omega]
  · rw [if_neg (by omega), if_neg (by omega), if_pos (by omega), show 48 + v - 52 = c.toNat by omega]
  all_goals
    rename_i hc
    rw [hc, ← h]
    rfl

/-! ## 3. One group -/

section Bits

variable {a b n : Nat}

theorem shiftLeft_or_of_lt (h : b < 2 ^ n) : a <<< n ||| b = a * 2 ^ n + b := by
  rw [← shiftLeft_add_eq_or_of_lt h, shiftLeft_eq]

theorem and_63 (a : Nat) : a &&& 63 = a % 64 := Nat.and_two_pow_sub_one_eq_mod a 6

theorem and_255 (a : Nat) : a &&& 0xFF = a % 256 := Nat.and_two_pow_sub_one_eq_mod a 8

end Bits

theorem packBytes {b0 b1 b2 : Nat} (h1 : b1 < 256) (h2 : b2 < 256) :
    b0 <<< 16 ||| b1 <<< 8 ||| b2 = b0 * 65536 + b1 * 256 + b2 := by
  rw [Nat.or_assoc, shiftLeft_or_of_lt (n := 8) h2, shiftLeft_or_of_lt (n := 16) (by omega)]
  ring

theorem unpackValues {v0 v1 v2 v3 : Nat} (h0 : v0 < 64) (h1 : v1 < 64) (h2 : v2 < 64) (h3 : v3 < 64) :
    (v0 <<< 18 ||| v1 <<< 12 ||| v2 <<< 6 ||| v3) >>> 16 &&& 0xFF = v0 * 4 + v1 / 16 ∧
    (v0 <<< 18 ||| v1 <<< 12 ||| v2 <<< 6 ||| v3) >>> 8 &&& 0xFF = v1 % 16 * 16 + v2 / 4 ∧
    (v0 <<< 18 ||| v1 <<< 12 ||| v2 <<< 6 ||| v3) &&& 0xFF = v2 % 4 * 64 + v3 := by
  rw [Nat.or_assoc, Nat.or_assoc, shiftLeft_or_of_lt (n := 6) h3, shiftLeft_or_of_lt (n := 12) (by omega),
    shiftLeft_or_of_lt (n := 18) (by omega)]
  simp only [and_255, shiftRight_eq_div_pow]
  omega

theorem encodeGroup_eq {b0 : Nat} {b1 b2 : Option Nat} (h0 : b0 < 256) (h1 : b1.getD 0 < 256)
    (h2 : b2.getD 0 < 256) :
    encodeGroup b0 b1 b2 = b64Char (b0 / 4) ++ b64Char (b0 % 4 * 16 + b1.getD 0 / 16) ++
      (if b1.isSome then b64Char (b1.getD 0 % 16 * 4 + b2.getD 0 / 64) else ascii "=") ++
      (if b2.isSome then b64Char (b2.getD 0 % 64) else ascii "=") := by
  generalize hb1 : b1.getD 0 = x1 at *
  generalize hb2 : b2.getD 0 = x2 at *
  have e0 : (b0 * 65536 + x1 * 256 + x2) / 2 ^ 18 % 64 = b0 / 4 := by omega
  have e1 : (b0 * 65536 + x1 * 256 + x2) / 2 ^ 12 % 64 = b0 % 4 * 16 + x1 / 16 := by omega
  have e2 : (b0 * 65536 + x1 * 256 + x2) / 2 ^ 6 % 64 = x1 % 16 * 4 + x2 / 64 := by omega
  have e3 : (b0 * 65536 + x1 * 256 + x2) % 64 = x2 % 64 := by omega
  simp only [encodeGroup, hb1, hb2, packBytes h1 h2, and_63, shiftRight_eq_div_pow, e0, e1, e2, e3]

section Values

variable {c0 c1 c2 c3 v0 v1 v2 v3 : Nat} (h0 : b64Val c0 = some v0) (h1 : b64Val c1 = some v1)

include h0 h1

theorem decodeGroup_two : decodeGroup true c0 c1 61 61 = some (fromByte (v0 * 4 + v1 / 16)) := by
  obtain ⟨e, -⟩ := @unpackValues v0 v1 0 0 (b64Val_lt h0) (b64Val_lt h1) (by omega) (by omega)
  simp only [zero_shiftLeft, or_zero] at e
  simp only [decodeGroup, h0, h1, bind_eq_bind, bind_some, if_true, e]
  rfl

theorem decodeGroup_three (h2 : b64Val c2 = some v2) :
    decodeGroup true c0 c1 c2 61 =
      some (fromByte (v0 * 4 + v1 / 16) ++ fromByte (v1 % 16 * 16 + v2 / 4)) := by
  have hc2 : c2 ≠ 61 := fun h => b64Val_ne_pad (h ▸ h2)
  obtain ⟨e1, e2, -⟩ := @unpackValues v0 v1 v2 0 (b64Val_lt h0) (b64Val_lt h1) (b64Val_lt h2) (by omega)
  simp only [or_zero] at e1 e2
  simp only [decodeGroup, h0, h1, h2, bind_eq_bind, bind_some, hc2, if_false, if_true, e1, e2]
  rfl

theorem decodeGroup_four (last : Bool) (h2 : b64Val c2 = some v2) (h3 : b64Val c3 = some v3) :
    decodeGroup last c0 c1 c2 c3 = some (fromByte (v0 * 4 + v1 / 16) ++
      fromByte (v1 % 16 * 16 + v2 / 4) ++ fromByte (v2 % 4 * 64 + v3)) := by
  have hc2 : c2 ≠ 61 := fun h => b64Val_ne_pad (h ▸ h2)
  have hc3 : c3 ≠ 61 := fun h => b64Val_ne_pad (h ▸ h3)
  obtain ⟨e1, e2, e3⟩ := unpackValues (b64Val_lt h0) (b64Val_lt h1) (b64Val_lt h2) (b64Val_lt h3)
  simp only [decodeGroup, h0, h1, h2, h3, bind_eq_bind, bind_some, hc2, hc3, if_false, e1, e2, e3]

end Values

/-- What a group that is decoded looks like. -/
inductive Group (last : Bool) : Nat → Nat → Nat → Nat → Str → Prop where
  | two {c0 c1 v0 v1 : Nat} (hlast : last = true) (h0 : b64Val c0 = some v0)
      (h1 : b64Val c1 = some v1) : Group last c0 c1 61 61 (fromByte (v0 * 4 + v1 / 16))
  | three {c0 c1 c2 v0 v1 v2 : Nat} (hlast : last = true) (h0 : b64Val c0 = some v0)
      (h1 : b64Val c1 = some v1) (h2 : b64Val c2 = some v2) :
      Group last c0 c1 c2 61 (fromByte (v0 * 4 + v1 / 16) ++ fromByte (v1 % 16 * 16 + v2 / 4))
  | four {c0 c1 c2 c3 v0 v1 v2 v3 : Nat} (h0 : b64Val c0 = some v0) (h1 : b64Val c1 = some v1)
      (h2 : b64Val c2 = some v2) (h3 : b64Val c3 = some v3) :
      Group last c0 c1 c2 c3 (fromByte (v0 * 4 + v1 / 16) ++ fromByte (v1 % 16 * 16 + v2 / 4) ++
        fromByte (v2 % 4 * 64 + v3))

theorem decodeGroup_cases {last : Bool} {c0 c1 c2 c3 : Nat} {g : Str}
    (h : decodeGroup last c0 c1 c2 c3 = some g) : Group last c0 c1 c2 c3 g := by
  have h' := h
  simp only [decodeGroup, bind_eq_bind, bind_eq_some_iff] at h
  obtain ⟨v0, h0, v1, h1, h⟩ := h
  split at h
  · rename_i hc2
    split at h
    · cases h
    · rename_i htail
      obtain ⟨hlast, hc3⟩ : last = true ∧ c3 = 61 := by simpa using htail
      subst hc2 hc3 hlast
      obtain rfl := some.inj ((decodeGroup_two h0 h1).symm.trans h')
      exact .two rfl h0 h1
  · split at h
    · rename_i hc2 hc3
      split at h
      · cases h
      · rename_i hlast
        obtain ⟨v2, h2, -⟩ := bind_eq_some_iff.mp h
        obtain rfl : last = true := by simpa using hlast
        subst hc3
        obtain rfl := some.inj ((decodeGroup_three h0 h1 h2).symm.trans h')
        exact .three rfl h0 h1 h2
    · obtain ⟨v2, h2, h⟩ := bind_eq_some_iff.mp h
      obtain ⟨v3, h3, -⟩ := bind_eq_some_iff.mp h
      obtain rfl := some.inj ((decodeGroup_four h0 h1 last h2 h3).symm.trans h')
      exact .four h0 h1 h2 h3

/-! ## 4. The round trip -/

section Encoded

variable (b0 b1 b2 : UInt8)

/-- The characters of one byte alone are decoded to it, and so for two and for three bytes. -/
theorem encodeGroup_one : ∃ c0 c1 : UInt8, encodeGroup b0.toNat none none = [c0, c1, 61, 61] ∧
    decodeGroup true c0.toNat c1.toNat 61 61 = some [b0] := by
  have h0 := b0.toNat_lt
  obtain ⟨c0, hc0, hv0, -⟩ := b64Char_spec (k := b0.toNat / 4) (by omega)
  obtain ⟨c1, hc1, hv1, -⟩ := b64Char_spec (k := b0.toNat % 4 * 16) (by omega)
  refine ⟨c0, c1, ?_, ?_⟩
  · rw [encodeGroup_eq h0 (by decide) (by decide)]
    simp only [getD_none, Nat.zero_div, Nat.add_zero, hc0, hc1]
    rfl
  · rw [decodeGroup_two hv0 hv1, ← fromByte_toNat b0]
    congr 2
    omega

theorem encodeGroup_two : ∃ c0 c1 c2 : UInt8,
    encodeGroup b0.toNat (some b1.toNat) none = [c0, c1, c2, 61] ∧
    decodeGroup true c0.toNat c1.toNat c2.toNat 61 = some [b0, b1] := by
  have h0 := b0.toNat_lt
  have h1 := b1.toNat_lt
  obtain ⟨c0, hc0, hv0, -⟩ := b64Char_spec (k := b0.toNat / 4) (by omega)
  obtain ⟨c1, hc1, hv1, -⟩ := b64Char_spec (k := b0.toNat % 4 * 16 + b1.toNat / 16) (by omega)
  obtain ⟨c2, hc2, hv2, -⟩ := b64Char_spec (k := b1.toNat % 16 * 4) (by omega)
  refine ⟨c0, c1, c2, ?_, ?_⟩
  · rw [@encodeGroup_eq b0.toNat (some b1.toNat) none h0 h1 (by decide)]
    simp only [getD_none, getD_some, Nat.zero_div, Nat.add_zero, hc0, hc1, hc2]
    rfl
  · have e0 : b0.toNat / 4 * 4 + (b0.toNat % 4 * 16 + b1.toNat / 16) / 16 = b0.toNat := by omega
    have e1 : (b0.toNat % 4 * 16 + b1.toNat / 16) % 16 * 16 + b1.toNat % 16 * 4 / 4 = b1.toNat := by
      omega
    rw [decodeGroup_three hv0 hv1 hv2, e0, e1, fromByte_toNat, fromByte_toNat]
    rfl

theorem encodeGroup_three (last : Bool) : ∃ c0 c1 c2 c3 : UInt8,
    encodeGroup b0.toNat (some b1.toNat) (some b2.toNat) = [c0, c1, c2, c3] ∧
    decodeGroup last c0.toNat c1.toNat c2.toNat c3.toNat = some [b0, b1, b2] := by
  have h0 := b0.toNat_lt
  have h1 := b1.toNat_lt
  have h2 := b2.toNat_lt
  obtain ⟨c0, hc0, hv0, -⟩ := b64Char_spec (k := b0.toNat / 4) (by omega)
  obtain ⟨c1, hc1, hv1, -⟩ := b64Char_spec (k := b0.toNat % 4 * 16 + b1.toNat / 16) (by omega)
  obtain ⟨c2, hc2, hv2, -⟩ := b64Char_spec (k := b1.toNat % 16 * 4 + b2.toNat / 64) (by omega)
  obtain ⟨c3, hc3, hv3, -⟩ := b64Char_spec (k := b2.toNat % 64) (by omega)
  refine ⟨c0, c1, c2, c3, ?_, ?_⟩
  · rw [@encodeGroup_eq b0.toNat (some b1.toNat) (some b2.toNat) h0 h1 h2]
    simp only [getD_some, hc0, hc1, hc2, hc3]
    rfl
  · have e0 : b0.toNat / 4 * 4 + (b0.toNat % 4 * 16 + b1.toNat / 16) / 16 = b0.toNat := by omega
    have e1 : (b0.toNat % 4 * 16 + b1.toNat / 16) % 16 * 16 + (b1.toNat % 16 * 4 + b2.toNat / 64) / 4
        = b1.toNat := by omega
    have e2 : (b1.toNat % 16 * 4 + b2.toNat / 64) % 4 * 64 + b2.toNat % 64 = b2.toNat := by omega
    rw [decodeGroup_four hv0 hv1 last hv2 hv3, e0, e1, e2, fromByte_toNat, fromByte_toNat,
      fromByte_toNat]
    rfl

end Encoded

theorem decodeGroups_b64Encode (x : Str) : decodeGroups (b64Encode x) = some x := by
  induction x using b64Encode.induct with
  | case1 => rfl
  | case2 b0 =>
    obtain ⟨c0, c1, henc, hdec⟩ := encodeGroup_one b0
    simp only [b64Encode, henc, decodeGroups, isEmpty_nil]
    rw [show (61 : UInt8).toNat = 61 from rfl, hdec]
    rfl
  | case3 b0 b1 =>
    obtain ⟨c0, c1, c2, henc, hdec⟩ := encodeGroup_two b0 b1
    simp only [b64Encode, henc, decodeGroups, isEmpty_nil]
    rw [show (61 : UInt8).toNat = 61 from rfl, hdec]
    rfl
  | case4 b0 b1 b2 rest ih =>
    obtain ⟨c0, c1, c2, c3, henc, hdec⟩ := encodeGroup_three b0 b1 b2 (b64Encode rest).isEmpty
    simp only [b64Encode, henc, cons_append, nil_append, decodeGroups, hdec, ih, bind_eq_bind, bind_some]

theorem length_b64Encode (x : Str) : (b64Encode x).length % 4 = 0 := by
  induction x using b64Encode.induct with
  | case1 => rfl
  | case2 b0 =>
    obtain ⟨c0, c1, henc, -⟩ := encodeGroup_one b0
    simp [b64Encode, henc]
  | case3 b0 b1 =>
    obtain ⟨c0, c1, c2, henc, -⟩ := encodeGroup_two b0 b1
    simp [b64Encode, henc]
  | case4 b0 b1 b2 rest ih =>
    obtain ⟨c0, c1, c2, c3, henc, -⟩ := encodeGroup_three b0 b1 b2 true
    simp only [b64Encode, henc, length_append, length_cons, length_nil]
    omega

theorem b64Decode_b64Encode (x : Str) : b64Decode (b64Encode x) = some x := by
  rw [b64Decode, if_neg (by simpa using length_b64Encode x), decodeGroups_b64Encode]

/-! ## 5. Texts that are no encoding -/

/-- The bits of the last character before the padding that belong to no byte: four of them before two
`=`, two before one. Only the code's own `b64Val` is looked at. -/
def PadBitsZero (s : Str) : Prop :=
  if charAt s (s.length - 1) = 61 then
    if charAt s (s.length - 2) = 61 then (b64Val (charAt s (s.length - 3))).getD 0 % 16 = 0
    else (b64Val (charAt s (s.length - 2))).getD 0 % 4 = 0
  else True

instance decPadBitsZero (s : Str) : Decidable (PadBitsZero s) := by
  unfold PadBitsZero
  infer_instance

theorem padBitsZero_append {s t : Str} (h : 3 ≤ t.length) : PadBitsZero (s ++ t) ↔ PadBitsZero t := by
  have hat : ∀ k, k ≤ 3 → 1 ≤ k → charAt (s ++ t) ((s ++ t).length - k) = charAt t (t.length - k) := by
    intro k hk hk'
    rw [charAt, charAt, length_append, getD_eq_getElem?_getD,
      getElem?_append_right (by omega), getD_eq_getElem?_getD]
    congr 3
    omega
  simp only [PadBitsZero, hat 1 (by omega) (by omega), hat 2 (by omega) (by omega),
    hat 3 (by omega) (by omega)]

theorem b64Char_eq_iff {c : UInt8} {k v : Nat} (hk : k < 64) (h : b64Val c.toNat = some v) :
    b64Char k = [c] ↔ k = v := by
  constructor
  · intro hchar
    obtain ⟨c', hc', hval, -⟩ := b64Char_spec hk
    obtain rfl : c' = c := by simpa [hc'] using hchar
    exact some.inj (hval.symm.trans h)
  · rintro rfl
    exact b64Char_of_b64Val h

theorem firstBytes {v0 v1 v2 : Nat} (h0 : v0 < 64) (h1 : v1 < 64) (h2 : v2 < 64) :
    (UInt8.ofNat (v0 * 4 + v1 / 16)).toNat = v0 * 4 + v1 / 16 ∧
    (UInt8.ofNat (v1 % 16 * 16 + v2 / 4)).toNat = v1 % 16 * 16 + v2 / 4 ∧ (v0 * 4 + v1 / 16) / 4 = v0 ∧
    (v0 * 4 + v1 / 16) % 4 * 16 + (v1 % 16 * 16 + v2 / 4) / 16 = v1 :=
  ⟨byte_toNat (by omega), byte_toNat (by omega), by omega, by omega⟩

section Decoded

variable {c0 c1 c2 c3 : UInt8} {v0 v1 v2 v3 : Nat} (h0 : b64Val c0.toNat = some v0)
  (h1 : b64Val c1.toNat = some v1)

include h0 h1

theorem b64Encode_two : b64Encode (fromByte (v0 * 4 + v1 / 16)) = [c0, c1, 61, 61] ↔ v1 % 16 = 0 := by
  have hv0 := b64Val_lt h0
  have hv1 := b64Val_lt h1
  have hb : (UInt8.ofNat (v0 * 4 + v1 / 16)).toNat = v0 * 4 + v1 / 16 :=
    byte_toNat (by omega)
  have e0 : (v0 * 4 + v1 / 16) / 4 = v0 := by omega
  have e1 : (v0 * 4 + v1 / 16) % 4 * 16 = v1 / 16 * 16 := by omega
  rw [fromByte, b64Encode, hb, encodeGroup_eq (by omega) (by decide) (by decide)]
  simp only [getD_none, Nat.zero_div, Nat.add_zero, e0, e1, b64Char_of_b64Val h0]
  have hiff := b64Char_eq_iff (k := v1 / 16 * 16) (by omega) h1
  obtain ⟨c, hc, -, -⟩ := b64Char_spec (k := v1 / 16 * 16) (by omega)
  rw [hc] at hiff ⊢
  have hshape : [c0] ++ [c] ++ (if (none : Option Nat).isSome then b64Char (0 % 16 * 4) else ascii "=") ++
      (if (none : Option Nat).isSome then b64Char (0 % 64) else ascii "=") = [c0, c, 61, 61] := rfl
  rw [hshape]
  simp only [cons.injEq, and_true, true_and] at hiff ⊢
  rw [hiff]
  omega

theorem b64Encode_three (h2 : b64Val c2.toNat = some v2) :
    b64Encode (fromByte (v0 * 4 + v1 / 16) ++ fromByte (v1 % 16 * 16 + v2 / 4)) = [c0, c1, c2, 61] ↔
      v2 % 4 = 0 := by
  have hv0 := b64Val_lt h0
  have hv1 := b64Val_lt h1
  have hv2 := b64Val_lt h2
  obtain ⟨hb0, hb1, e0, e1⟩ := firstBytes hv0 hv1 hv2
  have e2 : (v1 % 16 * 16 + v2 / 4) % 16 * 4 = v2 / 4 * 4 := by omega
  rw [fromByte, fromByte, singleton_append, b64Encode, hb0, hb1,
    @encodeGroup_eq _ (some _) none (by omega) (by simp only [getD_some]; omega) (by decide)]
  simp only [getD_none, getD_some, Nat.zero_div, Nat.add_zero, e0, e1, e2,
    b64Char_of_b64Val h0, b64Char_of_b64Val h1]
  have hiff := b64Char_eq_iff (k := v2 / 4 * 4) (by omega) h2
  obtain ⟨c, hc, -, -⟩ := b64Char_spec (k := v2 / 4 * 4) (by omega)
  rw [hc] at hiff ⊢
  have hshape : [c0] ++ [c1] ++ (if (some (v1 % 16 * 16 + v2 / 4)).isSome then [c] else ascii "=") ++
      (if (none : Option Nat).isSome then b64Char (0 % 64) else ascii "=") = [c0, c1, c, 61] := rfl
  rw [hshape]
  simp only [cons.injEq, and_true, true_and] at hiff ⊢
  rw [hiff]
  omega

theorem b64Encode_four (h2 : b64Val c2.toNat = some v2) (h3 : b64Val c3.toNat = some v3) (more : Str) :
    b64Encode (fromByte (v0 * 4 + v1 / 16) ++ fromByte (v1 % 16 * 16 + v2 / 4) ++
      fromByte (v2 % 4 * 64 + v3) ++ more) = [c0, c1, c2, c3] ++ b64Encode more := by
  have hv0 := b64Val_lt h0
  have hv1 := b64Val_lt h1
  have hv2 := b64Val_lt h2
  have hv3 := b64Val_lt h3
  obtain ⟨hb0, hb1, e0, e1⟩ := firstBytes hv0 hv1 hv2
  have hb2 : (UInt8.ofNat (v2 % 4 * 64 + v3)).toNat = v2 % 4 * 64 + v3 :=
    byte_toNat (by omega)
  have e2 : (v1 % 16 * 16 + v2 / 4) % 16 * 4 + (v2 % 4 * 64 + v3) / 64 = v2 := by omega
  have e3 : (v2 % 4 * 64 + v3) % 64 = v3 := by omega
  simp only [fromByte, cons_append, nil_append, b64Encode, hb0, hb1, hb2]
  rw [@encodeGroup_eq _ (some _) (some _) (by omega) (by simp only [getD_some]; omega)
    (by simp only [getD_some]; omega)]
  simp only [getD_some, e0, e1, e2, e3, b64Char_of_b64Val h0, b64Char_of_b64Val h1,
    b64Char_of_b64Val h2, b64Char_of_b64Val h3]
  rfl

end Decoded

section Groups

variable {c0 c1 c2 c3 : UInt8} {g : Str}

/-- Encoding what the last group was decoded to. -/
theorem b64Encode_last (h : Group true c0.toNat c1.toNat c2.toNat c3.toNat g) :
    b64Encode g = [c0, c1, c2, c3] ↔ PadBitsZero [c0, c1, c2, c3] := by
  have hpad : ∀ {c : UInt8}, c.toNat = 61 → c = 61 := fun h => UInt8.toNat_inj.mp h
  have hbits : PadBitsZero [c0, c1, c2, c3] ↔ if c3.toNat = 61 then
      if c2.toNat = 61 then (b64Val c1.toNat).getD 0 % 16 = 0 else (b64Val c2.toNat).getD 0 % 4 = 0
      else True := Iff.rfl
  rw [hbits]
  generalize hn2 : c2.toNat = n2 at h
  generalize hn3 : c3.toNat = n3 at h
  cases h with
  | two hlast h0 h1 =>
    obtain rfl := hpad hn2
    obtain rfl := hpad hn3
    rw [b64Encode_two h0 h1, h1]
    rfl
  | three hlast h0 h1 h2 =>
    obtain rfl := hpad hn3
    have hne : n2 ≠ 61 := fun h => b64Val_ne_pad (h ▸ h2)
    rw [if_pos rfl, if_neg hne, h2, getD_some]
    exact b64Encode_three h0 h1 (hn2 ▸ h2)
  | four h0 h1 h2 h3 =>
    have hne : n3 ≠ 61 := fun h => b64Val_ne_pad (h ▸ h3)
    rw [if_neg hne]
    simpa [b64Encode] using b64Encode_four h0 h1 (hn2 ▸ h2) (hn3 ▸ h3) []

/-- A group that is not the last one is whole. -/
theorem b64Encode_inner (h : Group false c0.toNat c1.toNat c2.toNat c3.toNat g) (more : Str) :
    b64Encode (g ++ more) = [c0, c1, c2, c3] ++ b64Encode more := by
  generalize hn2 : c2.toNat = n2 at h
  generalize hn3 : c3.toNat = n3 at h
  cases h with
  | two hlast | three hlast => cases hlast
  | four h0 h1 h2 h3 => exact b64Encode_four h0 h1 (hn2 ▸ h2) (hn3 ▸ h3) more

end Groups

theorem length_of_decodeGroups {s x : Str} (h : decodeGroups s = some x) (hs : s ≠ []) : 3 ≤ s.length := by
  match s, h with
  | [], _ => exact absurd rfl hs
  | _ :: _ :: _ :: _ :: _, _ => simp
  | [_], h | [_, _], h | [_, _, _], h => cases h

theorem b64Encode_decodeGroups (s : Str) : ∀ {x : Str}, decodeGroups s = some x →
    (b64Encode x = s ↔ PadBitsZero s) := by
  induction s using decodeGroups.induct with
  | case1 =>
    rintro x ⟨⟩
    exact iff_of_true rfl (by decide)
  | case2 c0 c1 c2 c3 rest ih =>
    intro x h
    simp only [decodeGroups, bind_eq_bind, bind_eq_some_iff, some.injEq] at h
    obtain ⟨g, hg, more, hmore, rfl⟩ := h
    have hgroup := decodeGroup_cases hg
    by_cases hrest : rest = []
    · subst hrest
      obtain rfl : more = [] := (some.inj hmore).symm
      rw [append_nil]
      exact b64Encode_last hgroup
    · have hlong := length_of_decodeGroups hmore hrest
      rw [isEmpty_eq_false_iff.mpr hrest] at hgroup
      rw [b64Encode_inner hgroup]
      have happ : c0 :: c1 :: c2 :: c3 :: rest = [c0, c1, c2, c3] ++ rest := rfl
      rw [happ, padBitsZero_append hlong, append_cancel_left_eq, ih hmore]
  | case3 s h4 h0 =>
    intro x h
    rw [decodeGroups] at h
    · cases h
    · exact h4
    · exact h0

/-- **Base64.** What was encoded is decoded, and a text that is decoded is the encoding of its bytes
exactly if the bits of its last character that belong to no byte are zero. -/
theorem base64_inverse_iff (x s : Str) : b64Decode (b64Encode x) = some x ∧
    ∀ y, b64Decode s = some y → (b64Encode y = s ↔ PadBitsZero s) := by
  refine ⟨b64Decode_b64Encode x, fun y h => ?_⟩
  rw [b64Decode] at h
  split at h
  · cases h
  · exact b64Encode_decodeGroups s h

theorem base64_inverse_iff_foobar :
    b64Decode (ascii "Zm9vYg==") = some (ascii "foob") ∧
    b64Encode (ascii "foob") = ascii "Zm9vYg==" :=
  have h : b64Decode (ascii "Zm9vYg==") = some (ascii "foob") := by decide
  ⟨h, ((base64_inverse_iff (ascii "foob") _).2 _ h).mpr (by decide)⟩

/-- `Zh==` is accepted for the bytes `f`, whose encoding is `Zg==`. -/
theorem zh_decodes : b64Decode (ascii "Zh==") = some (ascii "f") ∧
    b64Encode (ascii "f") = ascii "Zg==" ∧ b64Encode (ascii "f") ≠ ascii "Zh==" := by
  decide

end Vyb.Stdlib
