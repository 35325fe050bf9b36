/-
  Subject:   UTF-8 as RFC 3629 has it, over lists of bytes.

  A Unicode scalar value is a `Char`, and its encoding is `String.utf8EncodeChar` of the Lean core.

  * `Row l v` -- the four rows of the table of RFC 3629, read from the bytes to the value;
  * `row_encodeChar`, `encodeChar_of_row` -- an encoding is such a row, and the row of a scalar value is its
    encoding;
  * `encode` -- a sequence of scalar values; `encodeChar_append_inj` -- no encoding begins another one.
-/
import Mathlib.Tactic

namespace Vyb.Lib.Utf8

/-! ## 1. The table -/

variable (c : Char)

theorem scalar : c.toNat < 0xD800 ∨ 0xDFFF < c.toNat ∧ c.toNat < 0x110000 := c.valid

theorem ofNat_eq {n : Nat} {b : UInt8} (h : n = b.toNat) : UInt8.ofNat n = b := by
  rw [h, UInt8.ofNat_toNat]

theorem toNat_ofNat {n : Nat} (h : n < 256) : (UInt8.ofNat n).toNat = n := UInt8.toNat_ofNat_of_lt' h

def Continuation (b : UInt8) : Prop := 0x80 ≤ b.toNat ∧ b.toNat < 0xC0

/-- The bytes that stand for the value `v`, read as numbers: the four rows of the table of RFC 3629. -/
def Row : List UInt8 → Nat → Prop
  | [b], v => b.toNat < 0x80 ∧ v = b.toNat
  | [b, x], v => (0xC0 ≤ b.toNat ∧ b.toNat < 0xE0) ∧ Continuation x ∧
      v = b.toNat % 32 * 64 + x.toNat % 64 ∧ 0x80 ≤ v
  | [b, x, y], v => (0xE0 ≤ b.toNat ∧ b.toNat < 0xF0) ∧ Continuation x ∧ Continuation y ∧
      v = (b.toNat % 16 * 64 + x.toNat % 64) * 64 + y.toNat % 64 ∧ 0x800 ≤ v
  | [b, x, y, z], v => (0xF0 ≤ b.toNat ∧ b.toNat < 0xF8) ∧ Continuation x ∧ Continuation y ∧
      Continuation z ∧
      v = ((b.toNat % 8 * 64 + x.toNat % 64) * 64 + y.toNat % 64) * 64 + z.toNat % 64 ∧ 0x10000 ≤ v
  | _, _ => False

theorem encodeChar_eq : String.utf8EncodeChar c =
    if c.toNat ≤ 0x7f then [UInt8.ofNat c.toNat]
    else if c.toNat ≤ 0x7ff then
      [UInt8.ofNat (c.toNat / 64 % 0x20 + 0xc0), UInt8.ofNat (c.toNat % 0x40 + 0x80)]
    else if c.toNat ≤ 0xffff then
      [UInt8.ofNat (c.toNat / 4096 % 0x10 + 0xe0), UInt8.ofNat (c.toNat / 64 % 0x40 + 0x80),
        UInt8.ofNat (c.toNat % 0x40 + 0x80)]
    else
      [UInt8.ofNat (c.toNat / 262144 % 0x08 + 0xf0), UInt8.ofNat (c.toNat / 4096 % 0x40 + 0x80),
        UInt8.ofNat (c.toNat / 64 % 0x40 + 0x80), UInt8.ofNat (c.toNat % 0x40 + 0x80)] := rfl

/-- An encoding is a row of the table. -/
theorem row_encodeChar : Row (String.utf8EncodeChar c) c.toNat := by
  have hc := scalar c
  rw [encodeChar_eq]
  split_ifs
  · simp only [Row]
    rw [toNat_ofNat (by omega)]
    omega
  · simp only [Row, Continuation]
    rw [toNat_ofNat (by omega), toNat_ofNat (by omega)]
    omega
  · simp only [Row, Continuation]
    rw [toNat_ofNat (by omega), toNat_ofNat (by omega), toNat_ofNat (by omega)]
    omega
  · simp only [Row, Continuation]
    rw [toNat_ofNat (by omega), toNat_ofNat (by omega), toNat_ofNat (by omega), toNat_ofNat (by omega)]
    omega

/-- And a row of the table for a scalar value is its encoding. -/
theorem encodeChar_of_row {c : Char} : ∀ {l : List UInt8}, Row l c.toNat → String.utf8EncodeChar c = l
  | [b], h => by
    obtain ⟨hb, hv⟩ := h
    rw [encodeChar_eq, if_pos (by omega), hv, UInt8.ofNat_toNat]
  | [b, x], h => by
    obtain ⟨hb, hx, hv, hmin⟩ := h
    rw [Continuation] at hx
    rw [encodeChar_eq, if_neg (by omega), if_pos (by omega)]
    simp only [List.cons.injEq, and_true]
    exact ⟨ofNat_eq (by omega), ofNat_eq (by omega)⟩
  | [b, x, y], h => by
    obtain ⟨hb, hx, hy, hv, hmin⟩ := h
    rw [Continuation] at hx hy
    rw [encodeChar_eq, if_neg (by omega), if_neg (by omega), if_pos (by omega)]
    simp only [List.cons.injEq, and_true]
    exact ⟨ofNat_eq (by omega), ofNat_eq (by omega), ofNat_eq (by omega)⟩
  | [b, x, y, z], h => by
    obtain ⟨hb, hx, hy, hz, hv, hmin⟩ := h
    rw [Continuation] at hx hy hz
    rw [encodeChar_eq, if_neg (by omega), if_neg (by omega), if_neg (by omega)]
    simp only [List.cons.injEq, and_true]
    exact ⟨ofNat_eq (by omega), ofNat_eq (by omega), ofNat_eq (by omega), ofNat_eq (by omega)⟩
  | [], h | _ :: _ :: _ :: _ :: _ :: _, h => h.elim

/-! ## 2. Sequences -/

/-- The bytes of a sequence of scalar values. -/
def encode (cs : List Char) : List UInt8 := cs.flatMap String.utf8EncodeChar

theorem encode_cons (cs : List Char) :
    encode (c :: cs) = String.utf8EncodeChar c ++ encode cs := rfl

theorem encode_append (cs ds : List Char) : encode (cs ++ ds) = encode cs ++ encode ds := by
  simp [encode]

theorem encodeChar_length_pos : 0 < (String.utf8EncodeChar c).length := by
  rw [String.length_utf8EncodeChar]
  exact c.utf8Size_pos

theorem length_le_encode (cs : List Char) : cs.length ≤ (encode cs).length := by
  induction cs with
  | nil => simp
  | cons c cs ih =>
    have := encodeChar_length_pos c
    rw [encode_cons, List.length_append, List.length_cons]
    omega

theorem encodeChar_append_inj {c d : Char} {t t' : List UInt8}
    (h : String.utf8EncodeChar c ++ t = String.utf8EncodeChar d ++ t') : c = d ∧ t = t' := by
  have hc := ByteArray.utf8DecodeChar?_utf8EncodeChar_append (b := t.toByteArray) (c := c)
  have hd := ByteArray.utf8DecodeChar?_utf8EncodeChar_append (b := t'.toByteArray) (c := d)
  rw [← List.toByteArray_append] at hc hd
  rw [h, hd] at hc
  cases hc
  exact ⟨rfl, List.append_cancel_left h⟩

end Vyb.Lib.Utf8
