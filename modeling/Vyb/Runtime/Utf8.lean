/-
  Subject:   `utf8_valid`, `utf8_len`, `utf8_index` and `utf8_at` (`runtime/vyb_runtime.c`, the module
             `stdlib/utf8`).

  A String reaches the runtime as a pointer and a length. What the pointer shows is `data : Option Str`,
  where `none` is the null pointer; that is how a `substring` out of bounds arrives.

  * `decodeAt_iff` -- what `vyb_utf8_decode_at` accepts at a place is the encoding of a scalar value, and
    it steps behind it;
  * `Agrees` -- the four functions say about a byte string what RFC 3629 says;
  * `agrees_some`, `not_agrees_none` -- they do, unless the pointer is null;
  * **`utf8_agrees_iff`** -- for every String of the language: unless it is a `substring` out of bounds;
  * `empty_substring_not_valid` -- the empty String, once valid and once not.
-/
import Vyb.Lib.Utf8
import Vyb.Runtime.StrHeap

namespace Vyb.Runtime

open Str List Option Nat
open Lib.Utf8

/-! ## 1. The code -/

namespace Utf8

/-- The loop over the continuation bytes, from position `i` on. -/
def decodeTail (s : Str) : Nat → Nat → Nat → Option Nat
  | 0, _, cp => some cp
  | need + 1, i, cp =>
    let cc := charAt s i
    if cc &&& 0xC0 ≠ 0x80 then none else decodeTail s need (i + 1) (cp <<< 6 ||| (cc &&& 0x3F))

/-- What the first byte of a longer sequence says: its own bits, and how many bytes follow. -/
def leadByte (c : Nat) : Option (Nat × Nat) :=
  if c &&& 0xE0 = 0xC0 then some (c &&& 0x1F, 1)
  else if c &&& 0xF0 = 0xE0 then some (c &&& 0x0F, 2)
  else if c &&& 0xF8 = 0xF0 then some (c &&& 0x07, 3)
  else none

/-- Overlong, out of range, or a surrogate. -/
def refused (need cp : Nat) : Bool :=
  (need == 1 && decide (cp < 0x80)) || (need == 2 && decide (cp < 0x800)) ||
    (need == 3 && decide (cp < 0x10000)) || decide (cp > 0x10FFFF) ||
    (decide (cp ≥ 0xD800) && decide (cp ≤ 0xDFFF))

/-- `vyb_utf8_decode_at`: the codepoint and the offset behind it; -1, with the offset where it was, is
`none`. -/
def decodeAt (data : Option Str) (off : Int) : Option (Nat × Int) :=
  match data with
  | none => none
  | some s =>
    if off < 0 ∨ s.length ≤ off then none
    else
      let c := charAt s off.toNat
      if c < 0x80 then some (c, off + 1)
      else
        (leadByte c).bind fun (cp, need) =>
          if s.length ≤ off + need then none
          else (decodeTail s need (off.toNat + 1) cp).bind fun cp =>
            if refused need cp then none else some (cp, off + need + 1)

/-- The number of bytes; behind a null pointer there are none. -/
def byteLen (data : Option Str) : Nat := (data.getD []).length

/-- The loop of `__vyb_utf8_len`. Every round of this loop and the next two goes at least one byte further,
so `fuel` for all bytes is enough. -/
def lenLoop (data : Option Str) : Nat → Int → Int → Int
  | 0, n, _ => n
  | fuel + 1, n, off =>
    if off < byteLen data then
      match decodeAt data off with
      | some (_, next) => lenLoop data fuel (n + 1) next
      | none => n
    else n

def indexLoop (data : Option Str) (cpIndex : Int) : Nat → Int → Int → Int
  | 0, _, _ => -1
  | fuel + 1, idx, off =>
    if off < byteLen data then
      match decodeAt data off with
      | some (_, next) => if idx = cpIndex then off else indexLoop data cpIndex fuel (idx + 1) next
      | none => -1
    else -1

def validLoop (data : Option Str) : Nat → Int → Int
  | 0, _ => 1
  | fuel + 1, off =>
    if off < byteLen data then
      match decodeAt data off with
      | some (_, next) => validLoop data fuel next
      | none => 0
    else 1

end Utf8

open Utf8

def utf8Len (data : Option Str) : Int := lenLoop data (byteLen data) 0 0

def utf8Index (data : Option Str) (cpIndex : Int) : Int :=
  if cpIndex < 0 then -1 else Utf8.indexLoop data cpIndex (byteLen data) 0 0

def utf8At (data : Option Str) (byteOff : Int) : Int :=
  if data.isNone ∨ byteOff < 0 ∨ byteLen data ≤ byteOff then -1
  else match decodeAt data byteOff with
    | some (cp, _) => cp
    | none => -1

def utf8Valid (data : Option Str) : Int :=
  if data.isNone then 0 else validLoop data (byteLen data) 0

/-! ## 2. Bytes as numbers -/

namespace Utf8

theorem cont_iff : ∀ b < 256, b &&& 0xC0 = 0x80 ↔ 0x80 ≤ b ∧ b < 0xC0 := by decide +kernel

theorem lead_two_iff : ∀ b < 256, b &&& 0xE0 = 0xC0 ↔ 0xC0 ≤ b ∧ b < 0xE0 := by decide +kernel

theorem lead_three_iff : ∀ b < 256, b &&& 0xF0 = 0xE0 ↔ 0xE0 ≤ b ∧ b < 0xF0 := by decide +kernel

theorem lead_four_iff : ∀ b < 256, b &&& 0xF8 = 0xF0 ↔ 0xF0 ≤ b ∧ b < 0xF8 := by decide +kernel

theorem shift_or (cp cc : Nat) : cp <<< 6 ||| (cc &&& 0x3F) = cp * 64 + cc % 64 := by
  have hlow : cc &&& 0x3F = cc % 64 := and_two_pow_sub_one_eq_mod cc 6
  have hlt : cc % 64 < 2 ^ 6 := mod_lt _ (by decide)
  rw [hlow, shiftLeft_eq, mul_comm, ← two_pow_add_eq_or_of_lt hlt, mul_comm]

variable {cp need i : Nat}

theorem decodeTail_succ {s : Str} :
    decodeTail s (need + 1) i cp =
      if 0x80 ≤ charAt s i ∧ charAt s i < 0xC0 then decodeTail s need (i + 1) (cp * 64 + charAt s i % 64)
      else none := by
  have h := cont_iff (charAt s i) (charAt_lt s i)
  rw [decodeTail, shift_or]
  by_cases hc : 0x80 ≤ charAt s i ∧ charAt s i < 0xC0
  · rw [if_neg (not_not.mpr (h.mpr hc)), if_pos hc]
  · rw [if_pos (fun he => hc (h.mp he)), if_neg hc]

theorem leadByte_eq {c : Nat} (hc : c < 256) : leadByte c =
    if 0xC0 ≤ c ∧ c < 0xE0 then some (c % 32, 1)
    else if 0xE0 ≤ c ∧ c < 0xF0 then some (c % 16, 2)
    else if 0xF0 ≤ c ∧ c < 0xF8 then some (c % 8, 3)
    else none := by
  have h5 : c &&& 0x1F = c % 32 := and_two_pow_sub_one_eq_mod c 5
  have h4 : c &&& 0x0F = c % 16 := and_two_pow_sub_one_eq_mod c 4
  have h3 : c &&& 0x07 = c % 8 := and_two_pow_sub_one_eq_mod c 3
  simp only [leadByte, lead_two_iff c hc, lead_three_iff c hc, lead_four_iff c hc, h5, h4, h3]

/-- The value is one that a sequence of this length may have. -/
theorem refused_eq_false_iff : refused need cp = false ↔
    (need = 1 → 0x80 ≤ cp) ∧ (need = 2 → 0x800 ≤ cp) ∧ (need = 3 → 0x10000 ≤ cp) ∧
      (cp < 0xD800 ∨ 0xDFFF < cp ∧ cp < 0x110000) := by
  simp only [refused, Bool.or_eq_false_iff, Bool.and_eq_false_iff, beq_eq_false_iff_ne, ne_eq,
    decide_eq_false_iff_not]
  omega

/-! ## 3. One codepoint -/

theorem charAt_append (pre t : Str) (i : Nat) : charAt (pre ++ t) (pre.length + i) = charAt t i := by
  rw [charAt, charAt, getD_eq_getElem?_getD, getD_eq_getElem?_getD,
    getElem?_append_right (Nat.le_add_right _ _), Nat.add_sub_cancel_left]

theorem decodeTail_append (pre t : Str) : ∀ need i cp : Nat,
    decodeTail (pre ++ t) need (pre.length + i) cp = decodeTail t need i cp
  | 0, _, _ => rfl
  | need + 1, i, cp => by
    simp only [decodeTail_succ, charAt_append]
    rw [add_assoc, decodeTail_append pre t need (i + 1)]

/-- What is accepted at the front of `t`: a byte below 0x80, or a first byte and its continuation bytes. -/
def Accepted (t : Str) (cp n : Nat) : Prop :=
  (0 < t.length ∧ charAt t 0 < 0x80 ∧ cp = charAt t 0 ∧ n = 1) ∨
    ∃ bits need, 0x80 ≤ charAt t 0 ∧ leadByte (charAt t 0) = some (bits, need) ∧ need < t.length ∧
      decodeTail t need 1 bits = some cp ∧ refused need cp = false ∧ n = need + 1

variable {t : Str}

theorem decodeAt_cases {pre : Str} {next : Int} :
    decodeAt (some (pre ++ t)) pre.length = some (cp, next) ↔
      ∃ n : Nat, next = pre.length + n ∧ Accepted t cp n := by
  have hchar := charAt_append pre t 0
  have htail := fun need cp => decodeTail_append pre t need 1 cp
  rw [add_zero] at hchar
  simp only [decodeAt, Int.toNat_natCast, hchar, htail, length_append]
  constructor
  · intro h
    split_ifs at h with hlen hc
    · cases h
      exact ⟨1, rfl, .inl ⟨by omega, hc, rfl, rfl⟩⟩
    · obtain ⟨⟨bits, need⟩, hlead, h⟩ := bind_eq_some_iff.mp h
      split_ifs at h with hneed
      obtain ⟨r, hr, h⟩ := bind_eq_some_iff.mp h
      split_ifs at h with href
      cases h
      exact ⟨need + 1, by omega, .inr ⟨bits, need, by omega, hlead, by omega, hr, by simpa using href, rfl⟩⟩
  · rintro ⟨n, rfl, ⟨hlen, hc, rfl, rfl⟩ | ⟨bits, need, hc, hlead, hneed, hr, href, rfl⟩⟩
    · rw [if_neg (by omega), if_pos hc]
      rfl
    · rw [if_neg (by omega), if_neg (by omega), hlead, bind_some, if_neg (by omega), hr,
        bind_some, href, if_neg (by simp)]
      rfl

theorem decodeTail_eq_some {s : Str} {r : Nat} : decodeTail s (need + 1) i cp = some r ↔
    (0x80 ≤ charAt s i ∧ charAt s i < 0xC0) ∧
      decodeTail s need (i + 1) (cp * 64 + charAt s i % 64) = some r := by
  rw [decodeTail_succ]
  by_cases h : 0x80 ≤ charAt s i ∧ charAt s i < 0xC0
  · rw [if_pos h]
    exact ⟨fun hr => ⟨h, hr⟩, fun hr => hr.2⟩
  · rw [if_neg h]
    exact iff_of_false (by simp) fun hr => h hr.1

/-- What is accepted is a row of the table, of a scalar value, -/
theorem row_of_accepted {n : Nat} (h : Accepted t cp n) :
    ∃ l t', t = l ++ t' ∧ Row l cp ∧ l.length = n ∧ (cp < 0xD800 ∨ 0xDFFF < cp ∧ cp < 0x110000) := by
  rcases h with ⟨hlen, hc, rfl, rfl⟩ | ⟨bits, need, hc, hlead, hneed, hr, href, rfl⟩
  · obtain ⟨b, t, rfl⟩ := exists_cons_of_length_pos hlen
    change b.toNat < 0x80 at hc
    exact ⟨[b], t, rfl, ⟨hc, rfl⟩, rfl, .inl (lt_trans hc (by decide))⟩
  · rw [leadByte_eq (charAt_lt t 0)] at hlead
    rw [refused_eq_false_iff] at href
    split_ifs at hlead with h2 h3 h4
    · cases hlead
      match t, hneed with
      | b :: x :: t, _ =>
        obtain ⟨hx, hcp⟩ := decodeTail_eq_some.mp hr
        exact ⟨[b, x], t, rfl, ⟨h2, hx, (some.inj hcp).symm, href.1 rfl⟩, rfl, href.2.2.2⟩
    · cases hlead
      match t, hneed with
      | b :: x :: y :: t, _ =>
        obtain ⟨hx, hr⟩ := decodeTail_eq_some.mp hr
        obtain ⟨hy, hcp⟩ := decodeTail_eq_some.mp hr
        exact ⟨[b, x, y], t, rfl, ⟨h3, hx, hy, (some.inj hcp).symm, href.2.1 rfl⟩, rfl, href.2.2.2⟩
    · cases hlead
      match t, hneed with
      | b :: x :: y :: z :: t, _ =>
        obtain ⟨hx, hr⟩ := decodeTail_eq_some.mp hr
        obtain ⟨hy, hr⟩ := decodeTail_eq_some.mp hr
        obtain ⟨hz, hcp⟩ := decodeTail_eq_some.mp hr
        exact ⟨[b, x, y, z], t, rfl, ⟨h4, hx, hy, hz, (some.inj hcp).symm, href.2.2.1 rfl⟩, rfl, href.2.2.2⟩

/-- and every such row is accepted. -/
theorem accepted_of_row (hcp : cp < 0xD800 ∨ 0xDFFF < cp ∧ cp < 0x110000) (t : Str) :
    ∀ {l : Str}, Row l cp → Accepted (l ++ t) cp l.length
  | [b], h => .inl ⟨succ_pos _, h.1, h.2, rfl⟩
  | [b, x], h => by
    obtain ⟨hb, hx, hv, hmin⟩ := h
    refine .inr ⟨b.toNat % 32, 1, le_trans (by decide) hb.1, ?_, by simp, ?_, ?_, rfl⟩
    · exact (leadByte_eq b.toNat_lt).trans (if_pos hb)
    · exact decodeTail_eq_some.mpr ⟨hx, congrArg some hv.symm⟩
    · rw [refused_eq_false_iff]
      omega
  | [b, x, y], h => by
    obtain ⟨hb, hx, hy, hv, hmin⟩ := h
    refine .inr ⟨b.toNat % 16, 2, le_trans (by decide) hb.1, ?_, by simp, ?_, ?_, rfl⟩
    · exact (leadByte_eq b.toNat_lt).trans ((if_neg (by omega)).trans (if_pos hb))
    · exact decodeTail_eq_some.mpr ⟨hx, decodeTail_eq_some.mpr ⟨hy, congrArg some hv.symm⟩⟩
    · rw [refused_eq_false_iff]
      omega
  | [b, x, y, z], h => by
    obtain ⟨hb, hx, hy, hz, hv, hmin⟩ := h
    refine .inr ⟨b.toNat % 8, 3, le_trans (by decide) hb.1, ?_, by simp, ?_, ?_, rfl⟩
    · exact (leadByte_eq b.toNat_lt).trans
        ((if_neg (by omega)).trans ((if_neg (by omega)).trans (if_pos hb)))
    · exact decodeTail_eq_some.mpr ⟨hx, decodeTail_eq_some.mpr ⟨hy,
        decodeTail_eq_some.mpr ⟨hz, congrArg some hv.symm⟩⟩⟩
    · rw [refused_eq_false_iff]
      omega
  | [], h | _ :: _ :: _ :: _ :: _ :: _, h => h.elim

/-- **One codepoint**: what is accepted at a place is the encoding of a scalar value that stands there. -/
theorem decodeAt_iff {pre : Str} {next : Int} :
    decodeAt (some (pre ++ t)) pre.length = some (cp, next) ↔
      ∃ (c : Char) (t' : Str), t = String.utf8EncodeChar c ++ t' ∧ cp = c.toNat ∧
        next = pre.length + (String.utf8EncodeChar c).length := by
  rw [decodeAt_cases]
  constructor
  · rintro ⟨n, rfl, h⟩
    obtain ⟨l, t', rfl, hrow, rfl, hcp⟩ := row_of_accepted h
    obtain ⟨c, rfl⟩ : ∃ c : Char, c.toNat = cp := ⟨Char.ofNatAux cp hcp, rfl⟩
    have henc := encodeChar_of_row hrow
    exact ⟨c, t', by rw [henc], rfl, by rw [henc]⟩
  · rintro ⟨c, t', rfl, rfl, rfl⟩
    exact ⟨_, rfl, accepted_of_row (scalar c) t' (row_encodeChar c)⟩

/-! ## 4. A whole String -/

/-- Before the encoding of `c` the loops take it and go on behind it. -/
theorem decodeAt_encode (pre : Str) (c : Char) (t : Str) :
    decodeAt (some (pre ++ (String.utf8EncodeChar c ++ t))) pre.length =
      some (c.toNat, ((pre ++ String.utf8EncodeChar c).length : Int)) :=
  decodeAt_iff.mpr ⟨c, t, rfl, rfl, by simp⟩

theorem byteLen_append (pre t : Str) : (byteLen (some (pre ++ t)) : Int) = pre.length + t.length := by
  simp [byteLen]

/-- The loop of `utf8_valid`, in front of what is left. -/
theorem validLoop_iff : ∀ {fuel : Nat} {pre t : Str}, t.length ≤ fuel →
    (validLoop (some (pre ++ t)) fuel pre.length = 1 ↔ ∃ cs, t = encode cs)
  | 0, pre, t, hfuel => by
    obtain rfl := eq_nil_of_length_eq_zero (le_zero.mp hfuel)
    exact iff_of_true rfl ⟨[], rfl⟩
  | fuel + 1, pre, t, hfuel => by
    rw [validLoop, byteLen_append]
    by_cases ht : t = []
    · subst ht
      rw [if_neg (by simp)]
      exact iff_of_true rfl ⟨[], rfl⟩
    · have hpos : 0 < t.length := length_pos_iff.mpr ht
      rw [if_pos (by omega)]
      cases hdec : decodeAt (some (pre ++ t)) pre.length with
      | none =>
        refine iff_of_false (by simp) ?_
        rintro ⟨cs, rfl⟩
        -- an encoding that is not empty begins with one that is accepted
        cases cs with
        | nil => exact ht rfl
        | cons c cs =>
          rw [encode_cons, decodeAt_encode] at hdec
          cases hdec
      | some r =>
        obtain ⟨c, t', rfl, -, hnext⟩ := decodeAt_iff.mp hdec
        have hpos := encodeChar_length_pos c
        have ih := @validLoop_iff fuel (pre ++ String.utf8EncodeChar c) t'
          (by rw [length_append] at hfuel; omega)
        rw [append_assoc, length_append, cast_add, ← hnext] at ih
        refine ih.trans ⟨?_, ?_⟩
        · rintro ⟨cs, rfl⟩
          exact ⟨c :: cs, rfl⟩
        · rintro ⟨cs, hcs⟩
          cases cs with
          | nil => exact absurd hcs ht
          | cons d cs =>
            exact ⟨cs, (encodeChar_append_inj hcs).2⟩

theorem lenLoop_encode : ∀ {fuel : Nat} {pre : Str} {n : Int} (cs : List Char), cs.length ≤ fuel →
    lenLoop (some (pre ++ encode cs)) fuel n pre.length = n + cs.length
  | 0, pre, n, cs, hfuel => by
    obtain rfl := eq_nil_of_length_eq_zero (le_zero.mp hfuel)
    simp [lenLoop]
  | fuel + 1, pre, n, [], _ => by
    rw [lenLoop, byteLen_append, if_neg (by simp [encode])]
    simp
  | fuel + 1, pre, n, c :: cs, hfuel => by
    have hpos := encodeChar_length_pos c
    have ih := @lenLoop_encode fuel (pre ++ String.utf8EncodeChar c) (n + 1) cs (by simpa using hfuel)
    rw [append_assoc] at ih
    rw [lenLoop, byteLen_append, encode_cons, decodeAt_encode, if_pos (by rw [length_append]; omega)]
    simp only [ih, length_cons]
    omega

/-- The loop of `utf8_index`, with `idx` codepoints passed: the place of the one it looks for. -/
theorem indexLoop_encode {k : Nat} : ∀ {fuel : Nat} {pre : Str} {idx : Nat} (cs : List Char),
    cs.length ≤ fuel → idx ≤ k →
    Utf8.indexLoop (some (pre ++ encode cs)) k fuel idx pre.length =
      if k < idx + cs.length then ((pre ++ encode (cs.take (k - idx))).length : Int) else -1
  | 0, pre, idx, cs, hfuel, hk => by
    obtain rfl := eq_nil_of_length_eq_zero (le_zero.mp hfuel)
    rw [if_neg (by simpa using hk)]
    rfl
  | fuel + 1, pre, idx, [], _, hk => by
    rw [Utf8.indexLoop, byteLen_append, if_neg (by simp [encode]), if_neg (by simpa using hk)]
  | fuel + 1, pre, idx, c :: cs, hfuel, hk => by
    have hpos := encodeChar_length_pos c
    rw [Utf8.indexLoop, byteLen_append, encode_cons, decodeAt_encode,
      if_pos (by rw [length_append]; omega)]
    rcases eq_or_lt_of_le hk with rfl | hlt
    · simp [encode]
    · have ih := @indexLoop_encode k fuel (pre ++ String.utf8EncodeChar c) (idx + 1) cs
        (by simpa using hfuel) hlt
      rw [append_assoc] at ih
      have hsub : k - idx = k - (idx + 1) + 1 := by omega
      have hne : ¬ (idx : Int) = k := by omega
      simp only [if_neg hne]
      rw [cast_succ] at ih
      have hadd : idx + 1 + cs.length = idx + (cs.length + 1) := by omega
      rw [ih, hsub, hadd, take_succ_cons, encode_cons, append_assoc, length_cons]

/-- **What RFC 3629 says about `s`, and the four functions about `data`.** -/
structure Agrees (data : Option Str) (s : Str) : Prop where
  valid : utf8Valid data = 1 ↔ ∃ cs, s = encode cs
  length : ∀ cs, s = encode cs → utf8Len data = cs.length
  index : ∀ cs, s = encode cs → ∀ i < cs.length, utf8Index data i = (encode (cs.take i)).length
  beyond : ∀ cs, s = encode cs → ∀ i : Int, cs.length ≤ i → utf8Index data i = -1
  codepoint : ∀ cs, s = encode cs → ∀ i (hi : i < cs.length), utf8At data (utf8Index data i) = cs[i].toNat

theorem utf8Index_encode (cs : List Char) (k : Nat) : utf8Index (some (encode cs)) k =
    if k < cs.length then ((encode (cs.take k)).length : Int) else -1 := by
  have h := @indexLoop_encode k (encode cs).length [] 0 cs (length_le_encode cs) (zero_le k)
  rw [utf8Index, if_neg (by omega)]
  simpa [byteLen] using h

theorem utf8At_encode {cs : List Char} (hi : i < cs.length) :
    utf8At (some (encode cs)) (encode (cs.take i)).length = cs[i].toNat := by
  have hsplit : cs = cs.take i ++ cs[i] :: cs.drop (i + 1) := by simp
  have hcs : encode cs =
      encode (cs.take i) ++ (String.utf8EncodeChar cs[i] ++ encode (cs.drop (i + 1))) := by
    rw [← encode_cons, ← encode_append, ← hsplit]
  have hpos := encodeChar_length_pos cs[i]
  have hlt : (encode (cs.take i)).length < (encode cs).length := by
    rw [hcs]
    simp only [length_append]
    omega
  have hin : ¬ ((some (encode cs)).isNone ∨ ((encode (cs.take i)).length : Int) < 0 ∨
      (byteLen (some (encode cs)) : Int) ≤ (encode (cs.take i)).length) := by
    simp only [isNone_some, Bool.false_eq_true, false_or, byteLen, getD_some]
    omega
  rw [utf8At, if_neg hin]
  nth_rewrite 1 [hcs]
  rw [decodeAt_encode]

/-- Where there are bytes, or at least a pointer to where they would be. -/
theorem agrees_some (s : Str) : Agrees (some s) s where
  valid := @validLoop_iff s.length [] s (le_refl _)
  length cs h := by
    subst h
    have := @lenLoop_encode (encode cs).length [] 0 cs (length_le_encode cs)
    simpa [utf8Len, byteLen] using this
  index cs h i hi := by
    subst h
    rw [utf8Index_encode, if_pos hi]
  beyond cs h i hi := by
    subst h
    obtain ⟨k, rfl⟩ := Int.eq_ofNat_of_zero_le (Int.le_trans (Int.natCast_nonneg _) hi)
    exact (utf8Index_encode cs k).trans (if_neg (by omega))
  codepoint cs h i hi := by
    subst h
    rw [utf8Index_encode, if_pos hi, utf8At_encode hi]

/-- A null pointer is not valid, although no byte is wrong. -/
theorem not_agrees_none : ¬ Agrees none [] := fun h => absurd (h.valid.mpr ⟨[], rfl⟩) (by decide)

end Utf8

/-- What the pointer of a String shows. -/
def Heap.data (h : Heap) (v : FileStr) : Option Str := if v.ptr = 0 then none else h.load v

/-- **UTF-8.** For every String of the language, the four functions say about its bytes what RFC 3629 says,
exactly if it is not a `substring` out of bounds. -/
theorem utf8_agrees_iff (e : StrExpr) (h : Heap) :
    (∃ h' v, e.eval h = some (h', v) ∧ Agrees (h'.data v) e.value) ↔ ¬ e.OutOfBounds := by
  obtain ⟨h₁, v₁, heval, H⟩ := e.eval_spec h
  have hdata : v₁.ptr ≠ 0 → h₁.data v₁ = some e.value := fun hptr => by
    rw [Heap.data, if_neg hptr, H.holds.load]
  constructor
  · rintro ⟨h', v, heval', hagrees⟩ hout
    obtain ⟨rfl, rfl⟩ := Prod.mk.inj (some.inj (heval.symm.trans heval'))
    have hptr := H.null.mpr hout
    rw [Heap.data, if_pos hptr, H.holds.null hptr] at hagrees
    exact not_agrees_none hagrees
  · intro hin
    refine ⟨h₁, v₁, heval, ?_⟩
    rw [hdata (fun hptr => hin (H.null.mp hptr))]
    exact agrees_some e.value

/-- The empty String: as a literal it is valid, as `"abc".substring(2, 9)` it is not. -/
theorem empty_substring_not_valid :
    (∃ h v, (StrExpr.literal []).eval [] = some (h, v) ∧ utf8Valid (h.data v) = 1) ∧
    (StrExpr.substring (.literal (ascii "abc")) 2 9).value = encode [] ∧
    ∃ h v, (StrExpr.substring (.literal (ascii "abc")) 2 9).eval [] = some (h, v) ∧
      utf8Valid (h.data v) = 0 :=
  ⟨⟨_, _, rfl, by decide⟩, by decide, _, _, rfl, by decide⟩

end Vyb.Runtime
