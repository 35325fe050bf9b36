/-
  Subject:   Cyclic redundancy checks: the shift register, and the remainder that it computes.

  A register of `n` bits holds a polynomial over the field of two elements; its lowest bit is the coefficient
  of the highest power, as in checksums that take the bits of a byte from the lowest on. The generator is
  `X ^ n` and what the number `poly` stands for.

  * `crcShift poly`, `crcBit poly` -- the register moves by one place, with a bit of the message coming in;
  * `crcShift_iterate` -- several bits at once: they may be added first, and shifted out afterwards;
  * `IsCrc n poly bits c` -- the checksum by division: register full of ones at the start, remainder modulo
    the generator, complement of that;
  * **`isCrc_run`** -- the register computes it.
-/
import Mathlib.Data.Nat.Bitwise
import Mathlib.Tactic

namespace Vyb.Lib

open Polynomial List Finset

/-! ## 1. The register -/

/-- A 1 that falls out brings in `poly`. -/
def crcShift (poly r : Nat) : Nat := if r.testBit 0 then r / 2 ^^^ poly else r / 2

/-- One bit of the message. -/
def crcBit (poly r : Nat) (m : Bool) : Nat := crcShift poly (r ^^^ m.toNat)

theorem testBit_two_mul_succ (b i : Nat) : (2 * b).testBit (i + 1) = b.testBit i := by
  rw [Nat.testBit_succ, Nat.mul_div_cancel_left b Nat.two_pos]

theorem crcShift_xor_two_mul (poly a b : Nat) : crcShift poly (a ^^^ 2 * b) = crcShift poly a ^^^ b := by
  have hbit : (a ^^^ 2 * b).testBit 0 = a.testBit 0 := by simp
  have hdiv : (a ^^^ 2 * b) / 2 = a / 2 ^^^ b := by
    refine Nat.eq_of_testBit_eq fun i => ?_
    rw [Nat.testBit_div_two, Nat.testBit_xor, Nat.testBit_xor, Nat.testBit_div_two, testBit_two_mul_succ]
  rw [crcShift, crcShift, hbit, hdiv]
  split
  · rw [Nat.xor_assoc, Nat.xor_comm b, ← Nat.xor_assoc]
  · rfl

/-- **Bits that are added together are shifted out one by one.** -/
theorem crcShift_iterate (poly r c : Nat) : ∀ k, (crcShift poly)^[k] (r ^^^ c) =
    ((List.range k).map fun i => c.testBit i).foldl (crcBit poly) r ^^^ c >>> k
  | 0 => rfl
  | k + 1 => by
    have hsplit : c >>> k = (c.testBit k).toNat ^^^ 2 * c >>> (k + 1) := by
      refine Nat.eq_of_testBit_eq fun i => ?_
      rw [Nat.testBit_xor, Nat.testBit_shiftRight]
      cases i with
      | zero => cases c.testBit k <;> simp
      | succ i =>
        rw [testBit_two_mul_succ, Nat.testBit_shiftRight, show k + (i + 1) = k + 1 + i by omega]
        cases c.testBit k <;> simp [Nat.testBit_succ]
    rw [Function.iterate_succ_apply', crcShift_iterate poly r c k, hsplit, ← Nat.xor_assoc,
      crcShift_xor_two_mul, range_succ, map_append, foldl_append]
    rfl

variable {n r poly : Nat}

theorem crcShift_lt (hpoly : poly < 2 ^ n) (hr : r < 2 ^ n) : crcShift poly r < 2 ^ n := by
  have hdiv : r / 2 < 2 ^ n := lt_of_le_of_lt (Nat.div_le_self r 2) hr
  rw [crcShift]
  split
  · exact Nat.xor_lt_two_pow hdiv hpoly
  · exact hdiv

theorem xor_toNat_lt (hn : 0 < n) (hr : r < 2 ^ n) (m : Bool) : r ^^^ m.toNat < 2 ^ n :=
  Nat.xor_lt_two_pow hr (lt_of_lt_of_le (Bool.toNat_lt m) (Nat.le_self_pow (by omega) 2))

theorem crcRun_lt (hn : 0 < n) (hpoly : poly < 2 ^ n) (bits : List Bool) (hr : r < 2 ^ n) :
    bits.foldl (crcBit poly) r < 2 ^ n := by
  induction bits generalizing r with
  | nil => exact hr
  | cons m bits ih => exact ih (crcShift_lt hpoly (xor_toNat_lt hn hr m))

/-! ## 2. Polynomials -/

/-- What a register stands for. -/
noncomputable def wordPoly (n r : Nat) : (ZMod 2)[X] :=
  ∑ i ∈ Finset.range n, if r.testBit i then X ^ (n - 1 - i) else 0

/-- The message, its first bit with the highest power. -/
noncomputable def messagePoly (bits : List Bool) : (ZMod 2)[X] :=
  bits.foldl (fun M m => X * M + if m then 1 else 0) 0

noncomputable def generator (n poly : Nat) : (ZMod 2)[X] := X ^ n + wordPoly n poly

/-- The checksum `c` of a message. -/
structure IsCrc (n poly : Nat) (bits : List Bool) (c : Nat) : Prop where
  lt : c < 2 ^ n
  dvd : generator n poly ∣ wordPoly n (c ^^^ (2 ^ n - 1)) +
    (X ^ bits.length * wordPoly n (2 ^ n - 1) + X ^ n * messagePoly bits)

theorem wordPoly_xor (n a b : Nat) : wordPoly n (a ^^^ b) = wordPoly n a + wordPoly n b := by
  rw [wordPoly, wordPoly, wordPoly, ← sum_add_distrib]
  refine sum_congr rfl fun i _ => ?_
  rw [Nat.testBit_xor]
  cases a.testBit i <;> cases b.testBit i <;> simp [CharTwo.add_self_eq_zero]

/-- Multiplication by `X` moves the register; the lowest bit becomes `X ^ n`. -/
theorem X_mul_wordPoly (hr : r < 2 ^ n) :
    X * wordPoly n r = (if r.testBit 0 then X ^ n else 0) + wordPoly n (r / 2) := by
  cases n with
  | zero =>
    have h0 : r = 0 := by simpa using hr
    simp [wordPoly, h0]
  | succ k =>
    have htop : (r / 2).testBit k = false := by
      rw [Nat.testBit_div_two]
      exact Nat.testBit_lt_two_pow hr
    rw [wordPoly, wordPoly, Finset.sum_range_succ', Finset.sum_range_succ, htop, mul_add, Finset.mul_sum]
    simp only [Bool.false_eq_true, if_false, add_zero]
    rw [add_comm]
    congr 1
    · split
      · rw [Nat.add_sub_cancel, Nat.sub_zero, pow_succ']
      · exact mul_zero _
    · refine sum_congr rfl fun i hi => ?_
      have hi' : i < k := Finset.mem_range.mp hi
      rw [Nat.testBit_div_two, Nat.add_sub_cancel, show k - i = (k - (i + 1)) + 1 by omega]
      split
      · rw [pow_succ']
      · exact mul_zero _

theorem wordPoly_toNat (hn : 0 < n) (m : Bool) : wordPoly n m.toNat = if m then X ^ (n - 1) else 0 := by
  obtain ⟨k, rfl⟩ : ∃ k, n = k + 1 := ⟨n - 1, by omega⟩
  rw [wordPoly, Finset.sum_range_succ']
  cases m <;> simp [Nat.testBit_succ]

/-- A shift is a multiplication by `X`, up to a multiple of the generator. -/
theorem wordPoly_crcShift (hr : r < 2 ^ n) :
    wordPoly n (crcShift poly r) =
      X * wordPoly n r + if r.testBit 0 then generator n poly else 0 := by
  rw [X_mul_wordPoly hr, crcShift]
  split
  · rw [wordPoly_xor, generator]
    have hself : (X ^ n + X ^ n : (ZMod 2)[X]) = 0 := CharTwo.add_self_eq_zero _
    linear_combination -hself
  · rw [zero_add, add_zero]

/-- **One bit of the message.** -/
theorem dvd_crcBit {n poly r : Nat} (hn : 0 < n) (hr : r < 2 ^ n) (m : Bool) :
    generator n poly ∣ wordPoly n (crcBit poly r m) +
      (X * wordPoly n r + X ^ n * if m then 1 else 0) := by
  have hm : (X * wordPoly n m.toNat : (ZMod 2)[X]) = X ^ n * if m then 1 else 0 := by
    rw [wordPoly_toNat hn]
    cases m
    · simp
    · rw [if_pos rfl, if_pos rfl, mul_one, ← pow_succ', Nat.sub_add_cancel hn]
  rw [crcBit, wordPoly_crcShift (xor_toNat_lt hn hr m), wordPoly_xor, mul_add, hm]
  have hself : (X * wordPoly n r + X ^ n * if m then 1 else 0 : (ZMod 2)[X]) +
      (X * wordPoly n r + X ^ n * if m then 1 else 0) = 0 := CharTwo.add_self_eq_zero _
  by_cases hb : (r ^^^ m.toNat).testBit 0 = true
  · rw [if_pos hb]
    exact ⟨1, by linear_combination hself⟩
  · rw [if_neg hb]
    exact ⟨0, by linear_combination hself⟩

/-- **A whole message**, from any register. -/
theorem dvd_crcRun (hn : 0 < n) (hpoly : poly < 2 ^ n) (bits : List Bool) (hr : r < 2 ^ n) :
    generator n poly ∣ wordPoly n (bits.foldl (crcBit poly) r) +
      (X ^ bits.length * wordPoly n r + X ^ n * messagePoly bits) := by
  -- the last bit is taken off: the register and the message both move by one place
  induction bits using List.reverseRecOn with
  | nil => exact ⟨0, by simp [messagePoly, CharTwo.add_self_eq_zero]⟩
  | append_singleton bits m ih =>
    have hrun := crcRun_lt hn hpoly bits hr
    obtain ⟨q, hq⟩ := ih
    obtain ⟨q', hq'⟩ := @dvd_crcBit n poly _ hn hrun m
    have hself : (X * wordPoly n (bits.foldl (crcBit poly) r) : (ZMod 2)[X]) +
        X * wordPoly n (bits.foldl (crcBit poly) r) = 0 := CharTwo.add_self_eq_zero _
    have hmsg : messagePoly (bits ++ [m]) = X * messagePoly bits + if m then 1 else 0 := by
      rw [messagePoly, foldl_append]
      rfl
    refine ⟨q' + X * q, ?_⟩
    rw [foldl_append, hmsg, length_append, length_singleton, pow_succ]
    show wordPoly n (crcBit poly (bits.foldl (crcBit poly) r) m) + _ = _
    linear_combination hq' + X * hq - hself

/-- **The register computes the checksum.** -/
theorem isCrc_run {n poly : Nat} (hn : 0 < n) (hpoly : poly < 2 ^ n) (bits : List Bool) :
    IsCrc n poly bits (bits.foldl (crcBit poly) (2 ^ n - 1) ^^^ (2 ^ n - 1)) := by
  have hones : 2 ^ n - 1 < 2 ^ n := Nat.sub_lt (Nat.two_pow_pos n) Nat.one_pos
  refine ⟨Nat.xor_lt_two_pow (crcRun_lt hn hpoly bits hones) hones, ?_⟩
  rw [Nat.xor_assoc, Nat.xor_self, Nat.xor_zero]
  exact dvd_crcRun hn hpoly bits hones

end Vyb.Lib
