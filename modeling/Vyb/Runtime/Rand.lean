/-
  Subject:   The random numbers of the runtime (`vyb_rand_next`, `__vyb_rand`, `__vyb_rand_range`,
             `__vyb_rand_seed`).

  The clock seeds a generator whose state is 0.

  **`seeded_reproducible`** -- the state of a seeded generator never is 0, so its numbers depend on the seed and the
  calls only; a range gives numbers from it.
-/
import Mathlib.Tactic

namespace Vyb.Runtime.Rand

def xorshift (x : UInt64) : UInt64 :=
  let x := x ^^^ x >>> 12
  let x := x ^^^ x <<< 25
  x ^^^ x >>> 27

/-- The number and the next state. -/
def randNext (clock state : UInt64) : UInt64 × UInt64 :=
  let state := if state = 0 then (if clock = 0 then 0x9E3779B97F4A7C15 else clock) else state
  (xorshift state * 0x2545F4914F6CDD1D, xorshift state)

def rand (clock state : UInt64) : Int64 × UInt64 :=
  let r := randNext clock state
  ((r.1 &&& 0x7FFFFFFFFFFFFFFF).toInt64, r.2)

def randRange (lo hi : Int64) (clock state : UInt64) : Int64 × UInt64 :=
  if hi ≤ lo then (lo, state)
  else
    let r := randNext clock state
    (lo + (r.1 % (hi - lo).toUInt64).toInt64, r.2)

def randSeed (seed : Int64) : UInt64 := (seed.toUInt64 ^^^ 0x9E3779B97F4A7C15) ||| 1

inductive Call where
  | rand
  | range (lo hi : Int64)

def Call.run : Call → UInt64 → UInt64 → Int64 × UInt64
  | .rand => Rand.rand
  | .range lo hi => randRange lo hi

/-- What is promised of a result. -/
def Call.InRange : Call → Int64 → Prop
  | .rand, _ => True
  | .range lo hi, x => lo < hi → lo ≤ x ∧ x < hi

/-- The results of calls, and `clock n` when the `n`th of them is made. -/
def results : List Call → (Nat → UInt64) → UInt64 → List Int64
  | [], _, _ => []
  | c :: calls, clock, state =>
    (c.run (clock 0) state).1 :: results calls (fun n => clock (n + 1)) (c.run (clock 0) state).2

/-! ## 1. The state -/

theorem xor_shiftRight_ne {x k : UInt64} (hk : 0 < k.toNat % 64) (hx : x ≠ 0) : x ^^^ x >>> k ≠ 0 := by
  intro h
  have heq := congrArg UInt64.toNat (UInt64.xor_eq_zero_iff.mp h)
  rw [UInt64.toNat_shiftRight, Nat.shiftRight_eq_div_pow] at heq
  have hpos : 0 < x.toNat := Nat.pos_of_ne_zero fun h0 => hx (UInt64.toNat_inj.mp h0)
  exact absurd heq (Nat.div_lt_self hpos (Nat.one_lt_two_pow (by omega))).ne'

theorem xor_shiftLeft_ne {x : UInt64} (hx : x ≠ 0) : x ^^^ x <<< 25 ≠ 0 := by
  intro h
  have heq := congrArg UInt64.toNat (UInt64.xor_eq_zero_iff.mp h)
  rw [UInt64.toNat_shiftLeft, Nat.shiftLeft_eq] at heq
  have hlt := x.toNat_lt
  have hdvd : 2 ^ 64 ∣ x.toNat * (2 ^ 25 - 1) := by
    rw [Nat.mul_sub_one]
    exact (Nat.modEq_iff_dvd' (Nat.le_mul_of_pos_right _ (by decide))).mp ((Nat.mod_eq_of_lt hlt).trans heq)
  have hcop : Nat.Coprime (2 ^ 64) (2 ^ 25 - 1) := by decide
  have hzero := Nat.eq_zero_of_dvd_of_lt (hcop.dvd_of_dvd_mul_right hdvd) hlt
  exact hx (UInt64.toNat_inj.mp hzero)

theorem xorshift_ne {x : UInt64} (hx : x ≠ 0) : xorshift x ≠ 0 :=
  xor_shiftRight_ne (by decide) (xor_shiftLeft_ne (xor_shiftRight_ne (by decide) hx))

theorem randSeed_ne (seed : Int64) : randSeed seed ≠ 0 := fun h =>
  absurd (UInt64.or_eq_zero_iff.mp h).2 (by decide)

/-- From a state that is not 0, the clock is not read. -/
theorem randNext_eq (clock : UInt64) {state : UInt64} (h : state ≠ 0) :
    randNext clock state = (xorshift state * 0x2545F4914F6CDD1D, xorshift state) := by
  simp only [randNext, if_neg h]

theorem run_steady (c : Call) (clock clock' : UInt64) {state : UInt64} (h : state ≠ 0) :
    c.run clock state = c.run clock' state ∧ (c.run clock state).2 ≠ 0 := by
  cases c with
  | rand => simpa [Call.run, rand, randNext_eq _ h] using xorshift_ne h
  | range lo hi =>
    simp only [Call.run, randRange, randNext_eq _ h]
    split
    · exact ⟨trivial, h⟩
    · exact ⟨trivial, xorshift_ne h⟩

theorem results_steady (clock clock' : Nat → UInt64) {state : UInt64} (h : state ≠ 0) (calls : List Call) :
    results calls clock state = results calls clock' state := by
  induction calls generalizing clock clock' state with
  | nil => rfl
  | cons c calls ih =>
    obtain ⟨heq, hne⟩ := run_steady c (clock 0) (clock' 0) h
    rw [results, results, ← heq, ih _ _ hne]

/-! ## 2. The range -/

theorem toInt_toInt64 (x : UInt64) : x.toInt64.toInt = (x.toNat : Int).bmod (2 ^ 64) :=
  BitVec.toInt_eq_toNat_bmod x.toBitVec

section Range

variable {lo hi : Int64} (h : lo < hi)
include h

/-- The width of a range as an unsigned word, also where it exceeds `2^63`. -/
theorem toNat_span : ((hi - lo).toUInt64.toNat : Int) = hi.toInt - lo.toInt := by
  have hlt := Int64.lt_iff_toInt_lt.mp h
  have hlo := lo.le_toInt
  have hhi := hi.toInt_lt
  have hword := (hi - lo).toUInt64.toNat_lt
  have hmod : ((hi - lo).toUInt64.toNat : Int).bmod (2 ^ 64) = (hi.toInt - lo.toInt).bmod (2 ^ 64) :=
    (toInt_toInt64 _).symm.trans (Int64.toInt_sub hi lo)
  have hemod := congrArg (· % ((2 ^ 64 : Nat) : Int)) hmod
  simp only [Int.bmod_emod] at hemod
  rwa [Int.emod_eq_of_lt (by omega) (by omega), Int.emod_eq_of_lt (by omega) (by omega)] at hemod

theorem range_mem (clock state : UInt64) :
    lo ≤ (randRange lo hi clock state).1 ∧ (randRange lo hi clock state).1 < hi := by
  have hlt := Int64.lt_iff_toInt_lt.mp h
  have hlo := lo.le_toInt
  have hhi := hi.toInt_lt
  have hspan := toNat_span h
  rw [randRange, if_neg (by rw [Int64.le_iff_toInt_le]; omega)]
  generalize hm : (randNext clock state).1 % (hi - lo).toUInt64 = m
  have hmod : m.toNat < (hi - lo).toUInt64.toNat := by
    rw [← hm, UInt64.toNat_mod]
    exact Nat.mod_lt _ (by omega)
  have hsum : (lo + m.toInt64).toInt = lo.toInt + m.toNat := by
    rw [Int64.toInt_add, toInt_toInt64, Int.add_bmod_bmod, Int.bmod_eq_of_le] <;> omega
  simp only [hm, Int64.le_iff_toInt_le, Int64.lt_iff_toInt_lt, hsum]
  omega

end Range

theorem results_inRange (calls : List Call) (clock : Nat → UInt64) (state : UInt64) :
    List.Forall₂ Call.InRange calls (results calls clock state) := by
  induction calls generalizing clock state with
  | nil => exact .nil
  | cons c calls ih =>
    refine .cons ?_ (ih _ _)
    cases c with
    | rand => trivial
    | range lo hi => exact fun h => range_mem h _ _

/-- **Seeded numbers are reproducible, and those of a range lie in it.** -/
theorem seeded_reproducible (seed : Int64) (calls : List Call) (clock clock' : Nat → UInt64) :
    results calls clock (randSeed seed) = results calls clock' (randSeed seed) ∧
      List.Forall₂ Call.InRange calls (results calls clock (randSeed seed)) :=
  ⟨results_steady clock clock' (randSeed_ne seed) calls, results_inRange calls clock _⟩

end Vyb.Runtime.Rand
