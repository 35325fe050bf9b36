/-
  Subject:   The number that a text begins with.

  * `numeral base digit l` -- the digits at the beginning of `l`, up to the first element that is none;
  * `numeral_append` -- what stands behind the digits does not matter;
  * `numeralWrapped` -- the same reading in arithmetic that wraps around; **`numeralWrapped_eq`**: it wraps
    the number once.
-/
import Mathlib.Tactic

namespace Vyb.Lib

universe u

variable {α : Type u} (base : Nat) (digit : α → Option Nat)

/-- The digits at the beginning of a list, after some with the value `v`. -/
def numeralFrom : Nat → List α → Nat
  | v, [] => v
  | v, a :: l =>
    match digit a with
    | some d => numeralFrom (v * base + d) l
    | none => v

def numeral (l : List α) : Nat := numeralFrom base digit 0 l

variable {base digit}

theorem numeralFrom_append {rest : List α} (hrest : ∀ a, rest.head? = some a → digit a = none) :
    ∀ {ds : List α} {v : Nat}, (∀ a ∈ ds, (digit a).isSome = true) →
    numeralFrom base digit v (ds ++ rest) = numeralFrom base digit v ds
  | [], v, _ => by
    cases rest with
    | nil => rfl
    | cons a rest => simp [numeralFrom, hrest a rfl]
  | a :: ds, v, h => by
    obtain ⟨d, hd⟩ := Option.isSome_iff_exists.mp (h a List.mem_cons_self)
    simp only [List.cons_append, numeralFrom, hd]
    exact numeralFrom_append hrest fun b hb => h b (List.mem_cons_of_mem a hb)

/-- **What stands behind the digits** does not matter. -/
theorem numeral_append {ds rest : List α} (hds : ∀ a ∈ ds, (digit a).isSome = true)
    (hrest : ∀ a, rest.head? = some a → digit a = none) :
    numeral base digit (ds ++ rest) = numeral base digit ds := numeralFrom_append hrest hds

variable (base digit) in
/-- The reading with numbers that wrap around. -/
def numeralWrapped (wrap : Int → Int) : Int → List α → Int
  | v, [] => v
  | v, a :: l =>
    match digit a with
    | some d => numeralWrapped wrap (wrap (v * base + d)) l
    | none => v

/-- **It wraps the number once.** -/
theorem numeralWrapped_eq {wrap : Int → Int} (hwrap : ∀ v b d : Int, wrap (wrap v * b + d) = wrap (v * b + d)) :
    ∀ (l : List α) (v : Nat), numeralWrapped base digit wrap (wrap v) l = wrap (numeralFrom base digit v l)
  | [], v => rfl
  | a :: l, v => by
    cases hd : digit a with
    | none => simp only [numeralWrapped, numeralFrom, hd]
    | some d =>
      have ih := numeralWrapped_eq hwrap l (v * base + d)
      simp only [numeralWrapped, numeralFrom, hd, hwrap]
      exact ih

end Vyb.Lib
