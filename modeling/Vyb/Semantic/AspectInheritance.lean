/-
  Subject:   The check of super-aspects (`SemanticAnalyzer::validateAspectInheritance`).

  For each super-aspect of each aspect the check searches for a way back to the aspect. The search marks
  nothing, so a cycle beside the aspect keeps it going. What the check says about binds is left out.

  **`inheritance_exact_iff`** -- for which registries it ends and reports exactly the aspects on a cycle.
-/
import Vyb.Lib.DepthFirst

namespace Vyb.Semantic.AspectInheritance

open Lib Relation

/-- `traitRegistry`: its keys, and the super-aspects of each. -/
structure TraitRegistry where
  names : List String
  superTraits : String → List String
  known : ∀ a ∉ names, superTraits a = []

inductive Error where
  | undefined (superName name : String)
  | cyclic (name : String)

def Error.message : Error → String
  | undefined superName name =>
    "Super-aspect '" ++ superName ++ "' of aspect '" ++ name ++ "' is not a defined aspect."
  | cyclic name => "Aspect '" ++ name ++ "' has a cyclic super-aspect dependency."

section Check

variable (R : TraitRegistry)

/-- `findCycle(start, current, depth)`; the depth is at least 1 in every call. -/
def findCycle (start : String) : Nat → String → Option Bool := dfs (· == start) R.superTraits

/-- An aspect and one of its super-aspects: the error that is added, if any. -/
def checkSuper (fuel : Nat) (name superName : String) : Option (Option Error) :=
  if superName ∈ R.names then
    (findCycle R name fuel superName).map fun found => if found then some (.cyclic name) else none
  else some (some (.undefined superName name))

/-- The check ends: the loops around the searches do. -/
def Ends : Prop := ∀ a, ∀ s ∈ R.superTraits a, ∃ fuel, (checkSuper R fuel a s).isSome = true

/-- The errors, as a set: the registry is gone through in no fixed order. -/
def Reports (e : Error) : Prop :=
  ∃ a, ∃ s ∈ R.superTraits a, ∃ fuel, checkSuper R fuel a s = some (some e)

variable {R} {a : String}

theorem checkSuper_cyclic {fuel : Nat} {b s : String} : checkSuper R fuel b s = some (some (.cyclic a)) ↔
    b = a ∧ s ∈ R.names ∧ findCycle R b fuel s = some true := by
  unfold checkSuper
  split_ifs with h
  · rcases findCycle R b fuel s with _ | _ | _ <;> simp [h]
  · simp [h]

/-- On a cycle, a super-aspect is defined and leads back. -/
theorem cycle_iff : TransGen (fun a b => b ∈ R.superTraits a) a a ↔
    ∃ s ∈ R.superTraits a, s ∈ R.names ∧ LeadsTo (· == a) R.superTraits s := by
  rw [TransGen.head'_iff]
  simp only [LeadsTo, beq_iff_eq, exists_eq_right]
  refine exists_congr fun s => and_congr_right fun hs => (and_iff_right_of_imp fun h => ?_).symm
  by_contra hdef
  obtain rfl | ⟨t, ht, -⟩ := h.cases_head
  · simp [R.known _ hdef] at hs
  · simp [R.known _ hdef] at ht

/-- **Where the check is exact**: no search goes along an endless chain of aspects. -/
theorem inheritance_exact_iff (R : TraitRegistry) :
    (Ends R ∧ ∀ a, Reports R (.cyclic a) ↔ TransGen (fun a b => b ∈ R.superTraits a) a a) ↔
      ∀ a, ∀ s ∈ R.superTraits a, s ∈ R.names → Acc (AskedAt (· == a) R.superTraits) s := by
  have hsearch : ∀ {a s}, s ∈ R.names → ((∃ fuel, (checkSuper R fuel a s).isSome = true) ↔
      Acc (AskedAt (· == a) R.superTraits) s) := by
    intro a s hdef
    simp only [checkSuper, if_pos hdef, Option.isSome_map]
    exact dfs_ends_iff
  constructor
  · rintro ⟨hends, -⟩ a s hs hdef
    exact (hsearch hdef).mp (hends a s hs)
  · intro h
    refine ⟨fun a s hs => ?_, fun a => ?_⟩
    · by_cases hdef : s ∈ R.names
      · exact (hsearch hdef).mpr (h a s hs hdef)
      · exact ⟨0, by rw [checkSuper, if_neg hdef]; rfl⟩
    · rw [cycle_iff]
      constructor
      · rintro ⟨b, s, hs, fuel, hf⟩
        obtain ⟨rfl, hdef, hf⟩ := checkSuper_cyclic.mp hf
        exact ⟨s, hs, hdef, (dfs_eq_some hf).mp rfl⟩
      · rintro ⟨s, hs, hdef, hl⟩
        obtain ⟨fuel, hf⟩ := dfs_ends_iff.mpr (h a s hs hdef)
        obtain ⟨b, hb⟩ := Option.isSome_iff_exists.mp hf
        obtain rfl := (dfs_eq_some hb).mpr hl
        exact ⟨a, s, hs, fuel, checkSuper_cyclic.mpr ⟨rfl, hdef, hb⟩⟩

end Check

/-- `aspect A : B`, `aspect B : B`. -/
def besideCycle : TraitRegistry where
  names := ["A", "B"]
  superTraits := fun a => if a = "A" ∨ a = "B" then ["B"] else []
  known := by simp

theorem findCycle_beside : ∀ fuel, findCycle besideCycle "A" fuel "B" = none
  | 0 => rfl
  | fuel + 1 => by
    have hB : besideCycle.superTraits "B" = ["B"] := rfl
    rw [findCycle, dfs, if_neg (by decide), hB, List.anyM_cons, ← findCycle, findCycle_beside fuel]
    rfl

/-- From `B` the search for `A` does not return. -/
theorem check_never_ends : ¬ Ends besideCycle := by
  intro h
  obtain ⟨fuel, hf⟩ := h "A" "B" List.mem_cons_self
  rw [checkSuper, findCycle_beside] at hf
  cases hf

end Vyb.Semantic.AspectInheritance
