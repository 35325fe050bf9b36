/-
  Subject:   Integers assigned without a cast (`checkIntegerAssignment`).

  Between two integer types only a constant that fits may be assigned. Constants are folded in `__int128`;
  the fold of a literal and its signs never leaves that range.

  **`assignment_loses_nothing`** -- what the check passes is of the same integer type, or a constant whose
  exact value is in range.
-/
import Vyb.Syntax.Types

namespace Vyb.Semantic.IntegerAssignment

open Syntax

/-- A canonical name: `"s64"`, `"u8"`, and so on. -/
structure Canonical where
  signed : Bool
  bits : Nat
  deriving DecidableEq

def intCanonicalNameForName (name : String) : Option Canonical :=
  if name ∈ ["Int", "Int64", "i64", "CLong", "CSSize"] then some ⟨true, 64⟩
  else if name ∈ ["UInt64", "u64", "CULong", "CSize"] then some ⟨false, 64⟩
  else if name ∈ ["Int32", "i32", "CInt", "Rune"] then some ⟨true, 32⟩
  else if name ∈ ["UInt32", "u32", "CUInt"] then some ⟨false, 32⟩
  else if name ∈ ["Int16", "i16", "CShort"] then some ⟨true, 16⟩
  else if name ∈ ["UInt16", "u16", "CUShort"] then some ⟨false, 16⟩
  else if name ∈ ["Int8", "i8", "Char", "CChar"] then some ⟨true, 8⟩
  else if name ∈ ["UInt8", "u8", "CUChar", "Byte"] then some ⟨false, 8⟩
  else none

def intCanonicalName : Ty → Option Canonical
  | .named n _ => intCanonicalNameForName n.text
  | _ => none

def intCanonicalRange (c : Canonical) : Int × Int :=
  if c.signed then (-2 ^ (c.bits - 1), 2 ^ (c.bits - 1) - 1) else (0, 2 ^ c.bits - 1)

abbrev Canonical.Holds (c : Canonical) (v : Int) : Prop :=
  (intCanonicalRange c).1 ≤ v ∧ v ≤ (intCanonicalRange c).2

def primitiveValueTypes : List String :=
  ["Int", "Int8", "Int16", "Int32", "Int64", "UInt8", "UInt16", "UInt32", "UInt64",
   "Float", "Float32", "Float64", "Bool", "Char", "Rune",
   "i8", "i16", "i32", "i64", "u8", "u16", "u32", "u64", "f32", "f64",
   "CChar", "CUChar", "CShort", "CUShort", "CInt", "CUInt", "CLong", "CULong",
   "CSize", "CSSize", "CFloat", "CDouble", "CVoid", "CString"]

def unwrapPrimitiveOwnershipType : Ty → Ty
  | .named w [.named n args] =>
    if w.text ∈ ["my", "our", "their", "mild", "view", "borrow"] ∧ n.text ∈ primitiveValueTypes then .named n args
    else .named w [.named n args]
  | type => type

/-- An initializer, as the folding sees it; a literal has a suffix `u` or none. -/
inductive Init where
  | literal (value : Int64)
  | unsignedLiteral (uvalue : UInt64)
  | minus (operand : Init)
  | other

/-- `intConstantValueFull`, its value in `__int128`. -/
def intConstantValueFull : Init → Option Int
  | .literal v => some v.toInt
  | .unsignedLiteral v => some v.toNat
  | .minus e => (intConstantValueFull e).map fun v => (-v).bmod (2 ^ 128)
  | .other => none

/-- The exact value of a constant. -/
def Init.exact : Init → Option Int
  | .literal v => some v.toInt
  | .unsignedLiteral v => some v.toNat
  | .minus e => e.exact.map (- ·)
  | .other => none

inductive IntAssignCode where
  | notInteger
  | ok
  | needExplicitCast
  | constantOutOfRange
  deriving DecidableEq

def checkIntegerAssignment (targetRaw sourceRaw : Ty) (initExpr : Init) : IntAssignCode × String :=
  match intCanonicalName (unwrapPrimitiveOwnershipType targetRaw),
    intCanonicalName (unwrapPrimitiveOwnershipType sourceRaw) with
  | some tc, some sc =>
    if tc = sc then (.ok, "")
    else
      match intConstantValueFull initExpr with
      | some cval =>
        if tc.Holds cval then (.ok, "")
        else (.constantOutOfRange, "Integer constant " ++ toString cval ++ " is out of range for type '" ++
          targetRaw.toString ++ "' in assignment.")
      | none => (.needExplicitCast, "Cannot implicitly convert '" ++ sourceRaw.toString ++ "' to '" ++
          targetRaw.toString ++ "' in assignment; cast explicitly (e.g. `(v as " ++ targetRaw.toString ++ ")`).")
  | _, _ => (.notInteger, "")

/-- **The folding is exact**: it stays far inside 128 bits. -/
theorem constant_exact : ∀ {e : Init} {v : Int}, intConstantValueFull e = some v →
    e.exact = some v ∧ -2 ^ 64 ≤ v ∧ v ≤ 2 ^ 64
  | .literal v, _, h => by
    cases h
    have h1 := v.le_toInt
    have h2 := v.toInt_lt
    exact ⟨rfl, by omega, by omega⟩
  | .unsignedLiteral v, _, h => by
    cases h
    have h1 := v.toNat_lt
    exact ⟨rfl, by omega, by omega⟩
  | .minus e, _, h => by
    obtain ⟨v, hv, rfl⟩ := Option.map_eq_some_iff.mp h
    obtain ⟨hexact, hlo, hhi⟩ := constant_exact hv
    have hmod : (-v).bmod (2 ^ 128) = -v := by rw [Int.bmod_def]; omega
    rw [Init.exact, hexact, hmod]
    exact ⟨rfl, by omega, by omega⟩

/-- **No value is lost.** -/
theorem assignment_loses_nothing (target source : Ty) (init : Init)
    (h : (checkIntegerAssignment target source init).1 = .ok) :
    ∃ d s, intCanonicalName (unwrapPrimitiveOwnershipType target) = some d ∧
      intCanonicalName (unwrapPrimitiveOwnershipType source) = some s ∧
      (d = s ∨ ∃ v, init.exact = some v ∧ d.Holds v) := by
  unfold checkIntegerAssignment at h
  split at h
  · next d s hd hs =>
    refine ⟨d, s, hd, hs, ?_⟩
    split_ifs at h with heq
    · exact .inl heq
    · split at h
      · next v hv =>
        split_ifs at h with hfits
        exact .inr ⟨v, (constant_exact hv).1, hfits⟩
      · cases h
  · cases h

/-- `x<Int8> = -5`, with a literal of type `Int`. -/
theorem assignment_minus_five : ∃ d s, intCanonicalNameForName "Int8" = some d ∧
    intCanonicalNameForName "Int" = some s ∧ (d = s ∨ ∃ v, (Init.minus (.literal 5)).exact = some v ∧ d.Holds v) :=
  assignment_loses_nothing (.named (.ofText "Int8" rfl) []) (.named (.ofText "Int" rfl) []) _ (by decide)

end Vyb.Semantic.IntegerAssignment
