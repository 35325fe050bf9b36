/-
  Subject:   `String` as its codegen lowers it (`src/vre/llvm/cgen_string_type.cpp`), by its bytes.

  A String is a length and that many bytes; no byte ends it, and a comparison looks at the length and
  then at all bytes. Out of bounds `char_at` yields 0 and `substring` the empty String.
-/
import Mathlib.Data.List.DropRight
import Mathlib.Tactic

namespace Vyb.Runtime

open List

abbrev Str := List UInt8

namespace Str

/-- The bytes of a literal. -/
def ascii (text : String) : Str := text.toList.map fun c => UInt8.ofNat c.toNat

/-- `s.char_at(i)`, widened without a sign. -/
def charAt (s : Str) (i : Nat) : Nat := (s.getD i 0).toNat

/-- `String::from_byte(b)`: the low byte. -/
def fromByte (b : Nat) : Str := [UInt8.ofNat b]

/-- `String::from_byte(b)` for a number that may be negative. -/
def fromByteInt (b : Int) : Str := [UInt8.ofNat (b % 256).toNat]

/-- `n.to_string()` of an `Int`. -/
def ofInt (n : Int) : Str :=
  (if n < 0 then [45] else []) ++ (Nat.toDigits 10 n.natAbs).map fun c => UInt8.ofNat c.toNat

/-- The bounds that `substring` accepts. -/
def InBounds (len start stop : Int) : Prop :=
  0 ≤ start ∧ start ≤ len ∧ start ≤ stop ∧ stop ≤ len

instance decInBounds (len start stop : Int) : Decidable (InBounds len start stop) :=
  inferInstanceAs (Decidable (_ ∧ _))

/-- `s.substring(start, end)` -/
def substring (s : Str) (start stop : Int) : Str :=
  if InBounds s.length start stop then (s.drop start.toNat).take (stop - start).toNat else []

/-- `s.substring(start)` -/
def suffix (s : Str) (start : Int) : Str := s.substring start s.length

/-- `isspace` -/
def isSpace (b : UInt8) : Bool := b == 32 || (9 ≤ b && b ≤ 13)

/-- `s.trim()`: the loop from the front, and the one from the back over what that has left. -/
def trim (s : Str) : Str := (s.dropWhile isSpace).rdropWhile isSpace

theorem charAt_lt (s : Str) (i : Nat) : charAt s i < 256 := (s.getD i 0).toNat_lt

theorem byte_toNat {b : Nat} (h : b < 256) : (UInt8.ofNat b).toNat = b := UInt8.toNat_ofNat_of_lt' h

theorem fromByte_toNat (b : UInt8) : fromByte b.toNat = [b] := by
  rw [fromByte, UInt8.ofNat_toNat]

theorem charAt_of_take {s t : Str} {n i : Nat} (h : s.take n = t.take n) (hi : i < n) :
    charAt s i = charAt t i := by
  have hget : (s.take n)[i]? = (t.take n)[i]? := by rw [h]
  rw [getElem?_take_of_lt hi, getElem?_take_of_lt hi] at hget
  rw [charAt, charAt, getD_eq_getElem?_getD, getD_eq_getElem?_getD, hget]

theorem substring_to_end {s : Str} {n : Nat} (h : n ≤ s.length) : s.substring n s.length = s.drop n := by
  have hin : InBounds s.length n s.length := ⟨by omega, by omega, by omega, by omega⟩
  have hlen : ((s.length : Int) - n).toNat = s.length - n := by omega
  rw [substring, if_pos hin, hlen, Int.toNat_natCast, take_of_length_le (by simp)]

theorem substring_from_start {s : Str} {n : Nat} (h : n ≤ s.length) : s.substring 0 n = s.take n := by
  have hin : InBounds s.length 0 n := ⟨by omega, by omega, by omega, by omega⟩
  rw [substring, if_pos hin, Int.sub_zero, Int.toNat_natCast, Int.toNat_zero, drop_zero]

theorem mem_of_mem_substring {s : Str} {start stop : Int} {x : UInt8} (h : x ∈ s.substring start stop) :
    x ∈ s := by
  rw [substring] at h
  split at h
  · exact mem_of_mem_drop (mem_of_mem_take h)
  · cases h

end Str

end Vyb.Runtime
