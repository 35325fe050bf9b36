/-
  Subject:   The built-in `Vec<T>` as its codegen lowers it (`src/vre/llvm/cgen_vec.cpp`).

  A `Vec<T>` is its contents. Indices are `Int`; the bounds compare is unsigned, so a negative
  index is out of bounds like one past the end. Out of bounds, `get` yields the zero value of
  the element type (`vec.get.in_bounds`), `set` and `remove_at` leave the vector alone.
-/
import Mathlib.Tactic

namespace Vyb.Collections

open List

universe u

/-- The built-in vector. -/
abbrev Vec (α : Type u) := List α

namespace Vec

variable {α : Type u}

def len (v : Vec α) : Int := v.length

/-- `v.get(i)`. -/
def get [Inhabited α] (v : Vec α) : Int → α
  | .ofNat n => v.getD n default
  | .negSucc _ => default

/-- `v.set(i, x)`. -/
def set (v : Vec α) (i : Int) (x : α) : Vec α :=
  match i with
  | .ofNat n => List.set v n x
  | .negSucc _ => v

/-- `v.push(x)`. -/
def push (v : Vec α) (x : α) : Vec α := v ++ [x]

/-- `v.pop()`, its effect on the vector. -/
def pop (v : Vec α) : Vec α := v.dropLast

/-- `v.remove_at(i)`, its effect on the vector. -/
def removeAt (v : Vec α) (i : Int) : Vec α :=
  match i with
  | .ofNat n => v.eraseIdx n
  | .negSucc _ => v

variable (v : Vec α)

@[simp] theorem len_push (x : α) : (push v x).len = v.len + 1 := by
  simp [len, push]

theorem length_set (i : Int) (x : α) : (set v i x).length = v.length := by
  cases i <;> simp [set]

@[simp] theorem len_set (i : Int) (x : α) : (set v i x).len = v.len := by
  simp [len, length_set]

@[simp] theorem set_natCast (n : Nat) (x : α) : set v n x = List.set v n x := rfl

@[simp] theorem pop_append (x : α) : pop (v ++ [x]) = v := dropLast_concat

theorem set_append (x y : α) {n : Nat} (h : v.length = n) : set (v ++ [x]) n y = v ++ [y] := by
  subst h
  simp

theorem len_nonneg : 0 ≤ v.len := Int.natCast_nonneg _

section Get

variable [Inhabited α] (v : Vec α)

theorem get_natCast (n : Nat) : get v n = v.getD n default := rfl

theorem get_of_lt {n : Nat} (h : n < v.length) : get v n = v[n] := by
  rw [get_natCast]
  simp [h]

theorem get_eq_of_getElem? {v : Vec α} {n : Nat} {x : α} (h : v[n]? = some x) : get v n = x := by
  rw [get_natCast, getD_eq_getElem?_getD, h]
  rfl

variable (x : α)

theorem get_push_lt {n : Nat} (h : n < v.length) : get (push v x) n = get v n := by
  simp [get_natCast, push, getD_eq_getElem?_getD, getElem?_append_left h]

theorem get_push_self : get (push v x) (v.length : Int) = x := by
  simp [get_natCast, push, getD_eq_getElem?_getD]

theorem get_set_self {n : Nat} (h : n < v.length) : get (set v n x) n = x := by
  simp [get_natCast, getD_eq_getElem?_getD, h]

theorem get_set_ne {n m : Nat} (h : n ≠ m) : get (set v n x) m = get v m := by
  simp [get_natCast, getD_eq_getElem?_getD, getElem?_set_ne h]

end Get

end Vec

end Vyb.Collections
