/-
  Subject:   The JSON layer of the language server (`src/lsp.cpp`): `JsonParser`, `jsonEscape`, `writeJson`.

  The parser walks over the text and never looks back, so its position is the list of the bytes that are left.
  It calls itself for the values inside a value; the model bounds these calls, and `parseJson` gives more than
  any text needs. A `double` is the rational number it stands for. What the C library does with numbers that are
  no integers is left open (`Floats`).

  * `JsonParser.value`, `parseJson` -- the parser;
  * `formatG` -- `%g`: six significant digits;
  * `writeJson` -- the writer.
-/
import Vyb.Lib.JsonText
import Vyb.Runtime.Str

namespace Vyb.Lsp

open Lib.JsonText List
open Vyb.Runtime (Str)

/-- `struct Json`; of its fields a value only uses those of its type. -/
abbrev Json := Value

/-- How the C library treats floating point: the nearest `double` of a rational number, which is the number itself
    if it is an integer with at most 53 significant bits, and `%g` for what is no integer. -/
structure Floats where
  round : Rat → Rat
  exact : ∀ (n : Int) (k : Nat), n.natAbs ≤ 2 ^ 53 → k ≤ 64 → round ((n : Rat) * 2 ^ k) = (n : Rat) * 2 ^ k
  other : Rat → Literal

/-! ## 1. Members -/

/-- `set` on the members of an object. -/
def setMember : List (Bytes × Json) → Bytes → Json → List (Bytes × Json)
  | [], k, v => [(k, v)]
  | (k', v') :: ms, k, v => if k' = k then (k', v) :: ms else (k', v') :: setMember ms k v

/-- `get` -/
def Json.get (j : Json) (k : Bytes) : Option Json :=
  match j with
  | .obj ms => (ms.find? fun m => m.1 == k).map Prod.snd
  | _ => none

/-- `set`; a value that is no object becomes one. -/
def Json.set (j : Json) (k : Bytes) (v : Json) : Json :=
  match j with
  | .obj ms => .obj (setMember ms k v)
  | _ => .obj [(k, v)]

/-! ## 2. The parser -/

namespace JsonParser

def ws (t : Bytes) : Bytes := t.dropWhile isBlank

/-- What `string` appends for the escapes of one letter. -/
def unescape (e : UInt8) : UInt8 :=
  if e = 110 then 10
  else if e = 116 then 9
  else if e = 114 then 13
  else e

/-- The loop of `string` and the closing quote: the characters, and what is left behind it. -/
def chars : Bytes → Bytes × Bytes
  | [] => ([], [])
  | 34 :: t => ([], t)
  | 92 :: 117 :: _ :: _ :: _ :: _ :: t => (63 :: (chars t).1, (chars t).2)
  | 92 :: 117 :: _ => ([63], [])
  | 92 :: e :: t => (unescape e :: (chars t).1, (chars t).2)
  | c :: t => (c :: (chars t).1, (chars t).2)

def string (t : Bytes) : Bytes × Bytes :=
  match t with
  | 34 :: t => chars t
  | t => chars t

def boolean (t : Bytes) : Json × Bytes :=
  if t.take 4 = Str.ascii "true" then (.bool true, t.drop 4) else (.bool false, t.drop 5)

def isDigit (b : UInt8) : Bool := 48 ≤ b && b ≤ 57

/-- Digits, `.`, `e`, `E`, `-`, `+`: what `number` goes over. -/
def isNumeric (b : UInt8) : Bool := isDigit b || b == 46 || b == 101 || b == 69 || b == 45 || b == 43

/-- A sign in front of a number: whether it is a minus, and what is left. -/
def sign : Bytes → Bool × Bytes
  | 45 :: t => (true, t)
  | 43 :: t => (false, t)
  | t => (false, t)

/-- The number that digits stand for. -/
def digitsValue (ds : Bytes) : Nat := Nat.ofDigits 10 (ds.reverse.map fun d => d.toNat - 48)

/-- The exponent; without a digit there is none. -/
def exponent : Bytes → Int
  | [] => 0
  | c :: t =>
    if c = 101 ∨ c = 69 then
      let ds := (sign t).2.takeWhile isDigit
      if (sign t).1 then -(digitsValue ds : Int) else digitsValue ds
    else 0

/-- What follows the digits in front of the point. -/
def fraction : Bytes → Bytes × Bytes
  | 46 :: t => (t.takeWhile isDigit, t.dropWhile isDigit)
  | t => ([], t)

/-- The rational number of which `atof` takes the nearest `double`. -/
def decimal (t : Bytes) : Rat :=
  let ip := (sign t).2.takeWhile isDigit
  let f := fraction ((sign t).2.dropWhile isDigit)
  (if (sign t).1 then -1 else 1) * digitsValue (ip ++ f.1) * (10 : Rat) ^ (exponent f.2 - f.1.length)

section

variable (F : Floats)

/-- `number`; a sign at its beginning is one of the bytes of the loop. -/
def number (t : Bytes) : Json × Bytes :=
  let num := t.takeWhile isNumeric
  (.num (if num.isEmpty then 0 else F.round (decimal num)), t.dropWhile isNumeric)

/-- `if (ok() && t[p] == c) ++p;` -/
def accept (c : UInt8) : Bytes → Bytes
  | [] => []
  | b :: t => if b = c then t else b :: t

mutual

/-- `value`, with `object` and `array` up to their loops. -/
def value : Nat → Bytes → Json × Bytes
  | 0, t => (.null, t)
  | fuel + 1, t =>
    match ws t with
    | [] => (.null, [])
    | c :: t =>
      if c = 123 then
        match ws t with
        | 125 :: t => (.obj [], t)
        | t => objectLoop fuel [] t
      else if c = 91 then
        match ws t with
        | 93 :: t => (.arr [], t)
        | t => arrayLoop fuel [] t
      else if c = 34 then
        let r := string (c :: t)
        (.str r.1, r.2)
      else if c = 116 ∨ c = 102 then boolean (c :: t)
      else if c = 110 then (.null, (c :: t).drop 4)
      else number F (c :: t)

/-- `while (ok())` of `object`, with its members so far. -/
def objectLoop : Nat → List (Bytes × Json) → Bytes → Json × Bytes
  | 0, o, t => (.obj o, t)
  | fuel + 1, o, t =>
    if t.isEmpty then (.obj o, t)
    else
      let k := string (ws t)
      let v := value fuel (accept 58 (ws k.2))
      let o := setMember o k.1 v.1
      match ws v.2 with
      | 44 :: t => objectLoop fuel o t
      | 125 :: t => (.obj o, t)
      | t => (.obj o, t)

/-- `while (ok())` of `array`, with its elements so far. -/
def arrayLoop : Nat → List Json → Bytes → Json × Bytes
  | 0, a, t => (.arr a, t)
  | fuel + 1, a, t =>
    if t.isEmpty then (.arr a, t)
    else
      let v := value fuel t
      let a := a ++ [v.1]
      match ws v.2 with
      | 44 :: t => arrayLoop fuel a t
      | 93 :: t => (.arr a, t)
      | t => (.arr a, t)

end

end

end JsonParser

/-- `parseJson`: a value and, for each byte, at most one loop and one value inside it. -/
def parseJson (F : Floats) (s : Bytes) : Json := (JsonParser.value F (2 * s.length + 1) (JsonParser.ws s)).1

/-! ## 3. `%g` -/

/-- The decimal digits of a number. -/
def digitsOf (m : Nat) : List (Fin 10) :=
  if m = 0 then [0] else (Nat.digits 10 m).reverse.map (Fin.ofNat 10)

theorem digitsOf_ne (m : Nat) : digitsOf m ≠ [] := by
  rw [digitsOf]
  split
  · exact cons_ne_nil _ _
  · rename_i hm
    simpa using Nat.digits_ne_nil_iff_ne_zero.mpr hm

theorem digitsOf_head (m : Nat) : (digitsOf m).length = 1 ∨ (digitsOf m).head? ≠ some 0 := by
  rw [digitsOf]
  split
  · exact .inl rfl
  · rename_i hm
    refine .inr fun h => ?_
    have hne : Nat.digits 10 m ≠ [] := Nat.digits_ne_nil_iff_ne_zero.mpr hm
    have hlast := Nat.getLast_digit_ne_zero 10 hm
    rw [head?_map, head?_reverse, getLast?_eq_some_getLast hne, Option.map_some] at h
    have hlt : (Nat.digits 10 m).getLast hne < 10 := Nat.digits_lt_base (by decide) (getLast_mem hne)
    have hval := congrArg Fin.val (Option.some.inj h)
    rw [Fin.val_ofNat, Nat.mod_eq_of_lt hlt] at hval
    exact hlast hval

/-- An exponent has two digits at least. -/
def exponentDigits (x : Nat) : List (Fin 10) := if x < 10 then [0, Fin.ofNat 10 x] else digitsOf x

theorem exponentDigits_ne (x : Nat) : exponentDigits x ≠ [] := by
  rw [exponentDigits]
  split
  · exact cons_ne_nil _ _
  · exact digitsOf_ne x

/-- `m / unit` to the nearest integer, to the even one of two. -/
def nearest (m unit : Nat) : Nat :=
  let q := m / unit
  let r := m % unit
  if 2 * r < unit then q else if unit < 2 * r then q + 1 else q + q % 2

/-- Six significant digits of a number with more, and the exponent of the first: 999999.5 and more are 1000000. -/
def sixDigits (m : Nat) : Nat × Nat :=
  let x := Nat.log 10 m
  let q := nearest m (10 ^ (x - 5))
  if q = 10 ^ 6 then (10 ^ 5, x + 1) else (q, x)

/-- `%g` of an integer: all its digits if they are at most six, or six of them, the zeros at the end left out, with
    an exponent. -/
def formatInt (n : Int) : Literal :=
  let m := n.natAbs
  if m < 10 ^ 6 then ⟨decide (n < 0), digitsOf m, [], none, digitsOf_ne m, digitsOf_head m⟩
  else
    let s := sixDigits m
    let ds := digitsOf s.1
    ⟨decide (n < 0), [ds.headD 0], ds.tail.rdropWhile (· = 0), some ⟨false, some false, exponentDigits s.2,
      exponentDigits_ne s.2⟩, cons_ne_nil _ _, .inl rfl⟩

/-- `snprintf(buf, sizeof buf, "%g", v.num)` -/
def formatG (F : Floats) (q : Rat) : Literal := if q.den = 1 then formatInt q.num else F.other q

/-! ## 4. The writer -/

/-- The digit of `%04x`. -/
def hexDigit (n : Nat) : UInt8 := if n < 10 then UInt8.ofNat (48 + n) else UInt8.ofNat (87 + n)

/-- One byte in `jsonEscape`. -/
def escapeByte (c : UInt8) : Bytes :=
  if c = 34 then [92, 34]
  else if c = 92 then [92, 92]
  else if c = 10 then [92, 110]
  else if c = 13 then [92, 114]
  else if c = 9 then [92, 116]
  else if c < 0x20 then [92, 117, 48, 48, hexDigit (c.toNat / 16), hexDigit (c.toNat % 16)]
  else [c]

def jsonEscape (v : Bytes) : Bytes := 34 :: v.flatMap escapeByte ++ [34]

/-- `if (i) o << ',';` -/
def comma (first : Bool) : Bytes := if first then [] else [44]

section

variable (F : Floats)

mutual

def writeJson : Json → Bytes
  | .null => Str.ascii "null"
  | .bool true => Str.ascii "true"
  | .bool false => Str.ascii "false"
  | .num q => (formatG F q).text
  | .str s => jsonEscape s
  | .arr vs => 91 :: writeItems true vs ++ [93]
  | .obj ms => 123 :: writeMembers true ms ++ [125]

def writeItems : Bool → List Json → Bytes
  | _, [] => []
  | first, v :: vs => comma first ++ (writeJson v ++ writeItems false vs)

def writeMembers : Bool → List (Bytes × Json) → Bytes
  | _, [] => []
  | first, (k, v) :: ms => comma first ++ (jsonEscape k ++ 58 :: (writeJson v ++ writeMembers false ms))

end

end

/-! ## 5. Responses -/

def idKey : Bytes := Str.ascii "id"

/-- The message of `writeResponse`: `jsonrpc`, `id` and `result`. -/
def response (id : Option Json) (result : Json) : Json :=
  Json.set (Json.set (Json.set (.obj []) (Str.ascii "jsonrpc") (.str (Str.ascii "2.0"))) idKey (id.getD .null))
    (Str.ascii "result") result

/-- The body that `writeResponse` sends. -/
def writeResponse (F : Floats) (id : Option Json) (result : Json) : Bytes := writeJson F (response id result)

end Vyb.Lsp
