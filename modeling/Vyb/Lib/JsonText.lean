/-
  Subject:   JSON texts as RFC 8259 has them, and the values they stand for.

  A text is given by its syntax tree: blanks, the escapes of its strings and the digits of its numbers are part
  of the tree, and whatever the grammar does not allow cannot be built. Texts and strings are lists of bytes.

  * `Value` -- the values; numbers are rational;
  * `Piece`, `Literal` -- a character of a string, a number: their texts and what they stand for;
  * `Source`, `Document` -- a value with the blanks in it, a whole text.
-/
import Mathlib.Tactic

namespace Vyb.Lib.JsonText

open List

abbrev Bytes := List UInt8

inductive Value where
  | null
  | bool (b : Bool)
  | num (q : Rat)
  | str (s : Bytes)
  | arr (vs : List Value)
  | obj (ms : List (Bytes × Value))

/-! ## 1. Strings -/

/-- The characters with a short escape. -/
inductive Escape where
  | quote
  | backslash
  | slash
  | backspace
  | formFeed
  | newline
  | carriageReturn
  | tab
  deriving DecidableEq, Repr

/-- What stands behind the backslash. -/
def Escape.letter : Escape → UInt8
  | .quote => 34
  | .backslash => 92
  | .slash => 47
  | .backspace => 98
  | .formFeed => 102
  | .newline => 110
  | .carriageReturn => 114
  | .tab => 116

/-- The character. -/
def Escape.byte : Escape → UInt8
  | .quote => 34
  | .backslash => 92
  | .slash => 47
  | .backspace => 8
  | .formFeed => 12
  | .newline => 10
  | .carriageReturn => 13
  | .tab => 9

def hexValue (b : UInt8) : Option Nat :=
  if 48 ≤ b ∧ b ≤ 57 then some (b.toNat - 48)
  else if 65 ≤ b ∧ b ≤ 70 then some (b.toNat - 55)
  else if 97 ≤ b ∧ b ≤ 102 then some (b.toNat - 87)
  else none

/-- Four hexadecimal digits. -/
structure Quad where
  digits : Bytes
  four : digits.length = 4
  hex : ∀ d ∈ digits, (hexValue d).isSome = true

def Quad.value (q : Quad) : Nat := q.digits.foldl (fun n d => n * 16 + (hexValue d).getD 0) 0

/-- The character that two code units stand for. -/
def Paired (high low : Nat) (c : Char) : Prop :=
  (0xD800 ≤ high ∧ high < 0xDC00) ∧ (0xDC00 ≤ low ∧ low < 0xE000) ∧
    c.toNat = 0x10000 + (high - 0xD800) * 0x400 + (low - 0xDC00)

/-- A byte as it is, or a character that is escaped. -/
inductive Piece where
  | raw (b : UInt8) (h : 32 ≤ b ∧ b ≠ 34 ∧ b ≠ 92)
  | short (e : Escape)
  | unit (q : Quad) (c : Char) (h : q.value = c.toNat)
  | pair (high low : Quad) (c : Char) (h : Paired high.value low.value c)

namespace Piece

def text : Piece → Bytes
  | .raw b _ => [b]
  | .short e => [92, e.letter]
  | .unit q _ _ => 92 :: 117 :: q.digits
  | .pair high low _ _ => 92 :: 117 :: high.digits ++ 92 :: 117 :: low.digits

/-- What it stands for. -/
def bytes : Piece → Bytes
  | .raw b _ => [b]
  | .short e => [e.byte]
  | .unit _ c _ => String.utf8EncodeChar c
  | .pair _ _ c _ => String.utf8EncodeChar c

end Piece

def stringText (ps : List Piece) : Bytes := 34 :: ps.flatMap Piece.text ++ [34]

def stringBytes (ps : List Piece) : Bytes := ps.flatMap Piece.bytes

/-! ## 2. Numbers -/

/-- The byte of a digit. -/
def digitByte (d : Fin 10) : UInt8 := UInt8.ofNat (48 + d)

def digitsText (ds : List (Fin 10)) : Bytes := ds.map digitByte

/-- The number that digits stand for, the first one being the highest. -/
def decimalValue (ds : List (Fin 10)) : Nat := Nat.ofDigits 10 (ds.reverse.map Fin.val)

theorem decimalValue_append (a b : List (Fin 10)) :
    decimalValue (a ++ b) = decimalValue a * 10 ^ b.length + decimalValue b := by
  rw [decimalValue, reverse_append, map_append, Nat.ofDigits_append, decimalValue, decimalValue,
    length_map,
    length_reverse]
  ring

/-- `e` or `E`, a sign or none, digits. -/
structure Exponent where
  upper : Bool
  sign : Option Bool
  digits : List (Fin 10)
  digits_ne : digits ≠ []

namespace Exponent

/-- A sign that is `true` is a minus. -/
def signText : Option Bool → Bytes
  | none => []
  | some true => [45]
  | some false => [43]

def text (e : Exponent) : Bytes := (if e.upper then 69 else 101) :: signText e.sign ++ digitsText e.digits

def value (e : Exponent) : Int :=
  if e.sign = some true then -(decimalValue e.digits : Int) else decimalValue e.digits

end Exponent

/-- A number; `frac` is empty where there is no point. -/
structure Literal where
  neg : Bool
  int : List (Fin 10)
  frac : List (Fin 10)
  exp : Option Exponent
  int_ne : int ≠ []
  int_ok : int.length = 1 ∨ int.head? ≠ some 0

namespace Literal

def fracText (frac : List (Fin 10)) : Bytes := if frac = [] then [] else 46 :: digitsText frac

def expText : Option Exponent → Bytes
  | none => []
  | some e => e.text

def text (l : Literal) : Bytes :=
  (if l.neg then [45] else []) ++ (digitsText l.int ++ (fracText l.frac ++ expText l.exp))

def expValue : Option Exponent → Int
  | none => 0
  | some e => e.value

def value (l : Literal) : Rat :=
  (if l.neg then -1 else 1) * decimalValue (l.int ++ l.frac) * (10 : Rat) ^ (expValue l.exp - l.frac.length)

end Literal

/-! ## 3. Values and texts -/

/-- A blank: space, tab, line feed, carriage return. -/
def isBlank (b : UInt8) : Bool := b == 32 || b == 9 || b == 10 || b == 13

/-- Blanks. -/
structure Gap where
  text : Bytes
  blank : ∀ b ∈ text, isBlank b = true

def Gap.empty : Gap := ⟨[], fun _ h => absurd h not_mem_nil⟩

mutual

/-- A value as it is written. -/
inductive Source where
  | null
  | bool (b : Bool)
  | num (l : Literal)
  | str (ps : List Piece)
  | arr (gap : Gap) (items : Items)
  | obj (gap : Gap) (members : Members)

/-- The elements of an array, each between blanks. -/
inductive Items where
  | nil
  | cons (before : Gap) (v : Source) (after : Gap) (rest : Items)

/-- The members of an object. -/
inductive Members where
  | nil
  | cons (before : Gap) (key : List Piece) (behindKey : Gap) (beforeValue : Gap) (v : Source) (after : Gap)
      (rest : Members)

end

def Items.isNil : Items → Bool
  | .nil => true
  | .cons _ _ _ _ => false

def Members.isNil : Members → Bool
  | .nil => true
  | .cons _ _ _ _ _ _ _ => false

mutual

/-- The text; `gap` is what stands between brackets without anything else. -/
def Source.text : Source → Bytes
  | .null => [110, 117, 108, 108]
  | .bool true => [116, 114, 117, 101]
  | .bool false => [102, 97, 108, 115, 101]
  | .num l => l.text
  | .str ps => stringText ps
  | .arr gap items => 91 :: ((if items.isNil then gap.text else items.text) ++ [93])
  | .obj gap members => 123 :: ((if members.isNil then gap.text else members.text) ++ [125])

def Items.text : Items → Bytes
  | .nil => []
  | .cons before v after rest =>
    before.text ++ (v.text ++ (after.text ++ if rest.isNil then [] else 44 :: rest.text))

def Members.text : Members → Bytes
  | .nil => []
  | .cons before key behindKey beforeValue v after rest =>
    before.text ++ (stringText key ++ (behindKey.text ++ 58 :: (beforeValue.text ++ (v.text ++
      (after.text ++ if rest.isNil then [] else 44 :: rest.text)))))

end

mutual

/-- **What a text stands for.** -/
def Source.value : Source → Value
  | .null => .null
  | .bool b => .bool b
  | .num l => .num l.value
  | .str ps => .str (stringBytes ps)
  | .arr _ items => .arr items.values
  | .obj _ members => .obj members.values

def Items.values : Items → List Value
  | .nil => []
  | .cons _ v _ rest => v.value :: rest.values

def Members.values : Members → List (Bytes × Value)
  | .nil => []
  | .cons _ key _ _ v _ rest => (stringBytes key, v.value) :: rest.values

end

/-- The members, key by key. -/
def Members.entries : Members → List (List Piece × Source)
  | .nil => []
  | .cons _ key _ _ v _ rest => (key, v) :: rest.entries

theorem Members.values_eq : ∀ ms : Members, ms.values = ms.entries.map fun e => (stringBytes e.1, e.2.value)
  | .nil => rfl
  | .cons _ key _ _ v _ rest => by rw [Members.values, Members.entries, map_cons, Members.values_eq rest]

/-- A whole text. -/
structure Document where
  before : Gap
  source : Source
  after : Gap

namespace Document

def text (d : Document) : Bytes := d.before.text ++ (d.source.text ++ d.after.text)

def value (d : Document) : Value := d.source.value

end Document

end Vyb.Lib.JsonText
