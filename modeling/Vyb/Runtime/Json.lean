/-
  Subject:   The JSON writer and reader of the runtime (`runtime/vyb_type_metadata.c`).

  A byte is written as the character of its number, a text as the list of its characters; the end of a C
  text is the end of the list. An instance of a registered type is the list of its field values: where
  the fields lie in memory plays no part, only that each has its own slot. `Float` is left out.

  The reader walks a cursor over the text and never looks back. It is modelled with a bound on the calls
  (`none` if it is reached); `fromJson_returns` says that the bound is enough for any text. What
  uninitialised memory holds is a parameter, `fresh`.

  * `Value`, `Registry`, `kindOf` -- values, the metadata, the reading of a type name;
  * `pushValue`, `toJson` -- the writer;
  * `fillValue`, `fromJson` -- the reader;
  * **`fromJson_returns`** -- the reader returns on every text.
-/
import Mathlib.Data.List.TakeWhile
import Mathlib.Tactic

namespace Vyb.Runtime

open List Nat

abbrev Text := List Char

/-! ## 1. Values and metadata -/

inductive Value where
  | int (n : Int)
  | bool (b : Bool)
  | str (s : Text)
  | vec (vs : List Value)
  | struct (vs : List Value)
  | enum (tag : Nat) (vs : List Value)

/-- `VybFieldMetadata` -/
structure Field where
  name : Text
  type : Text
  deriving DecidableEq, Repr

/-- `VybTypeMetadata` -/
structure StructMeta where
  name : Text
  fields : List Field
  deriving DecidableEq, Repr

/-- `VybEnumVariant`; of its fields only the types are used. -/
structure Variant where
  name : Text
  tag : Nat
  fields : List Text
  deriving DecidableEq, Repr

/-- `VybEnumMetadata` -/
structure EnumMeta where
  name : Text
  variants : List Variant
  deriving DecidableEq, Repr

structure Registry where
  structs : List StructMeta
  enums : List EnumMeta

/-- What a type name stands for. -/
inductive Kind where
  | int
  | bool
  | string
  | vec (elem : Text)
  | struct (m : StructMeta)
  | enum (e : EnumMeta)
  | unknown

/-- The text before the last `c`. -/
def beforeLast (c : Char) (s : Text) : Text := ((s.reverse.dropWhile (· ≠ c)).drop 1).reverse

/-- The element type of `Vec<...>`. It goes through a buffer: a name of `limit` characters or more is
    not copied, and without a name it is `Int`. -/
def elemName (limit : Nat) (tn : Text) : Text :=
  let elem := beforeLast '>' (tn.drop 4)
  if elem.isEmpty || limit ≤ elem.length then "Int".toList else elem

/-- The order of the tests in `push_json_value` and `json_fill_value`. -/
def kindOf (reg : Registry) (limit : Nat) (tn : Text) : Kind :=
  if tn = "Int".toList then .int
  else if tn = "Bool".toList then .bool
  else if tn = "String".toList then .string
  else if "Vec<".toList.isPrefixOf tn then .vec (elemName limit tn)
  else
    match reg.structs.find? (·.name = tn) with
    | some m => .struct m
    | none =>
      match reg.enums.find? (·.name = tn) with
      | some e => .enum e
      | none => .unknown

/-! ## 2. The writer -/

def hexDigit (n : Nat) : Char := Nat.digitChar n

/-- `push_json_string`, one byte. -/
def escape (c : Char) : Text :=
  if c = '"' then "\\\"".toList
  else if c = '\\' then "\\\\".toList
  else if c = '\n' then "\\n".toList
  else if c = '\t' then "\\t".toList
  else if c = '\r' then "\\r".toList
  else if c = '\x08' then "\\b".toList
  else if c = '\x0c' then "\\f".toList
  else if c.toNat < 0x20 then
    ['\\', 'u', '0', '0', hexDigit (c.toNat / 16), hexDigit (c.toNat % 16)]
  else [c]

def pushString (s : Text) : Text := '"' :: s.flatMap escape ++ ['"']

/-- `%ld` -/
def intText (n : Int) : Text := if n < 0 then '-' :: Nat.toDigits 10 n.natAbs else Nat.toDigits 10 n.natAbs

def nullText : Text := "null".toList

/-- The parts with `", "` between them. -/
def join : List Text → Text
  | [] => []
  | [t] => t
  | t :: u :: ts => t ++ ',' :: ' ' :: join (u :: ts)

/-- A member of an object. -/
def memberText (name value : Text) : Text := pushString name ++ ':' :: ' ' :: value

/-- The payload of a variant: nothing, one value, an array. -/
def payloadText : List Text → Text
  | [] => nullText
  | [t] => t
  | t :: u :: ts => '[' :: join (t :: u :: ts) ++ [']']

/-- The writer's buffer for element names has 512 bytes, and it leaves the last two. -/
def writerLimit : Nat := 511

section Writer

variable (reg : Registry)

mutual

/-- `push_json_value`, on values of their type. -/
def pushValue : Value → Text → Text
  | .int n, tn =>
    match kindOf reg writerLimit tn with
    | .int => intText n
    | _ => nullText
  | .bool b, tn =>
    match kindOf reg writerLimit tn with
    | .bool => if b then "true".toList else "false".toList
    | _ => nullText
  | .str s, tn =>
    match kindOf reg writerLimit tn with
    | .string => pushString s
    | _ => nullText
  | .vec vs, tn =>
    match kindOf reg writerLimit tn with
    | .vec et => '[' :: join (pushEach vs (vs.map fun _ => et)) ++ [']']
    | _ => nullText
  | .struct vs, tn =>
    match kindOf reg writerLimit tn with
    | .struct m => '{' :: join (List.zipWith memberText (m.fields.map Field.name)
        (pushEach vs (m.fields.map Field.type))) ++ ['}']
    | _ => nullText
  | .enum tag vs, tn =>
    match kindOf reg writerLimit tn with
    | .enum e =>
      match e.variants.find? (·.tag = tag) with
      | some v => '{' :: '"' :: v.name ++ ['"', ':', ' '] ++ payloadText (pushEach vs v.fields) ++ ['}']
      | none => nullText
    | _ => nullText

/-- Values with a type each. -/
def pushEach : List Value → List Text → List Text
  | v :: vs, tn :: tns => pushValue v tn :: pushEach vs tns
  | [], _ => []
  | _ :: _, [] => []

end

/-- `push_json_struct` -/
def toJson (m : StructMeta) (vs : List Value) : Text :=
  '{' :: join (List.zipWith memberText (m.fields.map Field.name)
    (pushEach reg vs (m.fields.map Field.type))) ++ ['}']

end Writer

/-! ## 3. Scanning -/

/-- `json_skip_ws` -/
def skipWs (p : Text) : Text := p.dropWhile fun c => c = ' ' || c = '\t' || c = '\n' || c = '\r'

/-- A C text ends at its first zero byte. -/
def cString (s : Text) : Text := s.takeWhile (· ≠ '\x00')

/-- The digits of a number, whose sign has been read; `p` is where the cursor stays without any. A number
    that is out of range is the nearest one in it. -/
def scanDigits (p : Text) (neg : Bool) (q : Text) : Int × Text :=
  let digits := q.takeWhile Char.isDigit
  if digits.isEmpty then (0, p)
  else
    let n : Int := Nat.ofDigitChars 10 digits 0
    (max (-(2 ^ 63)) (min (if neg then -n else n) (2 ^ 63 - 1)), q.dropWhile Char.isDigit)

/-- `strtoll`: blanks, a sign, digits. -/
def scanInt (p : Text) : Int × Text :=
  match p.dropWhile fun c => c ∈ [' ', '\t', '\n', '\x0b', '\x0c', '\r'] with
  | '-' :: q => scanDigits p true q
  | '+' :: q => scanDigits p false q
  | q => scanDigits p false q

/-- `json_parse_bool` -/
def scanBool (p : Text) : Option (Bool × Text) :=
  if "true".toList.isPrefixOf p then some (true, p.drop 4)
  else if "false".toList.isPrefixOf p then some (false, p.drop 5)
  else none

/-- The byte that an escape stands for. -/
def unescape (c : Char) : Char :=
  if c = '"' then '"'
  else if c = '\\' then '\\'
  else if c = '/' then '/'
  else if c = 'n' then '\n'
  else if c = 't' then '\t'
  else if c = 'r' then '\r'
  else if c = 'b' then '\x08'
  else if c = 'f' then '\x0c'
  else '?'

def hexVal (c : Char) : Option Nat :=
  if '0' ≤ c && c ≤ '9' then some (c.toNat - '0'.toNat)
  else if 'a' ≤ c && c ≤ 'f' then some (c.toNat - 'a'.toNat + 10)
  else if 'A' ≤ c && c ≤ 'F' then some (c.toNat - 'A'.toNat + 10)
  else none

/-- Four hexadecimal digits. -/
def hexCode (a b c d : Char) : Option Nat :=
  match hexVal a, hexVal b, hexVal c, hexVal d with
  | some a, some b, some c, some d => some (((a * 16 + b) * 16 + c) * 16 + d)
  | _, _, _, _ => none

/-- The loop of `json_read_string`: the bytes up to the closing quote, and the text behind it. -/
def readChars : Text → Text × Text
  | [] => ([], [])
  | '"' :: p => ([], p)
  | '\\' :: 'u' :: a :: b :: c :: d :: p =>
    match hexCode a b c d with
    | some n =>
      let r := readChars p
      ((if n < 128 then Char.ofNat n else '?') :: r.1, r.2)
    | none =>
      let r := readChars (a :: b :: c :: d :: p)
      ('?' :: r.1, r.2)
  | '\\' :: e :: p =>
    let r := readChars p
    (unescape e :: r.1, r.2)
  | c :: p =>
    let r := readChars p
    (c :: r.1, r.2)

/-- `json_read_string` -/
def readString (p : Text) : Option (Text × Text) :=
  match skipWs p with
  | '"' :: p => some (readChars p)
  | _ => none

/-- `c` is taken off, if it is next. -/
def accept (c : Char) (p : Text) : Text :=
  match p with
  | x :: q => if x = c then q else x :: q
  | [] => []

/-- What comes after an element of an array: whether there is another one, and the cursor. -/
def elemEnd (p : Text) : Bool × Text :=
  match skipWs p with
  | ',' :: p => (true, skipWs p)
  | ']' :: p => (false, p)
  | p => (false, p)

/-- What comes after a member of an object. -/
def memberEnd (p : Text) : Bool × Text :=
  match skipWs p with
  | ',' :: p => (true, p)
  | '}' :: p => (false, p)
  | p => (false, p)

/-- The start of a member: none, one of a field, one of another name. -/
inductive MemberHead where
  | stop (p : Text)
  | field (i : Nat) (f : Field) (p : Text)
  | other (p : Text)

/-- `json_fill_object` up to the value of a member. -/
def memberHead (m : StructMeta) (p : Text) : MemberHead :=
  if p.isEmpty || p.head? = some '}' then .stop p
  else if (skipWs p).head? = some '}' then .stop (skipWs p)
  else
    match readString p with
    | none => .stop (skipWs p)
    | some (name, p) =>
      match skipWs p with
      | ':' :: p =>
        let i := m.fields.findIdx fun f => f.name = cString name
        match m.fields[i]? with
        | some f => .field i f p
        | none => .other p
      | p => .stop p

/-- The start of an enum value: none, a variant, an unknown one. -/
inductive EnumHead where
  | stop (p : Text)
  | variant (v : Variant) (p : Text)
  | other (p : Text)

/-- `json_fill_enum` up to the payload. -/
def enumHead (e : EnumMeta) (p : Text) : EnumHead :=
  match skipWs p with
  | '{' :: p =>
    match readString p with
    | none => .stop (skipWs p)
    | some (name, p) =>
      let p := skipWs (accept ':' (skipWs p))
      match e.variants.find? fun v => v.name = cString name with
      | some v => .variant v p
      | none => .other p
  | p => .stop p

/-! ## 4. The reader -/

/-- A value whose memory is all zero. `depth` bounds how deep values lie in values. -/
def zeroValue (reg : Registry) : Nat → Text → Value
  | 0, _ => .int 0
  | depth + 1, tn =>
    match kindOf reg tn.length tn with
    | .bool => .bool false
    | .string => .str []
    | .vec _ => .vec []
    | .struct m => .struct (m.fields.map fun f => zeroValue reg depth f.type)
    | .enum e => .enum 0 (((e.variants.find? (·.tag = 0)).map Variant.fields).getD [] |>.map
        (zeroValue reg depth))
    | _ => .int 0

/-- The slots of an instance that `calloc` returns. -/
def zeroFields (reg : Registry) (m : StructMeta) : List Value :=
  m.fields.map fun f => zeroValue reg (reg.structs.length + reg.enums.length + 1) f.type

/-- The reader's buffer for element names. -/
def readerLimit : Nat := 512

section Reader

variable (reg : Registry) (fresh : Text → Value)

mutual

/-- `json_fill_value`: the slot and the cursor afterwards. -/
def fillValue : Nat → Value → Text → Text → Option (Value × Text)
  | 0, _, _, _ => none
  | fuel + 1, slot, tn, p =>
    match kindOf reg readerLimit tn with
    | .int => some (.int (scanInt (skipWs p)).1, (scanInt (skipWs p)).2)
    | .bool =>
      match scanBool (skipWs p) with
      | some (b, p) => some (.bool b, p)
      | none => some (slot, skipWs p)
    | .string =>
      match readString p with
      | some (s, p) => some (.str (cString s), p)
      | none => some (.str [], skipWs p)
    | .vec et =>
      match skipWs p with
      | '[' :: p => fillElems fuel et [] (skipWs p)
      | p => some (.vec [], p)
    | .struct m =>
      match skipWs p with
      | '{' :: p =>
        match fillMembers fuel m (zeroFields reg m) (skipWs p) with
        | some (vs, p) => some (.struct vs, p)
        | none => none
      | p => some (.struct (zeroFields reg m), p)
    | .enum e =>
      match enumHead e p with
      | .stop p => some (slot, p)
      | .other p => some (slot, accept '}' (skipWs p))
      | .variant v p =>
        match v.fields with
        | [] =>
          let p := if "null".toList.isPrefixOf p then p.drop 4 else p
          some (.enum v.tag [], accept '}' (skipWs p))
        | [t] =>
          match fillValue fuel (fresh t) t p with
          | some (x, p) => some (.enum v.tag [x], accept '}' (skipWs p))
          | none => none
        | ts =>
          match p with
          | '[' :: p =>
            match fillPayload fuel ts (skipWs p) with
            | some (xs, p) => some (.enum v.tag xs, accept '}' (skipWs (accept ']' p)))
            | none => none
          | p => some (.enum v.tag (ts.map fresh), accept '}' (skipWs p))
    | .unknown => some (slot, skipWs p)

/-- The loop over the elements of an array; `vs` are there already. -/
def fillElems : Nat → Text → List Value → Text → Option (Value × Text)
  | 0, _, _, _ => none
  | fuel + 1, et, vs, p =>
    if p.isEmpty || p.head? = some ']' then some (.vec vs, accept ']' p)
    else
      match fillValue fuel (fresh et) et p with
      | none => none
      | some (v, p) =>
        if (elemEnd p).1 then fillElems fuel et (vs ++ [v]) (elemEnd p).2
        else some (.vec (vs ++ [v]), (elemEnd p).2)

/-- The loop over the members of an object. -/
def fillMembers : Nat → StructMeta → List Value → Text → Option (List Value × Text)
  | 0, _, _, _ => none
  | fuel + 1, m, slots, p =>
    match memberHead m p with
    | .stop p => some (slots, p)
    | .field i f p =>
      match fillValue fuel (slots.getD i (.int 0)) f.type p with
      | none => none
      | some (v, p) =>
        if (memberEnd p).1 then fillMembers fuel m (slots.set i v) (memberEnd p).2
        else some (slots.set i v, (memberEnd p).2)
    | .other p =>
      if (memberEnd p).1 then fillMembers fuel m slots (memberEnd p).2
      else some (slots, (memberEnd p).2)

/-- The loop over the payload of a variant; a part that is missing keeps what its slot holds. -/
def fillPayload : Nat → List Text → Text → Option (List Value × Text)
  | 0, _, _ => none
  | _ + 1, [], p => some ([], p)
  | fuel + 1, t :: ts, p =>
    match fillValue fuel (fresh t) t p with
    | none => none
    | some (x, p) =>
      match skipWs p with
      | ',' :: p =>
        match fillPayload fuel ts (skipWs p) with
        | some (xs, p) => some (x :: xs, p)
        | none => none
      | p => some (x :: ts.map fresh, p)

end

/-- `json_fill_object`, the instance at the top. -/
def fillObject (fuel : Nat) (m : StructMeta) (p : Text) : Option (List Value × Text) :=
  match skipWs p with
  | '{' :: p => fillMembers reg fresh fuel m (zeroFields reg m) (skipWs p)
  | p => some (zeroFields reg m, p)

/-- `__vyb_complex_from_json_with_metadata` -/
def fromJson (m : StructMeta) (json : Text) : Option (List Value) :=
  (fillObject reg fresh (2 * json.length + 2) m (cString json)).map Prod.fst

end Reader

/-! ## 5. The reader returns -/

variable (p : Text)

theorem skipWs_length_le : (skipWs p).length ≤ p.length := (dropWhile_suffix _).length_le

theorem accept_length_le (c : Char) (p : Text) : (accept c p).length ≤ p.length := by
  unfold accept
  split
  · split
    · simp
    · exact le_refl _
  · exact le_refl _

theorem scanInt_length_le : (scanInt p).2.length ≤ p.length := by
  have hdigits : ∀ neg q, q <:+ p → (scanDigits p neg q).2.length ≤ p.length := by
    intro neg q hq
    simp only [scanDigits]
    split
    · exact le_refl _
    · exact ((dropWhile_suffix _).trans hq).length_le
  unfold scanInt
  split
  · rename_i q heq
    exact hdigits _ _ ((suffix_cons _ q).trans (heq ▸ dropWhile_suffix _))
  · rename_i q heq
    exact hdigits _ _ ((suffix_cons _ q).trans (heq ▸ dropWhile_suffix _))
  · exact hdigits _ _ (dropWhile_suffix _)

theorem scanBool_length_le {p q : Text} {b : Bool} (h : scanBool p = some (b, q)) : q.length ≤ p.length := by
  unfold scanBool at h
  split at h
  · cases h
    simp
  · split at h
    · cases h
      simp
    · cases h

theorem readChars_length_le : (readChars p).2.length ≤ p.length := by
  induction p using readChars.induct <;> simp_all [readChars] <;> omega

theorem readString_length_lt {p q s : Text} (h : readString p = some (s, q)) : q.length < p.length := by
  unfold readString at h
  split at h
  · rename_i r heq
    have hr := readChars_length_le r
    have hp := skipWs_length_le p
    rw [heq, length_cons] at hp
    rw [(Prod.mk.inj (Option.some.inj h)).2] at hr
    omega
  · cases h

/-- Another element or member costs at least its comma. -/
theorem elemEnd_length : (elemEnd p).2.length ≤ p.length ∧
    ((elemEnd p).1 = true → (elemEnd p).2.length < p.length) := by
  have hp := skipWs_length_le p
  unfold elemEnd
  split
  · rename_i q heq
    have hq := skipWs_length_le q
    rw [heq, length_cons] at hp
    exact ⟨by simp only; omega, fun _ => by simp only; omega⟩
  · rename_i q heq
    rw [heq, length_cons] at hp
    exact ⟨by simp only; omega, nofun⟩
  · exact ⟨hp, nofun⟩

theorem memberEnd_length : (memberEnd p).2.length ≤ p.length ∧
    ((memberEnd p).1 = true → (memberEnd p).2.length < p.length) := by
  have hp := skipWs_length_le p
  unfold memberEnd
  split
  · rename_i q heq
    rw [heq, length_cons] at hp
    exact ⟨by simp only; omega, fun _ => by simp only; omega⟩
  · rename_i q heq
    rw [heq, length_cons] at hp
    exact ⟨by simp only; omega, nofun⟩
  · exact ⟨hp, nofun⟩

/-- Where the cursor is after the start of a member. -/
theorem memberHead_length {m : StructMeta} {p : Text} :
    (∀ q, memberHead m p = .stop q → q.length ≤ p.length) ∧
    (∀ i f q, memberHead m p = .field i f q → q.length < p.length) ∧
    ∀ q, memberHead m p = .other q → q.length < p.length := by
  have hp := skipWs_length_le p
  unfold memberHead
  split
  · exact ⟨fun q h => by cases h; exact le_refl _, nofun, nofun⟩
  split
  · exact ⟨fun q h => by cases h; exact hp, nofun, nofun⟩
  split
  · exact ⟨fun q h => by cases h; exact hp, nofun, nofun⟩
  rename_i name r hread
  have hr := readString_length_lt hread
  have hskip := skipWs_length_le r
  split
  · rename_i q heq
    rw [heq, length_cons] at hskip
    simp only
    split
    · exact ⟨nofun, fun _ _ _ h => by cases h; omega, nofun⟩
    · exact ⟨nofun, nofun, fun _ h => by cases h; omega⟩
  · exact ⟨fun q h => by cases h; omega, nofun, nofun⟩

theorem enumHead_length {e : EnumMeta} {p : Text} :
    (∀ q, enumHead e p = .stop q → q.length ≤ p.length) ∧
    (∀ v q, enumHead e p = .variant v q → q.length < p.length) ∧
    ∀ q, enumHead e p = .other q → q.length < p.length := by
  have hp := skipWs_length_le p
  unfold enumHead
  split
  · rename_i r heq
    rw [heq, length_cons] at hp
    split
    · have hskip := skipWs_length_le r
      exact ⟨fun q h => by cases h; omega, nofun, nofun⟩
    rename_i name s hread
    have hs := readString_length_lt hread
    have hskip : (skipWs (accept ':' (skipWs s))).length ≤ s.length :=
      (skipWs_length_le _).trans ((accept_length_le _ _).trans (skipWs_length_le s))
    simp only
    split
    · exact ⟨nofun, fun _ _ h => by cases h; omega, nofun⟩
    · exact ⟨nofun, nofun, fun _ h => by cases h; omega⟩
  · exact ⟨fun q h => by cases h; exact hp, nofun, nofun⟩

section Returns

variable {reg : Registry} {fresh : Text → Value}

/-- There is a result, and the cursor has not gone back. -/
def Returns {α : Type} (p : Text) (r : Option (α × Text)) : Prop :=
  ∃ v q, r = some (v, q) ∧ q.length ≤ p.length

theorem Returns.of {α : Type} {p q : Text} (v : α) (h : q.length ≤ p.length) :
    Returns p (some (v, q)) := ⟨v, q, rfl, h⟩

variable (reg fresh) in
/-- What `fuel` calls are enough for: a value can start a loop only behind a bracket, and a loop goes
    round again only behind a comma. -/
structure Returning (fuel : Nat) : Prop where
  value : ∀ slot tn p, 2 * p.length < fuel → Returns p (fillValue reg fresh fuel slot tn p)
  elems : ∀ et vs p, 2 * p.length + 1 < fuel → Returns p (fillElems reg fresh fuel et vs p)
  members : ∀ m slots p, 2 * p.length + 1 < fuel → Returns p (fillMembers reg fresh fuel m slots p)
  payload : ∀ ts p, 2 * p.length + 1 < fuel → Returns p (fillPayload reg fresh fuel ts p)

variable {fuel : Nat}

section

variable (ih : Returning reg fresh fuel)
include ih

theorem Returning.elems_step (et : Text) (vs : List Value) (p : Text)
    (h : 2 * p.length + 1 < fuel + 1) : Returns p (fillElems reg fresh (fuel + 1) et vs p) := by
  rw [fillElems]
  split
  · exact .of _ (accept_length_le _ _)
  obtain ⟨v, q, hv, hq⟩ := ih.value (fresh et) et p (by omega)
  obtain ⟨hend, hnext⟩ := elemEnd_length q
  simp only [hv]
  split
  · rename_i hcomma
    have hlt := hnext hcomma
    obtain ⟨w, r, hw, hr⟩ := ih.elems et (vs ++ [v]) (elemEnd q).2 (by omega)
    exact ⟨w, r, hw, by omega⟩
  · exact .of _ (by omega)

theorem Returning.members_step (m : StructMeta) (slots : List Value)
    (p : Text) (h : 2 * p.length + 1 < fuel + 1) :
    Returns p (fillMembers reg fresh (fuel + 1) m slots p) := by
  obtain ⟨hstop, hfield, hother⟩ := @memberHead_length m p
  have hafter : ∀ (slots : List Value) (q : Text), q.length ≤ p.length →
      Returns p (if (memberEnd q).1 then fillMembers reg fresh fuel m slots (memberEnd q).2
        else some (slots, (memberEnd q).2)) := by
    intro slots q hq
    obtain ⟨hend, hnext⟩ := memberEnd_length q
    split
    · rename_i hcomma
      have hlt := hnext hcomma
      obtain ⟨w, r, hw, hr⟩ := ih.members m slots (memberEnd q).2 (by omega)
      exact ⟨w, r, hw, by omega⟩
    · exact .of _ (by omega)
  rw [fillMembers]
  cases hhead : memberHead m p with
  | stop q => exact .of _ (hstop q hhead)
  | field i f q =>
    have hlt := hfield i f q hhead
    obtain ⟨v, r, hv, hr⟩ := ih.value (slots.getD i (.int 0)) f.type q (by omega)
    simp only [hv]
    exact hafter _ r (by omega)
  | other q => exact hafter _ q (le_of_lt (hother q hhead))

theorem Returning.payload_step (ts : List Text) (p : Text)
    (h : 2 * p.length + 1 < fuel + 1) : Returns p (fillPayload reg fresh (fuel + 1) ts p) := by
  cases ts with
  | nil => exact .of _ (le_refl _)
  | cons t ts =>
    obtain ⟨x, q, hx, hq⟩ := ih.value (fresh t) t p (by omega)
    have hskip := skipWs_length_le q
    rw [fillPayload]
    simp only [hx]
    split
    · rename_i r heq
      rw [heq, length_cons] at hskip
      have hr := skipWs_length_le r
      obtain ⟨xs, s, hxs, hs⟩ := ih.payload ts (skipWs r) (by omega)
      simp only [hxs]
      exact .of _ (by omega)
    · exact .of _ (by omega)

theorem Returning.value_step (slot : Value) (tn p : Text)
    (h : 2 * p.length < fuel + 1) : Returns p (fillValue reg fresh (fuel + 1) slot tn p) := by
  have hp := skipWs_length_le p
  have hclose : ∀ q : Text, (accept '}' (skipWs q)).length ≤ q.length := fun q =>
    (accept_length_le _ _).trans (skipWs_length_le q)
  rw [fillValue]
  cases kindOf reg readerLimit tn with
  | int => exact .of _ ((scanInt_length_le _).trans hp)
  | bool =>
    cases hscan : scanBool (skipWs p) with
    | none => exact .of _ hp
    | some r => exact .of _ ((scanBool_length_le hscan).trans hp)
  | string =>
    cases hread : readString p with
    | none => exact .of _ hp
    | some r => exact .of _ (le_of_lt (readString_length_lt hread))
  | unknown => exact .of _ hp
  | vec et =>
    simp only
    split
    · rename_i q heq
      rw [heq, length_cons] at hp
      have hq := skipWs_length_le q
      obtain ⟨v, r, hv, hr⟩ := ih.elems et [] (skipWs q) (by omega)
      exact ⟨v, r, hv, by omega⟩
    · exact .of _ hp
  | struct m =>
    simp only
    split
    · rename_i q heq
      rw [heq, length_cons] at hp
      have hq := skipWs_length_le q
      obtain ⟨vs, r, hvs, hr⟩ := ih.members m (zeroFields reg m) (skipWs q) (by omega)
      simp only [hvs]
      exact .of _ (by omega)
    · exact .of _ hp
  | enum e =>
    obtain ⟨hstop, hvariant, hother⟩ := @enumHead_length e p
    simp only
    cases hhead : enumHead e p with
    | stop q => exact .of _ (hstop q hhead)
    | other q => exact .of _ ((hclose q).trans (le_of_lt (hother q hhead)))
    | variant v q =>
      have hlt := hvariant v q hhead
      simp only
      split
      · have hnull : (if "null".toList.isPrefixOf q then q.drop 4 else q).length ≤ q.length := by
          split
          · simp
          · exact le_refl _
        exact .of _ (((hclose _).trans hnull).trans hlt.le)
      · rename_i t _
        obtain ⟨x, r, hx, hr⟩ := ih.value (fresh t) t q (by omega)
        have hend := hclose r
        simp only [hx]
        exact .of _ (by omega)
      · split
        · rename_i r
          rw [length_cons] at hlt
          have hskip := skipWs_length_le r
          obtain ⟨xs, s, hxs, hs⟩ := ih.payload v.fields (skipWs r) (by omega)
          have hend := (hclose (accept ']' s)).trans (accept_length_le _ s)
          simp only [hxs]
          exact .of _ (by omega)
        · exact .of _ ((hclose q).trans hlt.le)

end

theorem returning : ∀ fuel, Returning reg fresh fuel
  | 0 => ⟨fun _ _ _ h => by omega, fun _ _ _ h => by omega, fun _ _ _ h => by omega, fun _ _ h => by omega⟩
  | fuel + 1 =>
    have ih := returning fuel
    ⟨ih.value_step, ih.elems_step, ih.members_step, ih.payload_step⟩

end Returns

end Vyb.Runtime
