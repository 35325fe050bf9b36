/-
  Subject:   What the JSON reader makes of the texts that the writer produces.

  The reader takes off exactly the text of a value and stores the value, with every string cut at its
  first zero byte: the string is stored as a C text, with `strlen` for its length.

  * `Typed`, `Regular` -- the values of a type; those without an empty struct inside and without an
    element type whose name does not fit into the writer's buffer;
  * `ReadsBack`, `readsBack` -- the law for one value in front of any rest, by induction on the value;
  * **`json_round_trip_iff`** -- a value comes back exactly if no string of it has a zero byte;
  * `zero_byte_lost` -- two values that do not come back.
-/
import Vyb.Lib.Search
import Vyb.Runtime.Json

namespace Vyb.Runtime

open List Nat

/-! ## 1. Strings and numbers -/

variable {c : Char}

theorem readChars_plain (hquote : c ≠ '"') (hslash : c ≠ '\\') (p : Text) :
    readChars (c :: p) = (c :: (readChars p).1, (readChars p).2) := by
  rw [readChars.eq_def]
  split <;> simp_all

theorem hexCode_control : ∀ n < 32,
    hexCode '0' '0' (hexDigit (n / 16)) (hexDigit (n % 16)) = some n := by decide

theorem readChars_escape (c : Char) (p : Text) :
    readChars (escape c ++ p) = (c :: (readChars p).1, (readChars p).2) := by
  unfold escape
  iterate 7
    split
    · subst c; rfl
  split
  · rename_i hctl
    simp only [cons_append, nil_append]
    rw [readChars, hexCode_control _ hctl]
    simp only [Char.ofNat_toNat]
    rw [if_pos (by omega)]
  · exact readChars_plain (by assumption) (by assumption) p

theorem readChars_push (s p : Text) : readChars (s.flatMap escape ++ '"' :: p) = (s, p) := by
  induction s with
  | nil => rfl
  | cons c s ih => rw [flatMap_cons, append_assoc, readChars_escape, ih]

theorem readChars_name {name : Text} (h : ∀ c ∈ name, c ≠ '"' ∧ c ≠ '\\') (p : Text) :
    readChars (name ++ '"' :: p) = (name, p) := by
  induction name with
  | nil => rfl
  | cons c name ih =>
    obtain ⟨hquote, hslash⟩ := h c mem_cons_self
    rw [cons_append, readChars_plain hquote hslash, ih fun d hd => h d (mem_cons_of_mem c hd)]

/-- Not one of the blanks that the reader skips. -/
def Solid (c : Char) : Prop := c ≠ ' ' ∧ c ≠ '\t' ∧ c ≠ '\n' ∧ c ≠ '\r'

instance : DecidablePred Solid := fun _ => inferInstanceAs (Decidable (_ ∧ _))

theorem skipWs_solid (h : Solid c) (p : Text) : skipWs (c :: p) = c :: p := by
  obtain ⟨h1, h2, h3, h4⟩ := h
  simp [skipWs, h1, h2, h3, h4]

variable (p : Text)

theorem skipWs_blank : skipWs (' ' :: p) = skipWs p := by simp [skipWs]

theorem skipWs_skipWs : ∀ p : Text, skipWs (skipWs p) = skipWs p
  | [] => rfl
  | c :: p => by
    by_cases h : Solid c
    · rw [skipWs_solid h, skipWs_solid h]
    · have hskip : skipWs (c :: p) = skipWs p := by
        simp only [Solid, not_and_or, not_not] at h
        rcases h with rfl | rfl | rfl | rfl <;> rfl
      rw [hskip, skipWs_skipWs p]

theorem readString_quote : readString ('"' :: p) = some (readChars p) := by
  rw [readString, skipWs_solid (by decide)]
  rfl

theorem readString_skipWs : readString (skipWs p) = readString p := by
  rw [readString, readString, skipWs_skipWs]

/-- What follows does not go on with a number. -/
def Ends (p : Text) : Prop := ∀ c, p.head? = some c → c.isDigit = false

variable {q : Text}

theorem scanDigits_push {n : Nat} {neg : Bool} {z : Int} (hq : Ends q)
    (hz : (if neg then -(n : Int) else n) = z) (hlo : -(2 ^ 63) ≤ z) (hhi : z < 2 ^ 63) :
    scanDigits p neg (Nat.toDigits 10 n ++ q) = (z, q) := by
  have hdigits : ∀ c ∈ toDigits 10 n, c.isDigit = true := fun c hc =>
    isDigit_of_mem_toDigits (by omega) (by omega) hc
  obtain ⟨htake, hdrop⟩ := Lib.span_append hdigits hq
  simp only [scanDigits, htake, hdrop, ofDigitChars_ten_toDigits, hz]
  rw [if_neg (by simp [toDigits_ne_nil])]
  congr 1
  omega

theorem scanInt_push {n : Int} (hlo : -(2 ^ 63) ≤ n) (hhi : n < 2 ^ 63) {p : Text} (hp : Ends p) :
    scanInt (intText n ++ p) = (n, p) := by
  unfold intText
  by_cases hneg : n < 0
  · have hz : (if true then -(n.natAbs : Int) else n.natAbs) = n := by
      rw [if_pos rfl]
      omega
    rw [if_pos hneg]
    exact scanDigits_push _ hp hz hlo hhi
  · have hz : (if false then -(n.natAbs : Int) else n.natAbs) = n := by
      rw [if_neg Bool.false_ne_true]
      omega
    rw [if_neg hneg]
    -- the first digit is neither a blank nor a sign
    obtain ⟨d, ds, hds⟩ := exists_cons_of_ne_nil (toDigits_ne_nil (n := n.natAbs) (b := 10))
    have hd : d.isDigit = true := isDigit_of_mem_toDigits (b := 10) (by omega) (by omega) (hds ▸ mem_cons_self)
    have hblank : d ∉ [' ', '\t', '\n', '\x0b', '\x0c', '\r'] := by
      intro hmem
      simp only [mem_cons, not_mem_nil, or_false] at hmem
      rcases hmem with rfl | rfl | rfl | rfl | rfl | rfl <;> cases hd
    have hscan := scanDigits_push (toDigits 10 n.natAbs ++ p) hp hz hlo hhi
    rw [hds] at hscan ⊢
    unfold scanInt
    rw [cons_append, dropWhile_cons_of_neg (by simpa using hblank)]
    split
    iterate 2
      rename_i heq
      cases (cons.inj heq).1
      cases hd
    · exact hscan

/-! ## 2. Types and their values -/

/-- The names of the metadata are those of a program: distinct, without a zero byte, and for variants,
    which are written without escapes, without a quote and a backslash. -/
structure StructMeta.WellFormed (m : StructMeta) : Prop where
  distinct : (m.fields.map Field.name).Nodup
  names : ∀ f ∈ m.fields, '\x00' ∉ f.name

structure EnumMeta.WellFormed (e : EnumMeta) : Prop where
  distinctNames : (e.variants.map Variant.name).Nodup
  distinctTags : (e.variants.map Variant.tag).Nodup
  names : ∀ v ∈ e.variants, '\x00' ∉ v.name ∧ ∀ c ∈ v.name, c ≠ '"' ∧ c ≠ '\\'

structure Registry.WellFormed (reg : Registry) : Prop where
  structs : ∀ m ∈ reg.structs, m.WellFormed
  enums : ∀ e ∈ reg.enums, e.WellFormed

/-- What a type name stands for, without a buffer. -/
def typeOf (reg : Registry) (tn : Text) : Kind := kindOf reg tn.length tn

section Types

variable (reg : Registry)

mutual

/-- `v` is a value of the type `tn`. -/
def Typed : Value → Text → Prop
  | .int n, tn => typeOf reg tn = .int ∧ -(2 ^ 63) ≤ n ∧ n < 2 ^ 63
  | .bool _, tn => typeOf reg tn = .bool
  | .str _, tn => typeOf reg tn = .string
  | .vec vs, tn => ∃ et, typeOf reg tn = .vec et ∧ TypedEach vs (vs.map fun _ => et)
  | .struct vs, tn => ∃ m, typeOf reg tn = .struct m ∧ TypedEach vs (m.fields.map Field.type)
  | .enum tag vs, tn => ∃ e v, typeOf reg tn = .enum e ∧ v ∈ e.variants ∧ v.tag = tag ∧
      TypedEach vs v.fields

def TypedEach : List Value → List Text → Prop
  | [], [] => True
  | v :: vs, tn :: tns => Typed v tn ∧ TypedEach vs tns
  | [], _ :: _ => False
  | _ :: _, [] => False

end

mutual

/-- No struct inside `v` is empty, and the names of its element types fit into the writer's buffer. -/
def Regular : Value → Text → Prop
  | .vec vs, tn => ∀ et, typeOf reg tn = .vec et → et.length < writerLimit ∧
      RegularEach vs (vs.map fun _ => et)
  | .struct vs, tn => vs ≠ [] ∧
      ∀ m, typeOf reg tn = .struct m → RegularEach vs (m.fields.map Field.type)
  | .enum tag vs, tn => ∀ e v, typeOf reg tn = .enum e → v ∈ e.variants → v.tag = tag →
      RegularEach vs v.fields
  | _, _ => True

def RegularEach : List Value → List Text → Prop
  | v :: vs, tn :: tns => Regular v tn ∧ RegularEach vs tns
  | [], _ => True
  | _ :: _, [] => True

end

end Types

mutual

/-- `v` with its strings cut at their first zero bytes. -/
def cut : Value → Value
  | .int n => .int n
  | .bool b => .bool b
  | .str s => .str (cString s)
  | .vec vs => .vec (cutAll vs)
  | .struct vs => .struct (cutAll vs)
  | .enum tag vs => .enum tag (cutAll vs)

def cutAll : List Value → List Value
  | [] => []
  | v :: vs => cut v :: cutAll vs

end

mutual

/-- No string of `v` has a zero byte. -/
def NoZero : Value → Prop
  | .str s => '\x00' ∉ s
  | .vec vs => NoZeroAll vs
  | .struct vs => NoZeroAll vs
  | .enum _ vs => NoZeroAll vs
  | _ => True

def NoZeroAll : List Value → Prop
  | [] => True
  | v :: vs => NoZero v ∧ NoZeroAll vs

end

theorem cString_eq_self_iff {s : Text} : cString s = s ↔ '\x00' ∉ s := by
  rw [cString, takeWhile_eq_self_iff]
  constructor
  · intro h hmem
    simpa using h _ hmem
  · intro h c hc
    simpa using fun heq : c = '\x00' => h (heq ▸ hc)

mutual

theorem cut_eq_self_iff : ∀ v : Value, cut v = v ↔ NoZero v
  | .int n | .bool b => by simp [cut, NoZero]
  | .str s => by rw [cut, NoZero, Value.str.injEq, cString_eq_self_iff]
  | .vec vs => by rw [cut, NoZero, Value.vec.injEq, cutAll_eq_self_iff vs]
  | .struct vs => by rw [cut, NoZero, Value.struct.injEq, cutAll_eq_self_iff vs]
  | .enum tag vs => by
    rw [cut, NoZero, Value.enum.injEq, cutAll_eq_self_iff vs]
    simp

theorem cutAll_eq_self_iff : ∀ vs : List Value, cutAll vs = vs ↔ NoZeroAll vs
  | [] => by simp [cutAll, NoZeroAll]
  | v :: vs => by rw [cutAll, NoZeroAll, cons.injEq, cut_eq_self_iff v, cutAll_eq_self_iff vs]

end

variable {m : StructMeta}

section Kinds

variable {reg : Registry} {tn : Text}

theorem length_beforeLast_le (c : Char) (s : Text) : (beforeLast c s).length ≤ s.length := by
  have h := (dropWhile_suffix (l := s.reverse) (· ≠ c)).length_le
  rw [length_reverse] at h
  simp only [beforeLast, length_reverse, length_drop]
  omega

variable {limit : Nat}

/-- A buffer that is large enough for the element type makes no difference. -/
theorem elemName_eq (hvec : "Vec<".toList <+: tn) (hfit : (elemName tn.length tn).length < limit) :
    elemName limit tn = elemName tn.length tn := by
  have hlen : (beforeLast '>' (tn.drop 4)).length < tn.length := by
    have h := length_beforeLast_le '>' (tn.drop 4)
    have h4 : 4 ≤ tn.length := hvec.length_le
    rw [length_drop] at h
    omega
  unfold elemName at hfit ⊢
  by_cases hempty : beforeLast '>' (tn.drop 4) = []
  · simp [hempty]
  · have hnot : ¬ tn.length ≤ (beforeLast '>' (tn.drop 4)).length := Nat.not_le_of_lt hlen
    simp only [List.isEmpty_iff, hempty, hnot, decide_false, Bool.or_false, if_false] at hfit ⊢
    simp [hempty, Nat.not_le_of_lt hfit]

theorem kindOf_eq_typeOf {k : Kind} (h : typeOf reg tn = k) (hfit : ∀ et, k = .vec et → et.length < limit) :
    kindOf reg limit tn = k := by
  unfold typeOf kindOf at h
  unfold kindOf
  split
  · rwa [if_pos (by assumption)] at h
  rename_i hint
  rw [if_neg hint] at h
  split
  · rwa [if_pos (by assumption)] at h
  rename_i hbool
  rw [if_neg hbool] at h
  split
  · rwa [if_pos (by assumption)] at h
  rename_i hstring
  rw [if_neg hstring] at h
  split
  · rename_i hvec
    rw [if_pos hvec] at h
    rw [← h, elemName_eq ( isPrefixOf_iff_prefix.mp hvec) (hfit _ h.symm)]
  · rename_i hvec
    rwa [if_neg hvec] at h

/-- A type that is no `Vec` reads the same in every buffer. -/
theorem kindOf_of_typeOf {k : Kind} (h : typeOf reg tn = k) (hk : ∀ et, k ≠ .vec et) (limit : Nat) :
    kindOf reg limit tn = k :=
  kindOf_eq_typeOf h fun et heq => absurd heq (hk et)

theorem kindOf_struct (h : kindOf reg limit tn = .struct m) : m ∈ reg.structs := by
  unfold kindOf at h
  repeat' split at h
  all_goals cases h
  exact mem_of_find?_eq_some (by assumption)

theorem kindOf_enum {e : EnumMeta} (h : kindOf reg limit tn = .enum e) : e ∈ reg.enums := by
  unfold kindOf at h
  repeat' split at h
  all_goals cases h
  exact mem_of_find?_eq_some (by assumption)

end Kinds

/-! ## 3. One value in front of a rest -/

section Reader

variable (reg : Registry) (fresh : Text → Value)

/-- The reader takes the text of `v` off any text and stores `v`, its strings cut. -/
def ReadsBack (v : Value) (tn : Text) : Prop := ∀ (fuel : Nat) (slot : Value) (rest : Text), Ends rest →
  (pushValue reg v tn).length < fuel →
  fillValue reg fresh fuel slot tn (pushValue reg v tn ++ rest) = some (cut v, rest)

variable {reg fresh}

theorem enumHead_skipWs (e : EnumMeta) (p : Text) : enumHead e (skipWs p) = enumHead e p := by
  rw [enumHead, enumHead, skipWs_skipWs]

variable (fuel : Nat)

theorem fillValue_skipWs (slot : Value) (tn p : Text) :
    fillValue reg fresh fuel slot tn (skipWs p) = fillValue reg fresh fuel slot tn p := by
  cases fuel with
  | zero => simp only [fillValue]
  | succ fuel => simp only [fillValue, skipWs_skipWs, readString_skipWs, enumHead_skipWs]

/-- The first byte of a value: no blank, and none that ends an array or an object. -/
def Starts (c : Char) : Prop := Solid c ∧ c ≠ ']' ∧ c ≠ '}'

instance : DecidablePred Starts := fun _ => inferInstanceAs (Decidable (_ ∧ _))

theorem starts_digit (h : c.isDigit = true) : Starts c := by
  refine ⟨⟨?_, ?_, ?_, ?_⟩, ?_, ?_⟩ <;> (rintro rfl; cases h)

theorem nullText_starts : ∃ c t, nullText = c :: t ∧ Starts c := ⟨'n', _, rfl, by decide⟩

theorem intText_starts (n : Int) : ∃ c t, intText n = c :: t ∧ Starts c := by
  unfold intText
  split
  · exact ⟨'-', _, rfl, by decide⟩
  · obtain ⟨d, ds, hds⟩ := exists_cons_of_ne_nil (toDigits_ne_nil (n := n.natAbs) (b := 10))
    refine ⟨d, ds, hds, starts_digit ?_⟩
    exact isDigit_of_mem_toDigits (b := 10) (by omega) (by omega) (hds ▸ mem_cons_self)

theorem pushValue_starts (v : Value) (tn : Text) : ∃ c t, pushValue reg v tn = c :: t ∧ Starts c := by
  cases v with
  | int n =>
    rw [pushValue]
    split
    · exact intText_starts n
    · exact nullText_starts
  | bool b =>
    rw [pushValue]
    split
    · cases b
      · exact ⟨'f', _, rfl, by decide⟩
      · exact ⟨'t', _, rfl, by decide⟩
    · exact nullText_starts
  | str s =>
    rw [pushValue]
    split
    · exact ⟨'"', _, rfl, by decide⟩
    · exact nullText_starts
  | vec vs =>
    rw [pushValue]
    split
    · exact ⟨'[', _, rfl, by decide⟩
    · exact nullText_starts
  | struct vs =>
    rw [pushValue]
    split
    · exact ⟨'{', _, rfl, by decide⟩
    · exact nullText_starts
  | enum tag vs =>
    rw [pushValue]
    split
    · split
      · exact ⟨'{', _, rfl, by decide⟩
      · exact nullText_starts
    · exact nullText_starts

theorem skipWs_pushValue (v : Value) (tn p : Text) :
    skipWs (pushValue reg v tn ++ p) = pushValue reg v tn ++ p := by
  obtain ⟨c, t, h, hc⟩ := @pushValue_starts reg v tn
  rw [h, cons_append, skipWs_solid hc.1]

theorem ends_cons (h : c.isDigit = false) (p : Text) : Ends (c :: p) := fun d hd => by
  rwa [← Option.some.inj hd]

theorem join_cons (t : Text) (ts : List Text) : ∃ q, join (t :: ts) = t ++ q := by
  cases ts with
  | nil => exact ⟨[], by simp [join]⟩
  | cons u us => exact ⟨_, rfl⟩

variable {fuel : Nat}

theorem fillElems_step {v : Value} {et : Text} (hv : ReadsBack reg fresh v et) (hq : Ends q)
    (hfuel : (pushValue reg v et).length < fuel) (acc : List Value) :
    fillElems reg fresh (fuel + 1) et acc (pushValue reg v et ++ q) =
      if (elemEnd q).1 then fillElems reg fresh fuel et (acc ++ [cut v]) (elemEnd q).2
      else some (.vec (acc ++ [cut v]), (elemEnd q).2) := by
  obtain ⟨c, t, h, -, hbracket, -⟩ := @pushValue_starts reg v et
  rw [fillElems, hv fuel _ q hq hfuel, h, cons_append, if_neg (by simp [hbracket])]

theorem skipWs_join (v : Value) (t : Text) (vs : List Value) (ts : List Text) (rest : Text) :
    skipWs (' ' :: (join (pushEach reg (v :: vs) (t :: ts)) ++ rest)) = join (pushEach reg (v :: vs) (t :: ts)) ++ rest := by
  obtain ⟨q, hq⟩ := join_cons (pushValue reg v t) (pushEach reg vs ts)
  rw [skipWs_blank, pushEach, hq, append_assoc, skipWs_pushValue]

theorem fillElems_reads {et : Text} : ∀ {vs : List Value} {fuel : Nat} {acc : List Value} {rest : Text},
    vs ≠ [] → (∀ v ∈ vs, ReadsBack reg fresh v et) →
    (join (pushEach reg vs (vs.map fun _ => et))).length + 1 < fuel →
    fillElems reg fresh fuel et acc (join (pushEach reg vs (vs.map fun _ => et)) ++ ']' :: rest) =
      some (.vec (acc ++ cutAll vs), rest)
  | [v], fuel + 1, acc, rest, _, hread, hfuel => by
    simp only [map_cons, map_nil, pushEach, join] at hfuel ⊢
    rw [fillElems_step (hread v mem_cons_self) (ends_cons rfl _) (by omega)]
    rfl
  | v :: w :: vs, fuel + 1, acc, rest, _, hread, hfuel => by
    have hjoin : join (pushEach reg (v :: w :: vs) ((v :: w :: vs).map fun _ => et)) =
        pushValue reg v et ++ ',' :: ' ' :: join (pushEach reg (w :: vs) ((w :: vs).map fun _ => et)) :=
      rfl
    rw [hjoin] at hfuel ⊢
    simp only [length_append, length_cons] at hfuel
    rw [append_assoc, cons_append, cons_append,
      fillElems_step (hread v mem_cons_self) (ends_cons rfl _) (by omega)]
    have hend : elemEnd (',' :: ' ' :: (join (pushEach reg (w :: vs) ((w :: vs).map fun _ => et)) ++
        ']' :: rest)) = (true, _) := congrArg (Prod.mk true) (skipWs_join w et vs (vs.map fun _ => et) _)
    rw [hend, ← map_cons (f := fun _ => et), if_pos rfl, fillElems_reads (cons_ne_nil _ _)
      (fun x hx => hread x (mem_cons_of_mem _ hx)) (by omega), cutAll, append_assoc]
    rfl

theorem fillPayload_reads : ∀ {vs : List Value} {ts : List Text} {fuel : Nat} {rest : Text}, vs ≠ [] →
    List.Forall₂ (ReadsBack reg fresh) vs ts → (join (pushEach reg vs ts)).length + 1 < fuel →
    fillPayload reg fresh fuel ts (join (pushEach reg vs ts) ++ ']' :: rest) =
      some (cutAll vs, ']' :: rest)
  | [v], [t], fuel + 1, rest, _, .cons hv .nil, hfuel => by
    simp only [pushEach, join] at hfuel ⊢
    rw [fillPayload, hv fuel _ _ (ends_cons rfl _) (by omega)]
    rfl
  | v :: w :: vs, t :: u :: ts, fuel + 1, rest, _, .cons hv hrest, hfuel => by
    have hjoin : join (pushEach reg (v :: w :: vs) (t :: u :: ts)) =
        pushValue reg v t ++ ',' :: ' ' :: join (pushEach reg (w :: vs) (u :: ts)) := rfl
    rw [hjoin] at hfuel ⊢
    simp only [length_append, length_cons] at hfuel
    rw [append_assoc, cons_append, cons_append, fillPayload,
      hv fuel _ _ (ends_cons rfl _) (by omega)]
    simp only [skipWs_solid (c := ',') (by decide), skipWs_join]
    rw [fillPayload_reads (cons_ne_nil _ _) hrest (by omega)]
    rfl

/-! ## 4. The members of an object -/

/-- A member with its field and the index of it. -/
abbrev Member := (Field × Value) × Nat

variable (reg) in
def Member.text (k : Member) : Text := memberText k.1.1.name (pushValue reg k.1.2 k.1.1.type)

/-- What a member does to the slots. -/
def Member.store (slots : List Value) (k : Member) : List Value := slots.set k.2 (cut k.1.2)

/-- The member is one of `m`, and its value is read back. -/
structure Member.Of (reg : Registry) (fresh : Text → Value) (m : StructMeta) (k : Member) : Prop where
  field : m.fields[k.2]? = some k.1.1
  reads : ReadsBack reg fresh k.1.2 k.1.1.type

theorem memberHead_skipWs (m : StructMeta) : ∀ p : Text, memberHead m (skipWs p) = memberHead m p
  | [] => rfl
  | c :: p => by
    by_cases hc : Solid c
    · rw [skipWs_solid hc]
    have hbrace : c ≠ '}' := fun h => hc (h ▸ by decide)
    have hread := readString_skipWs (c :: p)
    simp only [memberHead, skipWs_skipWs, hread]
    cases hq : skipWs (c :: p) with
    | nil =>
      rw [hq] at hread
      have hnone : readString (c :: p) = none := hread.symm
      simp [hnone, hbrace]
    | cons d q =>
      by_cases hd : d = '}'
      · simp [hd, hbrace]
      · simp [hd, hbrace]

theorem fillMembers_skipWs (m : StructMeta) (slots : List Value) (p : Text) :
    fillMembers reg fresh fuel m slots (skipWs p) = fillMembers reg fresh fuel m slots p := by
  cases fuel with
  | zero => simp only [fillMembers]
  | succ fuel => simp only [fillMembers, memberHead_skipWs]

attribute [local simp] memberText zeroFields

theorem memberHead_name (name t : Text) :
    memberHead m (memberText name t) =
      match m.fields[m.fields.findIdx fun f => f.name = cString name]? with
      | some f => .field (m.fields.findIdx fun f => f.name = cString name) f (' ' :: t)
      | none => .other (' ' :: t) := by
  have htext : memberText name t = '"' :: (name.flatMap escape ++ '"' :: ':' :: ' ' :: t) := by
    simp [pushString]
  rw [htext]
  simp only [memberHead, readString_quote, readChars_push, skipWs_solid (c := '"') (by decide)]
  rfl

variable {k : Member}

theorem memberHead_member (hm : m.WellFormed) (hk : m.fields[k.2]? = some k.1.1) (t : Text) :
    memberHead m (memberText k.1.1.name t) = .field k.2 k.1.1 (' ' :: t) := by
  obtain ⟨hlt, hget⟩ := List.getElem?_eq_some_iff.mp hk
  have hname : cString k.1.1.name = k.1.1.name :=
    cString_eq_self_iff.mpr (hm.names _ (mem_of_getElem? hk))
  have hidx : (m.fields.findIdx fun f => f.name = k.1.1.name) = k.2 := by
    refine (findIdx_eq hlt).mpr ⟨by simp [hget], fun j hj => ?_⟩
    have hne := pairwise_iff_getElem.mp (pairwise_map.mp hm.distinct) j k.2 (by omega) hlt hj
    rw [hget] at hne
    simpa using hne
  rw [memberHead_name, hname, hidx, hk]

theorem fillMembers_step (hm : m.WellFormed) (hk : k.Of reg fresh m) (hq : Ends q)
    (hfuel : (pushValue reg k.1.2 k.1.1.type).length < fuel) (slots : List Value) :
    fillMembers reg fresh (fuel + 1) m slots (k.text reg ++ q) =
      if (memberEnd q).1 then fillMembers reg fresh fuel m (k.store slots) (memberEnd q).2
      else some (k.store slots, (memberEnd q).2) := by
  have htext : k.text reg ++ q =
      memberText k.1.1.name (pushValue reg k.1.2 k.1.1.type ++ q) := by
    simp [Member.text]
  rw [htext, fillMembers, memberHead_member hm hk.field]
  simp only
  rw [← fillValue_skipWs, skipWs_blank, fillValue_skipWs, hk.reads fuel _ q hq hfuel]
  rfl

/-- Members that are followed by others. -/
theorem fillMembers_run {m : StructMeta} (hm : m.WellFormed) {fuel : Nat} {q : Text} :
    ∀ {ks : List Member} {slots : List Value}, (∀ k ∈ ks, k.Of reg fresh m) →
    (∀ k ∈ ks, (pushValue reg k.1.2 k.1.1.type).length < fuel) →
    fillMembers reg fresh (fuel + ks.length) m slots (ks.flatMap (fun k => k.text reg ++ [',', ' ']) ++ q) =
      fillMembers reg fresh fuel m (ks.foldl Member.store slots) q
  | [], _, _, _ => rfl
  | k :: ks, slots, hks, hfuel => by
    have hk := hfuel k mem_cons_self
    rw [flatMap_cons, length_cons, ← add_assoc, append_assoc, append_assoc]
    show fillMembers reg fresh (fuel + ks.length + 1) m slots
      (k.text reg ++ ',' :: ' ' :: (ks.flatMap (fun k => k.text reg ++ [',', ' ']) ++ q)) = _
    rw [fillMembers_step hm (hks k mem_cons_self) (ends_cons rfl _) (by omega)]
    show fillMembers reg fresh (fuel + ks.length) m (k.store slots)
      (' ' :: (ks.flatMap (fun k => k.text reg ++ [',', ' ']) ++ q)) = _
    rw [← fillMembers_skipWs, skipWs_blank, fillMembers_skipWs,
      fillMembers_run hm (fun k hk => hks k (mem_cons_of_mem _ hk))
        fun k hk => hfuel k (mem_cons_of_mem _ hk)]
    rfl

theorem join_append (ts : List Text) {us : List Text} (hus : us ≠ []) :
    join (ts ++ us) = ts.flatMap (· ++ [',', ' ']) ++ join us := by
  induction ts with
  | nil => rfl
  | cons t ts ih =>
    obtain ⟨w, ws, hws⟩ := exists_cons_of_ne_nil (append_ne_nil_of_right_ne_nil ts hus)
    rw [cons_append, hws, join, ← hws, ih]
    simp

/-- All members of an object, in any order. -/
theorem fillMembers_reads (hm : m.WellFormed) {ks : List Member} (hne : ks ≠ [])
    (hks : ∀ k ∈ ks, k.Of reg fresh m)
    (hfuel : ∀ k ∈ ks, (pushValue reg k.1.2 k.1.1.type).length + ks.length < fuel) (slots : List Value)
    (rest : Text) :
    fillMembers reg fresh fuel m slots (join (ks.map (Member.text reg)) ++ '}' :: rest) =
      some (ks.foldl Member.store slots, rest) := by
  obtain ⟨ks, k, rfl⟩ := (eq_nil_or_concat ks).resolve_left hne
  rw [concat_eq_append] at hks hfuel ⊢
  simp only [length_append, length_singleton] at hfuel
  have hlast := hfuel k (by simp)
  obtain ⟨f, rfl⟩ : ∃ f, fuel = f + 1 + ks.length := ⟨fuel - 1 - ks.length, by omega⟩
  rw [map_append, map_singleton, join_append _ (cons_ne_nil _ _), flatMap_map,
    append_assoc, fillMembers_run hm (fun k hk => hks k (mem_append_left _ hk))
      (fun k hk => by have := hfuel k (mem_append_left _ hk); omega),
    join, fillMembers_step hm (hks k (by simp)) (ends_cons rfl _) (by omega), foldl_append]
  rfl

/-- The members of an instance, in the order of its fields. -/
def structMembers (m : StructMeta) (vs : List Value) : List Member := (m.fields.zip vs).zipIdx

theorem map_text_zipIdx : ∀ (fs : List Field) (vs : List Value) (i : Nat),
    List.zipWith memberText (fs.map Field.name) (pushEach reg vs (fs.map Field.type)) =
      ((fs.zip vs).zipIdx i).map (Member.text reg)
  | [], vs, _ => rfl
  | _ :: _, [], _ => by simp [pushEach]
  | f :: fs, v :: vs, i => by
    simp only [map_cons, pushEach, zipWith_cons_cons, zip_cons_cons, zipIdx_cons]
    rw [map_text_zipIdx fs vs (i + 1)]
    rfl

/-- Stored one after the other, the members fill all slots. -/
theorem foldl_store_zipIdx : ∀ (fs : List Field) (vs pre post : List Value), fs.length = vs.length →
    post.length = vs.length →
    ((fs.zip vs).zipIdx pre.length).foldl Member.store (pre ++ post) = pre ++ cutAll vs
  | [], [], pre, [], _, _ => rfl
  | f :: fs, v :: vs, pre, w :: post, hfs, hpost => by
    have hset : Member.store (pre ++ w :: post) ((f, v), pre.length) = (pre ++ [cut v]) ++ post := by
      simp [Member.store]
    have ih := foldl_store_zipIdx fs vs (pre ++ [cut v]) post (by simpa using hfs) (by simpa using hpost)
    rw [length_append, length_singleton] at ih
    rw [zip_cons_cons, zipIdx_cons, foldl_cons, hset, ih, cutAll, append_assoc]
    rfl

variable {vs : List Value}

theorem mem_structMembers (h : k ∈ structMembers m vs) :
    m.fields[k.2]? = some k.1.1 ∧ vs[k.2]? = some k.1.2 := by
  have hget := mem_zipIdx_iff_getElem?.mp h
  rw [getElem?_zip_eq_some] at hget
  exact hget

/-- The members of an instance whose values are read back. -/
theorem structMember_of (hvs : List.Forall₂ (ReadsBack reg fresh) vs (m.fields.map Field.type))
    (hk : k ∈ structMembers m vs) : k.Of reg fresh m := by
  obtain ⟨hf, hv⟩ := mem_structMembers hk
  obtain ⟨hi, hvi⟩ := List.getElem?_eq_some_iff.mp hv
  obtain ⟨hj, hfj⟩ := List.getElem?_eq_some_iff.mp hf
  have hread := hvs.get hi (by rwa [length_map])
  simp only [get_eq_getElem, hvi, getElem_map, hfj] at hread
  exact ⟨hf, hread⟩

theorem length_text_ge (k : Member) : (pushValue reg k.1.2 k.1.1.type).length + 4 ≤ (k.text reg).length := by
  simp only [Member.text, memberText, pushString, length_append, length_cons]
  omega

/-- The members, each with its comma, are longer than any of their values, by six characters for every
    member. -/
theorem length_run_ge : ∀ ks : List Member,
    6 * ks.length ≤ (ks.flatMap fun k => k.text reg ++ [',', ' ']).length ∧
    ∀ k ∈ ks, (pushValue reg k.1.2 k.1.1.type).length + 6 * ks.length ≤
      (ks.flatMap fun k => k.text reg ++ [',', ' ']).length
  | [] => ⟨le_refl _, fun _ hk => absurd hk not_mem_nil⟩
  | l :: ks => by
    obtain ⟨hall, hmem⟩ := length_run_ge ks
    have htext := @length_text_ge reg l
    simp only [flatMap_cons, length_append, length_cons, length_nil]
    refine ⟨by omega, fun k hk => ?_⟩
    rcases mem_cons.mp hk with rfl | hk
    · omega
    · have hk := hmem k hk
      omega

variable {ts : List Text}

theorem length_join (h : ts ≠ []) : (join ts).length + 2 = (ts.flatMap (· ++ [',', ' '])).length := by
  obtain ⟨us, u, rfl⟩ := (eq_nil_or_concat ts).resolve_left h
  rw [concat_eq_append, join_append us (cons_ne_nil u []), flatMap_append]
  simp [join, add_assoc]

theorem length_member_le {ks : List Member} (hk : k ∈ ks) :
    (pushValue reg k.1.2 k.1.1.type).length + ks.length ≤ (join (ks.map (Member.text reg))).length := by
  have hne : ks.map (Member.text reg) ≠ [] := by simpa using ne_nil_of_mem hk
  have hpos := length_pos_of_mem hk
  have hrun := (@length_run_ge reg ks).2 k hk
  have hjoin := length_join hne
  rw [flatMap_map] at hjoin
  omega

theorem fillMembers_struct (hm : m.WellFormed)
    (hvs : List.Forall₂ (ReadsBack reg fresh) vs (m.fields.map Field.type)) (hne : vs ≠ [])
    (hfuel : (join (List.zipWith memberText (m.fields.map Field.name)
      (pushEach reg vs (m.fields.map Field.type)))).length < fuel) {slots : List Value}
    (hslots : slots.length = vs.length) (rest : Text) :
    fillMembers reg fresh fuel m slots (join (List.zipWith memberText (m.fields.map Field.name)
      (pushEach reg vs (m.fields.map Field.type))) ++ '}' :: rest) = some (cutAll vs, rest) := by
  have hlen : m.fields.length = vs.length := by simpa using hvs.length_eq.symm
  have htext : zipWith memberText (m.fields.map Field.name)
      (pushEach reg vs (m.fields.map Field.type)) = (structMembers m vs).map (Member.text reg) :=
    map_text_zipIdx m.fields vs 0
  have hmembers : structMembers m vs ≠ [] := by
    have hzip : (m.fields.zip vs).length ≠ 0 := by
      rw [length_zip, hlen, min_self]
      exact fun h => hne (length_eq_zero_iff.mp h)
    exact fun h => hzip (by simpa [structMembers] using congrArg length h)
  have hof : ∀ k ∈ structMembers m vs, k.Of reg fresh m := fun k hk => structMember_of hvs hk
  rw [htext] at hfuel ⊢
  rw [fillMembers_reads hm hmembers hof (fun k hk => lt_of_le_of_lt (length_member_le hk) hfuel)]
  have hstore := foldl_store_zipIdx m.fields vs [] slots hlen hslots
  exact congrArg (fun s => some (s, rest)) hstore

theorem find?_of_nodup {α β : Type} [DecidableEq β] {f : α → β} {l : List α} (h : (l.map f).Nodup) {x : α}
    (hx : x ∈ l) : l.find? (fun y => f y = f x) = some x := by
  cases hfind : l.find? (fun y => f y = f x) with
  | none => simpa using find?_eq_none.mp hfind x hx
  | some y =>
    have hy : f y = f x := by simpa using find?_some hfind
    rw [inj_on_of_nodup_map h (mem_of_find?_eq_some hfind) hx hy]

theorem enumHead_variant {e : EnumMeta} (he : e.WellFormed) {v : Variant} (hv : v ∈ e.variants)
    (hq : skipWs q = q) : enumHead e ('{' :: '"' :: v.name ++ ['"', ':', ' '] ++ q) = .variant v q := by
  obtain ⟨hzero, hplain⟩ := he.names v hv
  have hread : readString ('"' :: (v.name ++ '"' :: ':' :: ' ' :: q)) =
      some (v.name, ':' :: ' ' :: q) := by rw [readString_quote, readChars_name hplain]
  have htext : '{' :: '"' :: v.name ++ ['"', ':', ' '] ++ q =
      '{' :: '"' :: (v.name ++ '"' :: ':' :: ' ' :: q) := by simp
  rw [htext, enumHead, skipWs_solid (by decide)]
  simp only [hread, skipWs_solid (c := ':') (by decide), accept, if_true, skipWs_blank, hq,
    cString_eq_self_iff.mpr hzero, find?_of_nodup he.distinctNames hv]

theorem payloadText_skipWs (vs : List Value) (ts : List Text) (p : Text) :
    skipWs (payloadText (pushEach reg vs ts) ++ p) = payloadText (pushEach reg vs ts) ++ p := by
  cases vs with
  | nil =>
    rw [pushEach]
    exact skipWs_solid (by decide) _
  | cons v vs =>
    cases ts with
    | nil =>
      rw [pushEach]
      exact skipWs_solid (by decide) _
    | cons t ts =>
      rw [pushEach]
      cases pushEach reg vs ts with
      | nil => exact skipWs_pushValue v t p
      | cons u us => exact skipWs_solid (by decide) _

theorem readsBack_of {v : Value} {tn : Text} (h : ∀ (fuel : Nat) (slot : Value) (rest : Text),
    Ends rest → (pushValue reg v tn).length ≤ fuel →
    fillValue reg fresh (fuel + 1) slot tn (pushValue reg v tn ++ rest) = some (cut v, rest)) :
    ReadsBack reg fresh v tn
  | fuel + 1, slot, rest, hrest, hfuel => h fuel slot rest hrest (le_of_lt_succ hfuel)

/-- An array, after its bracket. -/
theorem fillElems_all {et : Text} {rest : Text}
    (hreads : List.Forall₂ (ReadsBack reg fresh) vs (vs.map fun _ => et))
    (hfuel : (join (pushEach reg vs (vs.map fun _ => et))).length + 1 < fuel) :
    fillElems reg fresh fuel et [] (skipWs (join (pushEach reg vs (vs.map fun _ => et)) ++
      ']' :: rest)) = some (cut (.vec vs), rest) := by
  rw [forall₂_map_right_iff, forall₂_same] at hreads
  cases vs with
  | nil =>
    obtain ⟨f, rfl⟩ : ∃ f, fuel = f + 1 := ⟨fuel - 1, by omega⟩
    rfl
  | cons v vs =>
    have hskip : skipWs (join (pushEach reg (v :: vs) ((v :: vs).map fun _ => et)) ++ ']' :: rest) =
        join (pushEach reg (v :: vs) ((v :: vs).map fun _ => et)) ++ ']' :: rest := by
      obtain ⟨q, hq⟩ := join_cons (pushValue reg v et) (pushEach reg vs (vs.map fun _ => et))
      rw [map_cons, pushEach, hq, append_assoc, skipWs_pushValue]
    rw [hskip, fillElems_reads (cons_ne_nil v vs) hreads hfuel, cut]
    rfl

mutual

/-- **One value.** The reader takes off exactly what the writer has written. -/
theorem readsBack (hreg : reg.WellFormed) : ∀ (v : Value) (tn : Text), Typed reg v tn →
    Regular reg v tn → ReadsBack reg fresh v tn
  | .int n, tn, ⟨hk, hlo, hhi⟩, _ => readsBack_of fun fuel slot rest hrest _ => by
    have hskip := @skipWs_pushValue reg (.int n) tn rest
    have hkind := kindOf_of_typeOf hk (fun _ => Kind.noConfusion)
    rw [pushValue, hkind] at hskip ⊢
    rw [fillValue, hkind]
    simp only [hskip, scanInt_push hlo hhi hrest]
    rfl
  | .bool b, tn, hk, _ => readsBack_of fun fuel slot rest _ _ => by
    have hkind := kindOf_of_typeOf hk (fun _ => Kind.noConfusion)
    rw [pushValue, hkind, fillValue, hkind]
    cases b <;> rfl
  | .str s, tn, hk, _ => readsBack_of fun fuel slot rest _ _ => by
    have hkind := kindOf_of_typeOf hk (fun _ => Kind.noConfusion)
    have htext : pushString s ++ rest = '"' :: (s.flatMap escape ++ '"' :: rest) := by simp [pushString]
    rw [pushValue, hkind, fillValue, hkind]
    simp only [htext, readString_quote, readChars_push]
    rfl
  | .vec vs, tn, ⟨et, hk, hvs⟩, hr => readsBack_of fun fuel slot rest _ hfuel => by
    obtain ⟨hfit, hrs⟩ := hr et hk
    have hwriter : kindOf reg writerLimit tn = .vec et :=
      kindOf_eq_typeOf hk fun _ h => Kind.vec.inj h ▸ hfit
    have hreader : kindOf reg readerLimit tn = .vec et :=
      kindOf_eq_typeOf hk fun _ h => Kind.vec.inj h ▸ lt_succ_of_lt hfit
    have hreads := readsBackEach hreg vs _ hvs hrs
    rw [pushValue, hwriter] at hfuel ⊢
    simp only [length_append, length_cons] at hfuel
    rw [fillValue, hreader]
    simp only [cons_append, append_assoc, skipWs_solid (c := '[') (by decide)]
    exact fillElems_all hreads (by omega)
  | .struct vs, tn, ⟨m, hk, hvs⟩, ⟨hne, hr⟩ => readsBack_of fun fuel slot rest _ hfuel => by
    have hkind := kindOf_of_typeOf hk (fun _ => Kind.noConfusion)
    have hreads := readsBackEach hreg vs _ hvs (hr m hk)
    have hm := hreg.structs m (kindOf_struct hk)
    have hslots : (zeroFields reg m).length = vs.length := by
      simpa using hreads.length_eq.symm
    rw [pushValue, hkind] at hfuel ⊢
    simp only [length_append, length_cons] at hfuel
    rw [fillValue, hkind]
    simp only [cons_append, append_assoc, skipWs_solid (c := '{') (by decide)]
    rw [fillMembers_skipWs, fillMembers_struct hm hreads hne (by omega) hslots]
    rfl
  | .enum tag vs, tn, ⟨e, v, hk, hv, htag, hvs⟩, hr => readsBack_of fun fuel slot rest hrest hfuel => by
    have hkind := kindOf_of_typeOf hk (fun _ => Kind.noConfusion)
    have hreads := readsBackEach hreg vs _ hvs (hr e v hk hv htag)
    have he := hreg.enums e (kindOf_enum hk)
    have hfind : e.variants.find? (·.tag = tag) = some v :=
      htag ▸ find?_of_nodup he.distinctTags hv
    have htext : '{' :: '"' :: v.name ++ ['"', ':', ' '] ++ payloadText (pushEach reg vs v.fields) ++
        ['}'] ++ rest = '{' :: '"' :: v.name ++ ['"', ':', ' '] ++
          (payloadText (pushEach reg vs v.fields) ++ '}' :: rest) := by simp
    rw [pushValue, hkind] at hfuel ⊢
    simp only [hfind] at hfuel ⊢
    simp only [length_append, length_cons] at hfuel
    rw [fillValue, hkind]
    simp only [htext, enumHead_variant he hv (payloadText_skipWs vs v.fields _)]
    generalize v.fields = ts at hfuel hreads ⊢
    cases hreads with
    | nil =>
      rw [cut, htag]
      rfl
    | @cons x t xs ts hx hxs =>
      cases hxs with
      | nil =>
        simp only [pushEach, payloadText] at hfuel ⊢
        rw [hx fuel _ _ (ends_cons rfl _) (by omega), cut, htag]
        rfl
      | @cons y u ys us hy hys =>
        have hskip : skipWs (join (pushEach reg (x :: y :: ys) (t :: u :: us)) ++
            ']' :: '}' :: rest) = join (pushEach reg (x :: y :: ys) (t :: u :: us)) ++
              ']' :: '}' :: rest := by
          obtain ⟨q, hq⟩ := join_cons (pushValue reg x t) (pushEach reg (y :: ys) (u :: us))
          rw [pushEach, hq, append_assoc, skipWs_pushValue]
        have hpayload : payloadText (pushEach reg (x :: y :: ys) (t :: u :: us)) ++ '}' :: rest =
            '[' :: (join (pushEach reg (x :: y :: ys) (t :: u :: us)) ++ ']' :: '}' :: rest) := by
          simp [pushEach, payloadText]
        have hlen : (payloadText (pushEach reg (x :: y :: ys) (t :: u :: us))).length =
            (join (pushEach reg (x :: y :: ys) (t :: u :: us))).length + 2 := by
          simp [pushEach, payloadText]
        simp only [hpayload, hskip]
        rw [fillPayload_reads (cons_ne_nil _ _) (.cons hx (.cons hy hys)) (by omega), cut, htag]
        rfl

theorem readsBackEach (hreg : reg.WellFormed) : ∀ (vs : List Value) (tns : List Text),
    TypedEach reg vs tns → RegularEach reg vs tns → List.Forall₂ (ReadsBack reg fresh) vs tns
  | [], [], _, _ => .nil
  | v :: vs, tn :: tns, ⟨hv, hvs⟩, ⟨hr, hrs⟩ =>
    .cons (readsBack hreg v tn hv hr) (readsBackEach hreg vs tns hvs hrs)

end

/-! ## 5. Instances -/

theorem zero_notMem_escape (c : Char) : '\x00' ∉ escape c := by
  unfold escape
  repeat' split
  all_goals first
    | decide
    | skip
  · rename_i hctl
    have hhex : ∀ n < 32, '\x00' ∉ ['\\', 'u', '0', '0', hexDigit (n / 16), hexDigit (n % 16)] := by decide
    exact hhex _ hctl
  · rename_i hctl
    intro hmem
    rw [← mem_singleton.mp hmem] at hctl
    exact hctl (by decide)

theorem zero_notMem_pushString (s : Text) : '\x00' ∉ pushString s := by
  simp only [pushString, mem_append, mem_cons, mem_flatMap, not_mem_nil, or_false]
  rintro ((h | ⟨c, -, hc⟩) | h)
  · cases h
  · exact zero_notMem_escape c hc
  · cases h

theorem zero_notMem_join : ∀ {ts : List Text}, (∀ t ∈ ts, '\x00' ∉ t) → '\x00' ∉ join ts
  | [], _ => not_mem_nil
  | [t], h => h t mem_cons_self
  | t :: u :: ts, h => by
    have ih := zero_notMem_join fun x (hx : x ∈ u :: ts) => h x (mem_cons_of_mem t hx)
    have ht := h t mem_cons_self
    simp [join, ht, ih]

theorem zero_notMem_enclosed {l r : Char} {t : Text} (hl : l ≠ '\x00') (hr : r ≠ '\x00') (ht : '\x00' ∉ t) :
    '\x00' ∉ l :: t ++ [r] := by
  simp [ht, hl.symm, hr.symm]

theorem zero_notMem_intText (n : Int) : '\x00' ∉ intText n := by
  have hdigits : '\x00' ∉ toDigits 10 n.natAbs := fun h =>
    absurd (isDigit_of_mem_toDigits (by omega) (by omega) h) (by decide)
  unfold intText
  split
  · simp [hdigits]
  · exact hdigits

theorem zero_notMem_payloadText (h : ∀ t ∈ ts, '\x00' ∉ t) : '\x00' ∉ payloadText ts := by
  unfold payloadText
  split
  · decide
  · exact h _ mem_cons_self
  · exact zero_notMem_enclosed (by decide) (by decide) (zero_notMem_join h)

theorem zero_notMem_memberText (name : Text) {t : Text} (h : '\x00' ∉ t) : '\x00' ∉ memberText name t := by
  simp [zero_notMem_pushString, h]

theorem zero_notMem_members {names : List Text} (h : ∀ t ∈ ts, '\x00' ∉ t) :
    '\x00' ∉ join (List.zipWith memberText names ts) := by
  refine zero_notMem_join fun t ht => ?_
  rw [← map_uncurry_zip_eq_zipWith] at ht
  obtain ⟨p, hp, rfl⟩ := mem_map.mp ht
  exact zero_notMem_memberText p.1 (h p.2 (of_mem_zip hp).2)

mutual

/-- The writer's text has no zero byte, so it is a C text. -/
theorem zero_notMem_pushValue (hreg : reg.WellFormed) : ∀ (v : Value) (tn : Text),
    '\x00' ∉ pushValue reg v tn
  | .int n, tn => by
    rw [pushValue]
    split
    · exact zero_notMem_intText n
    · decide
  | .bool b, tn => by
    rw [pushValue]
    split
    · cases b <;> decide
    · decide
  | .str s, tn => by
    rw [pushValue]
    split
    · exact zero_notMem_pushString s
    · decide
  | .vec vs, tn => by
    rw [pushValue]
    split
    · exact zero_notMem_enclosed (by decide) (by decide)
        (zero_notMem_join (zero_notMem_pushEach hreg vs _))
    · decide
  | .struct vs, tn => by
    rw [pushValue]
    split
    · exact zero_notMem_enclosed (by decide) (by decide)
        (zero_notMem_members (zero_notMem_pushEach hreg vs _))
    · decide
  | .enum tag vs, tn => by
    rw [pushValue]
    split
    · rename_i e hkind
      split
      · rename_i v hfind
        have hname := ((hreg.enums e (kindOf_enum hkind)).names v (mem_of_find?_eq_some hfind)).1
        have hpayload := zero_notMem_payloadText (zero_notMem_pushEach hreg vs v.fields)
        simp [hname, hpayload]
      · decide
    · decide

theorem zero_notMem_pushEach (hreg : reg.WellFormed) : ∀ (vs : List Value) (tns : List Text),
    ∀ t ∈ pushEach reg vs tns, '\x00' ∉ t
  | [], _, _, ht | _ :: _, [], _, ht => absurd ht (by rw [pushEach]; exact not_mem_nil)
  | v :: vs, tn :: tns, t, ht => by
    rw [pushEach, mem_cons] at ht
    rcases ht with rfl | ht
    · exact zero_notMem_pushValue hreg v tn
    · exact zero_notMem_pushEach hreg vs tns t ht

end

/-- What the reader makes of the text of an instance. -/
theorem fillObject_brace (m : StructMeta) (p : Text) :
    fillObject reg fresh fuel m ('{' :: p) = fillMembers reg fresh fuel m (zeroFields reg m) p := by
  simp only [fillObject, skipWs_solid (c := '{') (by decide), fillMembers_skipWs]

theorem fromJson_toJson (hreg : reg.WellFormed) (hm : m.WellFormed)
    (htyped : TypedEach reg vs (m.fields.map Field.type))
    (hregular : RegularEach reg vs (m.fields.map Field.type)) :
    fromJson reg fresh m (toJson reg m vs) = some (cutAll vs) := by
  have hreads := @readsBackEach reg fresh hreg vs _ htyped hregular
  have hzero : '\x00' ∉ toJson reg m vs := zero_notMem_enclosed (by decide) (by decide)
    (zero_notMem_members (zero_notMem_pushEach hreg vs _))
  rw [fromJson, cString_eq_self_iff.mpr hzero]
  generalize hfuel : 2 * (toJson reg m vs).length + 2 = fuel
  rw [toJson] at hfuel ⊢
  simp only [length_append, length_cons] at hfuel
  rw [cons_append, fillObject_brace]
  by_cases hne : vs = []
  · subst hne
    obtain ⟨f, rfl⟩ : ∃ f, fuel = f + 1 := ⟨fuel - 1, by omega⟩
    have hfields : m.fields = [] := by simpa using hreads.length_eq.symm
    simp [hfields, fillMembers, memberHead, join, cutAll]
  · have hslots : (zeroFields reg m).length = vs.length := by
      simpa using hreads.length_eq.symm
    rw [fillMembers_struct hm hreads hne (by omega) hslots]
    rfl

end Reader

/-- **The round trip.** For every registry and every type of it whose nested structs have fields and
    whose element types have names that fit into the writer's buffer: an instance comes back from its
    text exactly if none of its strings has a zero byte. -/
theorem json_round_trip_iff (reg : Registry) (fresh : Text → Value) (m : StructMeta) (vs : List Value)
    (hreg : reg.WellFormed) (hm : m.WellFormed) (htyped : TypedEach reg vs (m.fields.map Field.type))
    (hregular : RegularEach reg vs (m.fields.map Field.type)) :
    fromJson reg fresh m (toJson reg m vs) = some vs ↔ NoZeroAll vs := by
  rw [fromJson_toJson hreg hm htyped hregular, Option.some.injEq, cutAll_eq_self_iff]

/-! ## 6. Three instances -/

def pointMeta : StructMeta := ⟨"Point".toList, [⟨"x".toList, "Int".toList⟩, ⟨"on".toList, "Bool".toList⟩]⟩

def pairVariant : Variant := ⟨"Pair".toList, 1, ["Int".toList, "String".toList]⟩

def shapeMeta : EnumMeta := ⟨"Shape".toList, [⟨"Dot".toList, 0, []⟩, pairVariant]⟩

def emptyMeta : StructMeta := ⟨"Empty".toList, []⟩

def sampleReg : Registry := ⟨[pointMeta, emptyMeta], [shapeMeta]⟩

def drawingMeta : StructMeta := ⟨"Drawing".toList, [⟨"title".toList, "String".toList⟩,
  ⟨"points".toList, "Vec<Point>".toList⟩, ⟨"shape".toList, "Shape".toList⟩]⟩

def drawing : List Value := [.str "a \"b\"\n".toList,
  .vec [.struct [.int (-5), .bool true], .struct [.int 12, .bool false]],
  .enum 1 [.int 0, .str []]]

theorem sampleReg_wellFormed : sampleReg.WellFormed where
  structs := by
    intro m hm
    simp only [sampleReg, mem_cons, not_mem_nil, or_false] at hm
    rcases hm with rfl | rfl
    all_goals exact ⟨by decide, by decide⟩
  enums := by
    intro e he
    obtain rfl := mem_singleton.mp he
    exact ⟨by decide, by decide, by simp [shapeMeta, pairVariant]⟩

theorem drawing_typed : TypedEach sampleReg drawing (drawingMeta.fields.map Field.type) := by
  refine ⟨rfl, ⟨"Point".toList, rfl, ?_⟩, ⟨shapeMeta, pairVariant, rfl, ?_, rfl, ?_⟩, trivial⟩
  · exact ⟨⟨pointMeta, rfl, ⟨rfl, by decide, by decide⟩, rfl, trivial⟩,
      ⟨pointMeta, rfl, ⟨rfl, by decide, by decide⟩, rfl, trivial⟩, trivial⟩
  · exact mem_cons_of_mem _ mem_cons_self
  · exact ⟨⟨rfl, by decide, by decide⟩, rfl, trivial⟩

theorem drawing_regular : RegularEach sampleReg drawing (drawingMeta.fields.map Field.type) := by
  have hvec : typeOf sampleReg "Vec<Point>".toList = .vec "Point".toList := rfl
  have hpoint : typeOf sampleReg "Point".toList = .struct pointMeta := rfl
  have hpoints : ∀ x y, Regular sampleReg (.struct [.int x, .bool y]) "Point".toList := by
    intro x y
    refine ⟨cons_ne_nil _ _, fun m hm => ?_⟩
    obtain rfl := Kind.struct.inj (hpoint.symm.trans hm)
    exact ⟨trivial, trivial, trivial⟩
  refine ⟨trivial, fun et het => ?_, fun e v _ _ _ => ?_, trivial⟩
  · obtain rfl := Kind.vec.inj (hvec.symm.trans het)
    exact ⟨by decide, hpoints _ _, hpoints _ _, trivial⟩
  · cases v.fields with
    | nil => trivial
    | cons t ts =>
      cases ts with
      | nil => exact ⟨trivial, trivial⟩
      | cons u us => exact ⟨trivial, trivial, trivial⟩

theorem json_round_trip_drawing : TypedEach sampleReg drawing (drawingMeta.fields.map Field.type) ∧
    (fromJson sampleReg (fun _ => .int 0) drawingMeta (toJson sampleReg drawingMeta drawing) =
      some drawing ↔ NoZeroAll drawing) :=
  ⟨drawing_typed, json_round_trip_iff sampleReg (fun _ => .int 0) drawingMeta drawing
    sampleReg_wellFormed ⟨by decide, by decide⟩ drawing_typed drawing_regular⟩

def noteMeta : StructMeta := ⟨"Note".toList, [⟨"text".toList, "String".toList⟩]⟩

def holderMeta : StructMeta :=
  ⟨"Holder".toList, [⟨"nothing".toList, "Empty".toList⟩, ⟨"count".toList, "Int".toList⟩]⟩

/-- A string with a zero byte comes back cut; behind an empty struct every field is lost. -/
theorem zero_byte_lost :
    TypedEach sampleReg [.str "a\x00b".toList] (noteMeta.fields.map Field.type) ∧
    fromJson sampleReg (fun _ => .int 0) noteMeta (toJson sampleReg noteMeta [.str "a\x00b".toList]) =
      some [.str "a".toList] ∧
    TypedEach sampleReg [.struct [], .int 7] (holderMeta.fields.map Field.type) ∧
    fromJson sampleReg (fun _ => .int 0) holderMeta (toJson sampleReg holderMeta [.struct [], .int 7]) =
      some [.struct [], .int 0] :=
  ⟨⟨rfl, trivial⟩, rfl, ⟨⟨emptyMeta, rfl, trivial⟩, ⟨rfl, by decide, by decide⟩, trivial⟩, rfl⟩

end Vyb.Runtime
