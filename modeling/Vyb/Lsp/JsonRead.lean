/-
  Subject:   What the parser of the language server makes of a JSON text.

  The parser takes a standard text apart as the standard does, except in strings: `\b` and `\f` come out as the
  letters, and whatever is written with `\u` as a question mark for each code unit.

  * `Piece.seen`, `Source.seen` -- what the parser makes of a piece of a string and of a text;
  * **`parseJson_text`** -- it does so, whatever blanks, escapes and digits the text has;
  * **`seen_eq_value_iff`** -- this is the value of the text exactly if the strings have no such escape.
-/
import Vyb.Lib.Search
import Vyb.Lib.Split
import Vyb.Lib.Utf8
import Vyb.Lsp.Json

namespace Vyb.Lsp

open Lib JsonText JsonParser List Nat

/-! ## 1. Strings -/

/-- What the parser makes of a piece. -/
def seenPiece : Piece → Bytes
  | .raw b _ => [b]
  | .short e => [unescape e.letter]
  | .unit _ _ _ => [63]
  | .pair _ _ _ _ => [63, 63]

def seenString (ps : List Piece) : Bytes := ps.flatMap seenPiece

theorem chars_raw {b : UInt8} (hquote : b ≠ 34) (hslash : b ≠ 92) (t : Bytes) :
    chars (b :: t) = (b :: (chars t).1, (chars t).2) := by
  rw [chars.eq_def]
  split <;> simp_all

theorem chars_short (e : Escape) (t : Bytes) :
    chars (92 :: e.letter :: t) = (unescape e.letter :: (chars t).1, (chars t).2) := by
  cases e <;> rfl

theorem chars_quad (q : Quad) (t : Bytes) :
    chars (92 :: 117 :: (q.digits ++ t)) = (63 :: (chars t).1, (chars t).2) := by
  obtain ⟨digits, hfour, -⟩ := q
  obtain ⟨a, b, c, d, rfl⟩ : ∃ a b c d, digits = [a, b, c, d] := by
    match digits, hfour with
    | [a, b, c, d], _ => exact ⟨a, b, c, d, rfl⟩
  rfl

variable (p : Piece)

theorem chars_piece (t : Bytes) :
    chars (p.text ++ t) = (seenPiece p ++ (chars t).1, (chars t).2) := by
  cases p with
  | raw b h => exact chars_raw h.2.1 h.2.2 t
  | short e => exact chars_short e t
  | unit q c h => exact chars_quad q t
  | pair high low c h =>
    have htext : (Piece.pair high low c h).text ++ t =
        92 :: 117 :: (high.digits ++ 92 :: 117 :: (low.digits ++ t)) := by simp [Piece.text]
    rw [htext, chars_quad, chars_quad]
    rfl

theorem chars_pieces (t : Bytes) :
    ∀ ps : List Piece, chars (ps.flatMap Piece.text ++ 34 :: t) = (seenString ps, t)
  | [] => rfl
  | p :: ps => by
    rw [flatMap_cons, append_assoc, chars_piece, chars_pieces t ps]
    rfl

/-- **A string is read** up to its closing quote. -/
theorem string_text (ps : List Piece) (t : Bytes) : string (stringText ps ++ t) = (seenString ps, t) := by
  have htext : stringText ps ++ t = 34 :: (ps.flatMap Piece.text ++ 34 :: t) := by simp [stringText]
  rw [htext, string, chars_pieces]

/-! ## 2. Numbers -/

theorem digitByte_toNat (d : Fin 10) : (digitByte d).toNat = 48 + d := by
  exact UInt8.toNat_ofNat_of_lt' (by show 48 + d.val < 256; omega)

theorem isDigit_digitByte : ∀ d : Fin 10, isDigit (digitByte d) = true := by decide

variable (ds : List (Fin 10))

theorem digitsValue_text : digitsValue (digitsText ds) = decimalValue ds := by
  rw [digitsValue, digitsText, decimalValue, ← map_reverse, map_map]
  refine congrArg _ (map_congr_left fun d _ => ?_)
  rw [Function.comp_apply, digitByte_toNat, Nat.add_sub_cancel_left]

theorem forall_isDigit : ∀ b ∈ digitsText ds, isDigit b = true := by
  intro b hb
  obtain ⟨d, -, rfl⟩ := mem_map.mp hb
  exact isDigit_digitByte d

/-- A text that does not go on with a digit. -/
def NoDigit (t : Bytes) : Prop := ∀ b, t.head? = some b → isDigit b = false

variable {t : Bytes}

theorem digits_span (ht : NoDigit t) :
    (digitsText ds ++ t).takeWhile isDigit = digitsText ds ∧ (digitsText ds ++ t).dropWhile isDigit = t :=
  span_append (forall_isDigit ds) ht

theorem sign_digits {ds : List (Fin 10)} (hds : ds ≠ []) (t : Bytes) :
    sign (digitsText ds ++ t) = (false, digitsText ds ++ t) := by
  cases ds with
  | nil => exact absurd rfl hds
  | cons d ds =>
    have hne : ∀ d : Fin 10, digitByte d ≠ 45 ∧ digitByte d ≠ 43 := by decide
    obtain ⟨hminus, hplus⟩ := hne d
    rw [digitsText, map_cons, cons_append, sign.eq_def]
    split <;> simp_all

theorem exponent_text (e : Option Exponent) : exponent (Literal.expText e) = Literal.expValue e := by
  cases e with
  | none => rfl
  | some e =>
    have hspan : ∀ ds : List (Fin 10), (digitsText ds).takeWhile isDigit = digitsText ds := fun ds =>
      takeWhile_eq_self_iff.mpr (forall_isDigit ds)
    have hsign : sign (Exponent.signText e.sign ++ digitsText e.digits) = (e.sign == some true, digitsText e.digits) := by
      cases e.sign with
      | none =>
        have h := sign_digits e.digits_ne []
        rw [append_nil] at h
        exact h
      | some b => cases b <;> rfl
    have hletter : ∀ u : Bool, (if u then (69 : UInt8) else 101) = 101 ∨ (if u then (69 : UInt8) else 101) = 69 := by
      decide
    rw [Literal.expText, Literal.expValue, Exponent.text, cons_append, exponent, if_pos (hletter e.upper), hsign]
    dsimp only
    rw [hspan, digitsValue_text, Exponent.value]
    simp

theorem noDigit_exp (e : Option Exponent) : NoDigit (Literal.expText e) := by
  intro b hb
  cases e with
  | none => cases hb
  | some e =>
    cases hb
    cases e.upper <;> rfl

theorem fraction_text (frac : List (Fin 10)) (e : Option Exponent) :
    fraction (Literal.fracText frac ++ Literal.expText e) = (digitsText frac, Literal.expText e) := by
  rw [Literal.fracText]
  split
  · rename_i hnil
    subst hnil
    cases e with
    | none => rfl
    | some e =>
      rw [Literal.expText, Exponent.text]
      cases e.upper <;> rfl
  · obtain ⟨htake, hdrop⟩ := digits_span frac (noDigit_exp e)
    rw [cons_append, fraction, htake, hdrop]

theorem noDigit_frac (frac : List (Fin 10)) (e : Option Exponent) :
    NoDigit (Literal.fracText frac ++ Literal.expText e) := by
  rw [Literal.fracText]
  split
  · exact noDigit_exp e
  · intro b hb
    cases hb
    rfl

variable (l : Literal)

theorem sign_text : sign l.text =
    (l.neg, digitsText l.int ++ (Literal.fracText l.frac ++ Literal.expText l.exp)) := by
  rw [Literal.text]
  cases l.neg with
  | true => rfl
  | false => exact sign_digits l.int_ne _

/-- **`atof` reads a number** as the standard does. -/
theorem decimal_text : decimal l.text = l.value := by
  obtain ⟨htake, hdrop⟩ := digits_span l.int (noDigit_frac l.frac l.exp)
  have happend : digitsText l.int ++ digitsText l.frac = digitsText (l.int ++ l.frac) := by
    rw [digitsText, digitsText, digitsText, map_append]
  have hlen : (digitsText l.frac).length = l.frac.length := length_map _
  rw [decimal, sign_text]
  rw [htake, hdrop, fraction_text]
  rw [exponent_text, happend, digitsValue_text, Literal.value, hlen]

theorem isNumeric_digits : ∀ b ∈ digitsText ds, isNumeric b = true := by
  intro b hb
  rw [isNumeric, forall_isDigit ds b hb]
  rfl

theorem forall_isNumeric : ∀ b ∈ l.text, isNumeric b = true := by
  have hfrac : ∀ b ∈ Literal.fracText l.frac, isNumeric b = true := by
    rw [Literal.fracText]
    split
    · exact fun b hb => absurd hb not_mem_nil
    · intro b hb
      rcases mem_cons.mp hb with rfl | hb
      · rfl
      · exact isNumeric_digits _ b hb
  have hexp : ∀ b ∈ Literal.expText l.exp, isNumeric b = true := by
    cases l.exp with
    | none => exact fun b hb => absurd hb not_mem_nil
    | some e =>
      intro b hb
      rcases mem_cons.mp hb with rfl | hb
      · cases e.upper <;> rfl
      · rcases mem_append.mp hb with hb | hb
        · cases hs : e.sign with
          | none => rw [hs] at hb; cases hb
          | some s =>
            rw [hs] at hb
            cases s with
            | true | false => rw [mem_singleton.mp hb]; rfl
        · exact isNumeric_digits _ b hb
  intro b hb
  rcases mem_append.mp hb with hb | hb
  · split at hb
    · rw [mem_singleton.mp hb]
      rfl
    · cases hb
  · rcases mem_append.mp hb with hb | hb
    · exact isNumeric_digits _ b hb
    · rcases mem_append.mp hb with hb | hb
      · exact hfrac b hb
      · exact hexp b hb

/-- A text that does not go on with a number. -/
def Ends (t : Bytes) : Prop := ∀ b, t.head? = some b → isNumeric b = false

theorem text_ne_nil : l.text ≠ [] := by
  obtain ⟨d, ds, hds⟩ := exists_cons_of_ne_nil l.int_ne
  rw [Literal.text, hds]
  simp [digitsText]

theorem number_text (F : Floats) (l : Literal) (ht : Ends t) :
    number F (l.text ++ t) = (.num (F.round l.value), t) := by
  obtain ⟨htake, hdrop⟩ := span_append (forall_isNumeric l) ht
  have hne : l.text.isEmpty = false := by simpa using text_ne_nil l
  rw [number, htake, hdrop, hne, decimal_text]
  rfl

/-! ## 3. Values -/

section

variable (F : Floats)

mutual

/-- **What the parser makes of a text.** -/
def seen : Source → Json
  | .null => .null
  | .bool b => .bool b
  | .num l => .num (F.round l.value)
  | .str ps => .str (seenString ps)
  | .arr _ items => .arr (seenItems items)
  | .obj _ members => .obj ((seenMembers members).foldl (fun o m => setMember o m.1 m.2) [])

def seenItems : Items → List Json
  | .nil => []
  | .cons _ v _ rest => seen v :: seenItems rest

/-- Member by member; the parser overwrites one with a key that it has seen before. -/
def seenMembers : Members → List (Bytes × Json)
  | .nil => []
  | .cons _ key _ _ v _ rest => (seenString key, seen v) :: seenMembers rest

end

end

theorem ws_gap (g : Gap) (t : Bytes) : ws (g.text ++ t) = ws t := dropWhile_append_of_pos g.blank

variable {c : UInt8}

theorem ws_solid (h : isBlank c = false) (t : Bytes) : ws (c :: t) = c :: t := by
  rw [ws, dropWhile_cons_of_neg (by simp [h])]

theorem ends_gap (g : Gap) (ht : Ends t) : Ends (g.text ++ t) := by
  obtain ⟨text, hblank⟩ := g
  cases text with
  | nil => exact ht
  | cons c text =>
    intro b hb
    cases hb
    have hc := hblank c mem_cons_self
    have hmem : c = 32 ∨ c = 9 ∨ c = 10 ∨ c = 13 := by simpa [isBlank, or_assoc] using hc
    rcases hmem with rfl | rfl | rfl | rfl <;> rfl

theorem ends_cons (h : isNumeric c = false) (t : Bytes) : Ends (c :: t) := by
  intro b hb
  cases hb
  exact h

theorem text_starts (s : Source) : ∃ c t, s.text = c :: t ∧ isBlank c = false ∧ c ≠ 93 := by
  cases s with
  | null => exact ⟨110, _, rfl, rfl, by decide⟩
  | bool b =>
    cases b with
    | true => exact ⟨116, _, rfl, rfl, by decide⟩
    | false => exact ⟨102, _, rfl, rfl, by decide⟩
  | num l =>
    have hdigit : ∀ d : Fin 10, isBlank (digitByte d) = false ∧ digitByte d ≠ 93 := by decide
    obtain ⟨d, ds, hds⟩ := exists_cons_of_ne_nil l.int_ne
    rw [Source.text, Literal.text, hds]
    cases l.neg with
    | true => exact ⟨45, _, rfl, rfl, by decide⟩
    | false => exact ⟨digitByte d, _, rfl, hdigit d⟩
  | str ps => exact ⟨34, _, rfl, rfl, by decide⟩
  | arr gap items => exact ⟨91, _, by rw [Source.text], rfl, by decide⟩
  | obj gap members => exact ⟨123, _, by rw [Source.text], rfl, by decide⟩

section

variable (F : Floats)

/-- A number starts with a byte that none of the other values starts with. -/
theorem value_num (l : Literal) (ht : Ends t) (fuel : Nat) :
    value F (fuel + 1) (l.text ++ t) = (.num (F.round l.value), t) := by
  have hnum := number_text F l ht
  have hstart : ∃ c r, l.text = c :: r ∧ isBlank c = false ∧ c ≠ 123 ∧ c ≠ 91 ∧ c ≠ 34 ∧ c ≠ 116 ∧ c ≠ 102 ∧
      c ≠ 110 := by
    have hdigit : ∀ d : Fin 10, isBlank (digitByte d) = false ∧ digitByte d ≠ 123 ∧ digitByte d ≠ 91 ∧
        digitByte d ≠ 34 ∧ digitByte d ≠ 116 ∧ digitByte d ≠ 102 ∧ digitByte d ≠ 110 := by decide
    obtain ⟨d, ds, hds⟩ := exists_cons_of_ne_nil l.int_ne
    rw [Literal.text, hds]
    cases l.neg with
    | true => exact ⟨45, _, rfl, by decide⟩
    | false => exact ⟨digitByte d, _, rfl, hdigit d⟩
  obtain ⟨c, r, hr, hblank, h1, h2, h3, h4, h5, h6⟩ := hstart
  rw [hr, cons_append] at hnum ⊢
  rw [value, ws_solid hblank]
  simp only [h1, h2, h3, h4, h5, h6, if_false, or_self]
  exact hnum

theorem value_str (ps : List Piece) (t : Bytes) (fuel : Nat) :
    value F (fuel + 1) (stringText ps ++ t) = (.str (seenString ps), t) := by
  have hstring := string_text ps t
  have hcons : stringText ps ++ t = 34 :: (ps.flatMap Piece.text ++ [34] ++ t) := rfl
  rw [hcons] at hstring ⊢
  rw [value, ws_solid rfl]
  dsimp only
  rw [if_neg (by decide), if_neg (by decide), if_pos rfl, hstring]

theorem value_gap (fuel : Nat) (g : Gap) (t : Bytes) :
    value F (fuel + 1) (g.text ++ t) = value F (fuel + 1) t := by
  rw [value, value, ws_gap]

theorem key_gap (g : Gap) (key : List Piece) (t : Bytes) :
    string (ws (g.text ++ (stringText key ++ t))) = (seenString key, t) := by
  have hsolid : ws (stringText key ++ t) = stringText key ++ t := ws_solid rfl _
  rw [ws_gap, hsolid, string_text]

theorem colon_gap (g : Gap) (t : Bytes) : accept 58 (ws (g.text ++ 58 :: t)) = t := by
  rw [ws_gap, ws_solid rfl, accept, if_pos rfl]

/-- What stands behind an element or a member: a comma and the next one, or nothing. -/
theorem ends_rest (hc : isNumeric c = false) (last : Bool) (next t : Bytes) :
    Ends ((if last then [] else 44 :: next) ++ c :: t) := by
  cases last with
  | true => exact ends_cons hc t
  | false => exact ends_cons rfl _

theorem arrayLoop_gap (g : Gap) (a : List Json) {fuel : Nat} (hfuel : 2 ≤ fuel) :
    arrayLoop F fuel a (g.text ++ c :: t) = arrayLoop F fuel a (c :: t) := by
  obtain ⟨k, rfl⟩ := Nat.exists_eq_add_of_le' hfuel
  have hne : (g.text ++ c :: t).isEmpty = false := by simp
  rw [arrayLoop, arrayLoop, hne, value_gap]
  rfl

theorem objectLoop_gap (g : Gap) (o : List (Bytes × Json)) {fuel : Nat} (hfuel : 1 ≤ fuel) :
    objectLoop F fuel o (g.text ++ c :: t) = objectLoop F fuel o (c :: t) := by
  obtain ⟨k, rfl⟩ := Nat.exists_eq_add_of_le' hfuel
  have hne : (g.text ++ c :: t).isEmpty = false := by simp
  rw [objectLoop, objectLoop, hne, ws_gap]
  rfl

mutual

/-- **A value is read as a whole**, whatever stands behind it. -/
theorem value_text : ∀ (s : Source) {fuel : Nat} {t : Bytes}, Ends t → s.text.length ≤ fuel →
    value F fuel (s.text ++ t) = (seen F s, t)
  | s, 0, t, _, h => by
    obtain ⟨c, r, hs, -⟩ := text_starts s
    rw [hs] at h
    cases h
  | .null, fuel + 1, t, _, _ | .bool true, fuel + 1, t, _, _ | .bool false, fuel + 1, t, _, _ => rfl
  | .num l, fuel + 1, t, ht, _ => value_num F l ht fuel
  | .str ps, fuel + 1, t, _, _ => value_str F ps t fuel
  | .arr gap .nil, fuel + 1, t, _, _ => by
    have hgap := ws_gap gap (93 :: t)
    rw [ws_solid (c := 93) rfl] at hgap
    have htext : (Source.arr gap .nil).text ++ t = 91 :: (gap.text ++ 93 :: t) := by
      simp [Source.text, Items.isNil]
    rw [htext, value, ws_solid rfl]
    dsimp only
    rw [if_neg (by decide), if_pos rfl, hgap]
    rfl
  | .arr gap (.cons before v after rest), fuel + 1, t, _, h => by
    obtain ⟨c, r, hv, hblank, hne⟩ := text_starts v
    have hlen : (Items.cons before v after rest).text.length + 1 ≤ fuel := by
      simp only [Source.text, Items.isNil, length_cons, length_append, length_nil] at h
      simpa using h
    have htext : (Source.arr gap (.cons before v after rest)).text ++ t =
        91 :: ((Items.cons before v after rest).text ++ 93 :: t) := by simp [Source.text, Items.isNil]
    obtain ⟨rest', hrest⟩ : ∃ rest', (Items.cons before v after rest).text ++ 93 :: t =
        before.text ++ c :: rest' := ⟨_, by rw [Items.text, hv, append_assoc, cons_append]; rfl⟩
    have hws : ws ((Items.cons before v after rest).text ++ 93 :: t) = c :: rest' := by
      rw [hrest, ws_gap, ws_solid hblank]
    have hpos : 0 < (Items.cons before v after rest).text.length := by
      rw [Items.text, hv]
      simp
    have hloop := arrayLoop_text (.cons before v after rest) [] t rfl hlen
    rw [hrest, arrayLoop_gap F _ _ (by omega)] at hloop
    rw [htext, value, ws_solid rfl]
    dsimp only
    rw [if_neg (by decide), if_pos rfl, hws]
    split
    · rename_i heq
      exact absurd (cons.inj heq).1 hne
    · exact hloop
  | .obj gap .nil, fuel + 1, t, _, _ => by
    have hgap := ws_gap gap (125 :: t)
    rw [ws_solid (c := 125) rfl] at hgap
    have htext : (Source.obj gap .nil).text ++ t = 123 :: (gap.text ++ 125 :: t) := by
      simp [Source.text, Members.isNil]
    rw [htext, value, ws_solid rfl]
    dsimp only
    rw [if_pos rfl, hgap]
    rfl
  | .obj gap (.cons before key behindKey beforeValue v after rest), fuel + 1, t, _, h => by
    have hlen : (Members.cons before key behindKey beforeValue v after rest).text.length + 1 ≤ fuel := by
      simp only [Source.text, Members.isNil, length_cons, length_append, length_nil] at h
      simpa using h
    have htext : (Source.obj gap (.cons before key behindKey beforeValue v after rest)).text ++ t =
        123 :: ((Members.cons before key behindKey beforeValue v after rest).text ++ 125 :: t) := by
      simp [Source.text, Members.isNil]
    obtain ⟨rest', hrest⟩ : ∃ rest', (Members.cons before key behindKey beforeValue v after rest).text ++ 125 :: t =
        before.text ++ 34 :: rest' := ⟨_, by rw [Members.text, stringText, append_assoc]; rfl⟩
    have hws : ws ((Members.cons before key behindKey beforeValue v after rest).text ++ 125 :: t) =
        34 :: rest' := by
      rw [hrest, ws_gap, ws_solid rfl]
    have hloop := objectLoop_text (.cons before key behindKey beforeValue v after rest) [] t rfl hlen
    rw [hrest, objectLoop_gap F _ _ (by omega)] at hloop
    rw [htext, value, ws_solid rfl]
    dsimp only
    rw [if_pos rfl, hws]
    exact hloop

theorem arrayLoop_text : ∀ (items : Items) {fuel : Nat} (a : List Json) (t : Bytes), items.isNil = false →
    items.text.length + 1 ≤ fuel → arrayLoop F fuel a (items.text ++ 93 :: t) = (.arr (a ++ seenItems F items), t)
  | .nil, _, _, _, h, _ | .cons before v after rest, 0, _, _, _, h => by cases h
  | .cons before v after rest, 1, _, _, _, h => by
    obtain ⟨c, r, hv, -⟩ := text_starts v
    rw [Items.text, hv] at h
    simp at h
  | .cons before v after rest, fuel + 2, a, t, _, h => by
    have hends := ends_gap after (ends_rest (c := 93) rfl rest.isNil rest.text t)
    have hlen : v.text.length ≤ fuel + 1 ∧ (rest.isNil = false → rest.text.length + 1 ≤ fuel + 1) := by
      rw [Items.text] at h
      simp only [length_append] at h
      refine ⟨by omega, fun hrest => ?_⟩
      rw [hrest] at h
      simp at h
      omega
    have hvalue := value_text v hends hlen.1
    have htext : (Items.cons before v after rest).text ++ 93 :: t = before.text ++ (v.text ++ (after.text ++
        ((if rest.isNil then [] else 44 :: rest.text) ++ 93 :: t))) := by simp [Items.text]
    have hne : (before.text ++ (v.text ++ (after.text ++
        ((if rest.isNil then [] else 44 :: rest.text) ++ 93 :: t)))).isEmpty = false := by simp
    rw [htext, arrayLoop, hne]
    simp only [Bool.false_eq_true, if_false]
    rw [value_gap, hvalue]
    rw [ws_gap]
    cases hrest : rest with
    | nil =>
      have hws : ws (93 :: t) = 93 :: t := ws_solid rfl t
      simp only [Items.isNil, if_true, nil_append, hws]
      rfl
    | cons before' v' after' rest' =>
      have ih := arrayLoop_text rest (a ++ [seen F v]) t (by rw [hrest]; rfl) (hlen.2 (by rw [hrest]; rfl))
      have hws : ∀ x : Bytes, ws (44 :: x) = 44 :: x := ws_solid rfl
      simp only [Items.isNil, Bool.false_eq_true, if_false, cons_append, hws]
      rw [hrest] at ih
      rw [ih, seenItems, append_assoc]
      rfl

theorem objectLoop_text : ∀ (members : Members) {fuel : Nat} (o : List (Bytes × Json)) (t : Bytes),
    members.isNil = false → members.text.length + 1 ≤ fuel → objectLoop F fuel o (members.text ++ 125 :: t) =
      (.obj ((seenMembers F members).foldl (fun o m => setMember o m.1 m.2) o), t)
  | .nil, _, _, _, h, _ | .cons before key behindKey beforeValue v after rest, 0, _, _, _, h => by cases h
  | .cons before key behindKey beforeValue v after rest, 1, _, _, _, h => by
    rw [Members.text, stringText] at h
    simp at h
  | .cons before key behindKey beforeValue v after rest, fuel + 2, o, t, _, h => by
    have hends := ends_gap after (ends_rest (c := 125) rfl rest.isNil rest.text t)
    have hlen : v.text.length ≤ fuel + 1 ∧ (rest.isNil = false → rest.text.length + 1 ≤ fuel + 1) := by
      rw [Members.text] at h
      simp only [length_append, length_cons] at h
      refine ⟨by omega, fun hrest => ?_⟩
      rw [hrest] at h
      simp at h
      omega
    have hvalue := value_text v hends hlen.1
    have htext : (Members.cons before key behindKey beforeValue v after rest).text ++ 125 :: t =
        before.text ++ (stringText key ++ (behindKey.text ++ 58 :: (beforeValue.text ++ (v.text ++ (after.text ++
          ((if rest.isNil then [] else 44 :: rest.text) ++ 125 :: t)))))) := by simp [Members.text]
    generalize hT : after.text ++ ((if rest.isNil then [] else 44 :: rest.text) ++ 125 :: t) = T at *
    have hne : (before.text ++ (stringText key ++ (behindKey.text ++ 58 :: (beforeValue.text ++
        (v.text ++ T))))).isEmpty = false := by simp
    rw [htext, objectLoop, hne]
    simp only [Bool.false_eq_true, if_false]
    rw [key_gap]
    rw [colon_gap, value_gap, hvalue]
    rw [← hT, ws_gap]
    cases hrest : rest with
    | nil =>
      have hws : ws (125 :: t) = 125 :: t := ws_solid rfl t
      simp only [Members.isNil, if_true, nil_append, hws]
      rfl
    | cons before' key' behindKey' beforeValue' v' after' rest' =>
      have ih := objectLoop_text rest (setMember o (seenString key) (seen F v)) t (by rw [hrest]; rfl)
        (hlen.2 (by rw [hrest]; rfl))
      have hws : ∀ x : Bytes, ws (44 :: x) = 44 :: x := ws_solid rfl
      simp only [Members.isNil, Bool.false_eq_true, if_false, cons_append, hws]
      rw [hrest] at ih
      exact ih

end

/-- **What the parser makes of a standard text.** -/
theorem parseJson_text (d : Document) : parseJson F d.text = seen F d.source := by
  have hends : Ends d.after.text := by
    have h := ends_gap d.after (t := []) (fun b hb => by cases hb)
    rwa [append_nil] at h
  obtain ⟨c, r, hs, hblank, -⟩ := text_starts d.source
  have hws : ws d.text = d.source.text ++ d.after.text := by
    rw [Document.text, ws_gap, hs, cons_append, ws_solid hblank]
  have hlen : d.source.text.length ≤ 2 * d.text.length + 1 := by
    rw [Document.text, length_append, length_append]
    omega
  rw [parseJson, hws, value_text F d.source hends hlen]

end

/-! ## 4. Where the parser reads what is written -/

/-- A piece that the parser reads as it is meant. -/
def PlainPiece : Piece → Prop
  | .raw _ _ => True
  | .short e => e ≠ .backspace ∧ e ≠ .formFeed
  | .unit _ c _ => c = '?'
  | .pair _ _ _ _ => False

def PlainString (ps : List Piece) : Prop := ∀ p ∈ ps, PlainPiece p

theorem utf8_question_iff (c : Char) : [63] = String.utf8EncodeChar c ↔ c = '?' := by
  constructor
  · intro h
    have hrow := Utf8.row_encodeChar c
    rw [← h] at hrow
    exact Char.toNat_inj.mp hrow.2
  · intro h
    rw [h]
    rfl

theorem length_utf8_paired {high low : Nat} {c : Char} (h : Paired high low c) :
    (String.utf8EncodeChar c).length = 4 := by
  obtain ⟨hhigh, hlow, hc⟩ := h
  rw [Utf8.encodeChar_eq, if_neg (by omega), if_neg (by omega), if_neg (by omega)]
  rfl

theorem length_seenPiece : (seenPiece p).length ≤ p.bytes.length := by
  cases p with
  | raw b h | short e => exact le_refl _
  | unit q c h => exact Utf8.encodeChar_length_pos c
  | pair high low c h =>
    have h4 := length_utf8_paired h
    exact le_trans (by decide : 2 ≤ 4) h4.ge

theorem seenPiece_eq_iff : seenPiece p = p.bytes ↔ PlainPiece p := by
  cases p with
  | raw b h => exact iff_of_true rfl trivial
  | short e => cases e <;> simp [seenPiece, Piece.bytes, PlainPiece, Escape.letter, Escape.byte, unescape]
  | unit q c h => exact utf8_question_iff c
  | pair high low c h =>
    refine ⟨fun heq => ?_, fun hfalse => hfalse.elim⟩
    have hlen := congrArg length heq
    rw [Piece.bytes, length_utf8_paired h] at hlen
    cases hlen

theorem seenString_eq_iff (ps : List Piece) : seenString ps = stringBytes ps ↔ PlainString ps := by
  rw [seenString, stringBytes, flatMap_eq_iff_of_length length_seenPiece]
  exact forall_congr' fun p => imp_congr_right fun _ => seenPiece_eq_iff p

mutual

/-- The values in question: integers of at most 2^53, objects without a repeated key. -/
def Ordinary : Json → Prop
  | .num q => ∃ n : Int, n.natAbs ≤ 2 ^ 53 ∧ q = n
  | .arr vs => OrdinaryAll vs
  | .obj ms => (ms.map Prod.fst).Nodup ∧ OrdinaryMembers ms
  | _ => True

def OrdinaryAll : List Json → Prop
  | [] => True
  | v :: vs => Ordinary v ∧ OrdinaryAll vs

def OrdinaryMembers : List (Bytes × Json) → Prop
  | [] => True
  | (_, v) :: ms => Ordinary v ∧ OrdinaryMembers ms

end

mutual

/-- A text whose strings are plain. -/
def Plain : Source → Prop
  | .str ps => PlainString ps
  | .arr _ items => PlainItems items
  | .obj _ members => PlainMembers members
  | _ => True

def PlainItems : Items → Prop
  | .nil => True
  | .cons _ v _ rest => Plain v ∧ PlainItems rest

def PlainMembers : Members → Prop
  | .nil => True
  | .cons _ key _ _ v _ rest => (PlainString key ∧ Plain v) ∧ PlainMembers rest

end

theorem setMember_new {o : List (Bytes × Json)} {k : Bytes} (v : Json) (hk : k ∉ o.map Prod.fst) :
    setMember o k v = o ++ [(k, v)] := by
  induction o with
  | nil => rfl
  | cons m o ih =>
    obtain ⟨k', v'⟩ := m
    rw [map_cons, mem_cons, not_or] at hk
    rw [setMember, if_neg fun h => hk.1 h.symm, ih hk.2, cons_append]

theorem length_setMember {o : List (Bytes × Json)} {k : Bytes} (v : Json) (hk : k ∈ o.map Prod.fst) :
    (setMember o k v).length = o.length := by
  induction o with
  | nil => cases hk
  | cons m o ih =>
    obtain ⟨k', v'⟩ := m
    rw [setMember]
    split
    · rfl
    · rename_i hne
      rcases mem_cons.mp hk with rfl | hk
      · exact absurd rfl hne
      · rw [length_cons, length_cons, ih hk]

theorem foldl_setMember_length : ∀ (ms o : List (Bytes × Json)),
    (ms.foldl (fun o m => setMember o m.1 m.2) o).length ≤ o.length + ms.length ∧
      ((ms.foldl (fun o m => setMember o m.1 m.2) o).length = o.length + ms.length →
        ms.foldl (fun o m => setMember o m.1 m.2) o = o ++ ms)
  | [], o => ⟨le_refl _, fun _ => (append_nil o).symm⟩
  | m :: ms, o => by
    obtain ⟨hle, heq⟩ := foldl_setMember_length ms (setMember o m.1 m.2)
    rw [foldl_cons, length_cons]
    by_cases hk : m.1 ∈ o.map Prod.fst
    · rw [length_setMember m.2 hk] at hle
      exact ⟨by omega, fun h => by omega⟩
    · rw [setMember_new m.2 hk, length_append, length_singleton] at hle heq
      rw [setMember_new m.2 hk]
      refine ⟨by omega, fun h => ?_⟩
      rw [heq (by omega), append_assoc, singleton_append]

theorem foldl_setMember_nodup : ∀ (ms o : List (Bytes × Json)), ((o ++ ms).map Prod.fst).Nodup →
    ms.foldl (fun o m => setMember o m.1 m.2) o = o ++ ms
  | [], o, _ => (append_nil o).symm
  | m :: ms, o, h => by
    have hk : m.1 ∉ o.map Prod.fst := by
      rw [map_append, nodup_append'] at h
      exact fun hmem => h.2.2 hmem (by simp)
    rw [foldl_cons, setMember_new m.2 hk, foldl_setMember_nodup ms _ (by simpa using h), append_assoc,
      singleton_append]

/-- **Members read one after the other** come to members with distinct keys exactly if they are these. -/
theorem foldl_setMember_eq_iff {ms target : List (Bytes × Json)} (hlen : ms.length = target.length)
    (hkeys : (target.map Prod.fst).Nodup) :
    ms.foldl (fun o m => setMember o m.1 m.2) [] = target ↔ ms = target := by
  constructor
  · intro h
    have hfold := (foldl_setMember_length ms []).2 (by rw [h, length_nil, zero_add, hlen])
    rw [← h, hfold, nil_append]
  · intro h
    rw [h]
    exact foldl_setMember_nodup target [] hkeys

theorem length_seenMembers (F : Floats) : ∀ ms : Members, (seenMembers F ms).length = ms.values.length
  | .nil => rfl
  | .cons _ _ _ _ _ _ rest => congrArg (· + 1) (length_seenMembers F rest)

section

variable (F : Floats)

mutual

/-- **The parser reads the value of a text** exactly if its strings are plain. -/
theorem seen_eq_value_iff : ∀ s : Source, Ordinary s.value → (seen F s = s.value ↔ Plain s)
  | .null, _ | .bool b, _ => iff_of_true rfl trivial
  | .num l, h => by
    obtain ⟨n, hn, hl⟩ := h
    have hround := F.exact n 0 hn (zero_le _)
    rw [pow_zero, mul_one] at hround
    rw [seen, Source.value, hl, hround]
    exact iff_of_true rfl trivial
  | .str ps, _ => by
    rw [seen, Source.value, Value.str.injEq]
    exact seenString_eq_iff ps
  | .arr gap items, h => by
    rw [seen, Source.value, Value.arr.injEq]
    exact seenItems_eq_iff items h
  | .obj gap members, h => by
    rw [seen, Source.value, Value.obj.injEq, foldl_setMember_eq_iff (length_seenMembers F members) h.1]
    exact seenMembers_eq_iff members h.2

theorem seenItems_eq_iff : ∀ items : Items, OrdinaryAll items.values →
    (seenItems F items = items.values ↔ PlainItems items)
  | .nil, _ => iff_of_true rfl trivial
  | .cons _ v _ rest, h => by
    rw [seenItems, Items.values, cons.injEq, seen_eq_value_iff v h.1, seenItems_eq_iff rest h.2]
    rfl

theorem seenMembers_eq_iff : ∀ members : Members, OrdinaryMembers members.values →
    (seenMembers F members = members.values ↔ PlainMembers members)
  | .nil, _ => iff_of_true rfl trivial
  | .cons _ key _ _ v _ rest, h => by
    rw [seenMembers, Members.values, cons.injEq, Prod.mk.injEq, seenString_eq_iff, seen_eq_value_iff v h.1,
      seenMembers_eq_iff rest h.2]
    rfl

end

end

end Vyb.Lsp
