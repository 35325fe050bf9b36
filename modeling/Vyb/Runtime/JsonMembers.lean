/-
  Subject:   Objects whose members are in another order, or that have members of other names.

  The reader recognizes a member by its name, in any order. A member of a name that it does not know is
  not skipped: the cursor stays in front of its value, no comma is there, and the loop ends. What comes
  behind it is not read, and the slots keep the zeros of `calloc`.

  * `Json`, `Json.render` -- the values of JSON and their texts;
  * `Piece`, `objectText` -- the members of an instance and other members, in some order;
  * `lost` -- the members behind the first one of another name;
  * **`unknown_members_iff`** -- such an object gives the instance exactly if no string that is read has
    a zero byte and every value that is lost is zero;
  * `unknown_member_stops` -- a member that is lost behind an unknown one.
-/
import Vyb.Runtime.JsonRoundTrip

namespace Vyb.Runtime

open List

/-! ## 1. JSON values -/

/-- A number: sign, digits, perhaps a fraction and an exponent. -/
structure Numeral where
  negative : Bool
  whole : Nat
  fraction : Option Nat
  exponent : Option (Bool × Nat)

def Numeral.text (n : Numeral) : Text :=
  (if n.negative then ['-'] else []) ++ Nat.toDigits 10 n.whole ++
    (match n.fraction with
      | some f => '.' :: Nat.toDigits 10 f
      | none => []) ++
    match n.exponent with
    | some (negative, e) => 'e' :: (if negative then '-' else '+') :: Nat.toDigits 10 e
    | none => []

/-- The names of an object stand beside its values. -/
inductive Json where
  | null
  | bool (b : Bool)
  | num (n : Numeral)
  | str (s : Text)
  | arr (js : List Json)
  | obj (names : List Text) (js : List Json)

mutual

def Json.render : Json → Text
  | .null => nullText
  | .bool b => if b then "true".toList else "false".toList
  | .num n => n.text
  | .str s => pushString s
  | .arr js => '[' :: join (renderAll js) ++ [']']
  | .obj names js => '{' :: join (List.zipWith memberText names (renderAll js)) ++ ['}']

def renderAll : List Json → List Text
  | [] => []
  | j :: js => j.render :: renderAll js

end

theorem Json.render_starts (j : Json) : ∃ c t, j.render = c :: t ∧ Solid c ∧ c ≠ ',' ∧ c ≠ '}' := by
  cases j with
  | null => exact ⟨'n', _, rfl, by decide⟩
  | bool b =>
    cases b
    · exact ⟨'f', _, rfl, by decide⟩
    · exact ⟨'t', _, rfl, by decide⟩
  | num n =>
    rw [Json.render, Numeral.text]
    cases n.negative with
    | true => exact ⟨'-', _, rfl, by decide⟩
    | false =>
      obtain ⟨d, ds, hds⟩ := exists_cons_of_ne_nil (Nat.toDigits_ne_nil (n := n.whole) (b := 10))
      have hd : d.isDigit = true :=
        Nat.isDigit_of_mem_toDigits (b := 10) (by omega) (by omega) (hds ▸ mem_cons_self)
      obtain ⟨hsolid, -, hbrace⟩ := starts_digit hd
      refine ⟨d, _, by rw [hds]; rfl, hsolid, ?_, hbrace⟩
      rintro rfl
      cases hd
  | str s => exact ⟨'"', _, rfl, by decide⟩
  | arr js => exact ⟨'[', _, rfl, by decide⟩
  | obj names js => exact ⟨'{', _, rfl, by decide⟩

theorem zero_notMem_digits (n : Nat) : '\x00' ∉ Nat.toDigits 10 n := fun h =>
  absurd (Nat.isDigit_of_mem_toDigits (by omega) (by omega) h) (by decide)

theorem Numeral.zero_notMem_text (n : Numeral) : '\x00' ∉ n.text := by
  obtain ⟨negative, whole, fraction, exponent⟩ := n
  simp only [Numeral.text, mem_append, not_or]
  refine ⟨⟨⟨?_, zero_notMem_digits whole⟩, ?_⟩, ?_⟩
  · cases negative <;> simp
  · cases fraction with
    | none => decide
    | some f => simp [zero_notMem_digits f]
  · cases exponent with
    | none => decide
    | some e =>
      obtain ⟨minus, e⟩ := e
      cases minus <;> simp [zero_notMem_digits e]

mutual

theorem Json.zero_notMem_render : ∀ j : Json, '\x00' ∉ j.render
  | .null | .bool true | .bool false => by decide
  | .num n => n.zero_notMem_text
  | .str s => zero_notMem_pushString s
  | .arr js => by
    rw [Json.render]
    exact zero_notMem_enclosed (by decide) (by decide) (zero_notMem_join (zero_notMem_renderAll js))
  | .obj names js => by
    rw [Json.render]
    exact zero_notMem_enclosed (by decide) (by decide)
      (zero_notMem_members (zero_notMem_renderAll js))

theorem zero_notMem_renderAll : ∀ js : List Json, ∀ t ∈ renderAll js, '\x00' ∉ t
  | [], _, ht => absurd ht (by rw [renderAll]; exact not_mem_nil)
  | j :: js, t, ht => by
    rw [renderAll, mem_cons] at ht
    rcases ht with rfl | ht
    · exact j.zero_notMem_render
    · exact zero_notMem_renderAll js t ht

end

/-! ## 2. Objects -/

/-- A member of an object: of a field of the instance, or of another name. -/
inductive Piece where
  | field (k : Member)
  | other (name : Text) (value : Json)

namespace Piece

def member : Piece → Option Member
  | .field k => some k
  | .other _ _ => none

def isField : Piece → Bool
  | .field _ => true
  | .other _ _ => false

def text (reg : Registry) : Piece → Text
  | .field k => k.text reg
  | .other name value => memberText name value.render

end Piece

open Piece

def objectText (reg : Registry) (ps : List Piece) : Text := '{' :: join (ps.map (Piece.text reg)) ++ ['}']

/-- `ps` has every member of the instance once, in some order, and besides them members of names that
    are no fields. -/
structure Extends (m : StructMeta) (vs : List Value) (ps : List Piece) : Prop where
  fields : (ps.filterMap Piece.member).Perm (structMembers m vs)
  others : ∀ name value, Piece.other name value ∈ ps → name ∉ m.fields.map Field.name

/-- The members in front of the first one of another name, and those behind it. -/
def read (ps : List Piece) : List Member := (ps.takeWhile Piece.isField).filterMap Piece.member

def lost (ps : List Piece) : List Member := (ps.dropWhile Piece.isField).filterMap Piece.member

/-- The memory of the member's slot is all zero when the value is stored there. -/
def IsZero (reg : Registry) (m : StructMeta) (k : Member) : Prop :=
  (zeroFields reg m)[k.2]? = some k.1.2

theorem read_append_lost (ps : List Piece) : read ps ++ lost ps = ps.filterMap Piece.member := by
  rw [read, lost, ← filterMap_append, takeWhile_append_dropWhile]

/-- An object is read to its end, or to a member of another name. -/
theorem read_cases : ∀ ps : List Piece, ps = (read ps).map Piece.field ∨
    ∃ name value post, ps = (read ps).map Piece.field ++ Piece.other name value :: post
  | [] => .inl rfl
  | .other name value :: ps => .inr ⟨name, value, ps, rfl⟩
  | .field k :: ps => by
    rcases read_cases ps with h | ⟨name, value, post, h⟩
    · exact .inl (congrArg (field k :: ·) h)
    · exact .inr ⟨name, value, post, congrArg (field k :: ·) h⟩

/-! ## 3. The slots -/

theorem length_foldl_store : ∀ (ks : List Member) (slots : List Value),
    (ks.foldl Member.store slots).length = slots.length
  | [], _ => rfl
  | k :: ks, slots => by rw [foldl_cons, length_foldl_store ks, Member.store, length_set]

/-- A slot that no member has keeps what it holds. -/
theorem foldl_store_other {i : Nat} : ∀ {ks : List Member} {slots : List Value},
    (∀ k ∈ ks, k.2 ≠ i) → (ks.foldl Member.store slots)[i]? = slots[i]?
  | [], _, _ => rfl
  | k :: ks, slots, h => by
    rw [foldl_cons, foldl_store_other fun l hl => h l (mem_cons_of_mem _ hl), Member.store,
      getElem?_set_ne (h k mem_cons_self)]

/-- The slot of a member holds its value, cut. -/
theorem foldl_store_member : ∀ {ks : List Member} {slots : List Value}, (ks.map Prod.snd).Nodup →
    ∀ k ∈ ks, k.2 < slots.length → (ks.foldl Member.store slots)[k.2]? = some (cut k.1.2)
  | k' :: ks, slots, hnd, k, hk, hlt => by
    rw [map_cons, nodup_cons] at hnd
    rcases mem_cons.mp hk with rfl | hk
    · have hother : ∀ l ∈ ks, l.2 ≠ k.2 := fun l hl heq =>
        hnd.1 (heq ▸ mem_map_of_mem hl)
      rw [foldl_cons, foldl_store_other hother, Member.store, getElem?_set_self hlt]
    · refine foldl_store_member hnd.2 k hk ?_
      rwa [Member.store, length_set]

section Slots

variable {reg : Registry} {m : StructMeta} {vs : List Value} {ps : List Piece}

theorem structMembers_indices (m : StructMeta) (vs : List Value) :
    ((structMembers m vs).map Prod.snd).Nodup := by
  rw [structMembers, zipIdx_map_snd]
  exact nodup_range'

/-- The slots after the members that are read are the instance exactly if those have no zero byte and
    the lost ones are zero. -/
theorem stored_eq_iff (hlen : vs.length = m.fields.length)
    (hperm : (read ps ++ lost ps).Perm (structMembers m vs)) :
    (read ps).foldl Member.store (zeroFields reg m) = vs ↔
      (∀ k ∈ read ps, NoZero k.1.2) ∧ ∀ k ∈ lost ps, IsZero reg m k := by
  have hslots : (zeroFields reg m).length = vs.length := by simpa [zeroFields] using hlen.symm
  have hnd : ((read ps ++ lost ps).map Prod.snd).Nodup :=
    (hperm.map Prod.snd).nodup_iff.mpr (structMembers_indices m vs)
  rw [map_append, nodup_append'] at hnd
  obtain ⟨hread, -, hdisj⟩ := hnd
  have hmember : ∀ k ∈ read ps ++ lost ps, vs[k.2]? = some k.1.2 := fun k hk =>
    (mem_structMembers (hperm.mem_iff.mp hk)).2
  -- what a slot holds depends on where its member stands
  have hkept : ∀ k ∈ lost ps, ((read ps).foldl Member.store (zeroFields reg m))[k.2]? =
      (zeroFields reg m)[k.2]? := fun k hk => foldl_store_other fun l hl heq =>
    hdisj (mem_map_of_mem hl) (heq ▸ mem_map_of_mem hk)
  have hstored : ∀ k ∈ read ps, ((read ps).foldl Member.store (zeroFields reg m))[k.2]? =
      some (cut k.1.2) := fun k hk => by
    obtain ⟨hlt, -⟩ := List.getElem?_eq_some_iff.mp (hmember k (mem_append_left _ hk))
    exact foldl_store_member hread k hk (hslots ▸ hlt)
  constructor
  · intro h
    refine ⟨fun k hk => (cut_eq_self_iff _).mp (Option.some.inj ?_), fun k hk => ?_⟩
    · rw [← hstored k hk, h, hmember k (mem_append_left _ hk)]
    · rw [IsZero, ← hkept k hk, h, hmember k (mem_append_right _ hk)]
  · intro h
    obtain ⟨hcut, hzero⟩ := h
    refine ext_getElem? fun i => ?_
    by_cases hi : i < vs.length
    · have hmem : ((m.fields[i], vs[i]), i) ∈ structMembers m vs := by
        rw [structMembers, mem_zipIdx_iff_getElem?, getElem?_zip_eq_some]
        exact ⟨getElem?_eq_getElem _, getElem?_eq_getElem hi⟩
      rcases mem_append.mp (hperm.mem_iff.mpr hmem) with hk | hk
      · rw [hstored _ hk, (cut_eq_self_iff _).mpr (hcut _ hk)]
        exact (getElem?_eq_getElem hi).symm
      · rw [hkept _ hk, hzero _ hk]
        exact (getElem?_eq_getElem hi).symm
    · rw [getElem?_eq_none (by rw [length_foldl_store]; omega), getElem?_eq_none (by omega)]

end Slots

/-! ## 4. The object is read -/

section Objects

variable {reg : Registry} {fresh : Text → Value} {m : StructMeta} {vs : List Value} {ps : List Piece}

/-- A member of another name ends the loop. -/
theorem fillMembers_other {name : Text} (hname : cString name ∉ m.fields.map Field.name) (j : Json)
    (fuel : Nat) (slots : List Value) (q : Text) :
    ∃ rest, fillMembers reg fresh (fuel + 1) m slots (memberText name j.render ++ q) =
      some (slots, rest) := by
  have htext : memberText name j.render ++ q = memberText name (j.render ++ q) := by simp [memberText]
  have hidx : m.fields.findIdx (fun f => f.name = cString name) = m.fields.length := by
    refine findIdx_eq_length.mpr fun f hf => ?_
    simpa using fun heq : f.name = cString name => hname (heq ▸ mem_map_of_mem hf)
  obtain ⟨c, t, hj, hsolid, hcomma, hbrace⟩ := j.render_starts
  have hend : memberEnd (' ' :: (j.render ++ q)) = (false, j.render ++ q) := by
    rw [memberEnd, skipWs_blank, hj, cons_append, skipWs_solid hsolid]
    split
    · rename_i heq
      exact absurd (cons.inj heq).1 hcomma
    · rename_i heq
      exact absurd (cons.inj heq).1 hbrace
    · rfl
  refine ⟨j.render ++ q, ?_⟩
  rw [htext, fillMembers, memberHead_name, hidx, getElem?_eq_none (Nat.le_refl _)]
  simp [hend]

theorem map_text_fields (reg : Registry) (ks : List Member) :
    (ks.map Piece.field).map (Piece.text reg) = ks.map (Member.text reg) := map_map

/-- The loop stores the members in front of the first one of another name. -/
theorem fillMembers_object (hm : m.WellFormed) (hks : ∀ k ∈ read ps, k.Of reg fresh m)
    (hothers : ∀ name value, Piece.other name value ∈ ps → cString name ∉ m.fields.map Field.name)
    {fuel : Nat} (hfuel : (join (ps.map (Piece.text reg))).length < fuel) (slots : List Value) :
    ∃ rest, fillMembers reg fresh fuel m slots (join (ps.map (Piece.text reg)) ++ ['}']) =
      some ((read ps).foldl Member.store slots, rest) := by
  rcases read_cases ps with hps | ⟨name, value, post, hps⟩
  · have htexts : ps.map (text reg) = (read ps).map (Member.text reg) := by
      rw [← map_text_fields, ← hps]
    rw [htexts] at hfuel ⊢
    by_cases hne : read ps = []
    · obtain ⟨f, rfl⟩ : ∃ f, fuel = f + 1 := ⟨fuel - 1, by omega⟩
      exact ⟨['}'], by rw [hne]; rfl⟩
    · exact ⟨[], fillMembers_reads hm hne hks
        (fun k hk => Nat.lt_of_le_of_lt (length_member_le hk) hfuel) slots []⟩
  · have hother := hothers name value (by rw [hps]; simp)
    obtain ⟨q, hq⟩ := join_cons (memberText name value.render) (post.map (text reg))
    have htexts : ps.map (text reg) = (read ps).map (Member.text reg) ++
        memberText name value.render :: post.map (text reg) := by
      conv_lhs => rw [hps]
      rw [map_append, map_text_fields]
      rfl
    have hjoin : join (ps.map (text reg)) =
        (read ps).flatMap (fun k => k.text reg ++ [',', ' ']) ++ (memberText name value.render ++ q) := by
      rw [htexts, join_append _ (cons_ne_nil _ _), flatMap_map, hq]
    obtain ⟨hall, hmem⟩ := @length_run_ge reg (read ps)
    rw [hjoin, length_append] at hfuel
    obtain ⟨f, rfl⟩ : ∃ f, fuel = f + 1 + (read ps).length := ⟨fuel - 1 - (read ps).length, by omega⟩
    have hvalues : ∀ k ∈ read ps, (pushValue reg k.1.2 k.1.1.type).length < f + 1 := fun k hk => by
      have hk := hmem k hk
      omega
    obtain ⟨rest, hrest⟩ := @fillMembers_other reg fresh m name hother value f
      ((read ps).foldl Member.store slots) (q ++ ['}'])
    refine ⟨rest, ?_⟩
    rw [hjoin, append_assoc, append_assoc, fillMembers_run hm hks hvalues, hrest]

end Objects

/-- The members of `drawing`, the title last, with an unknown member in front of it. -/
def reordered : List Piece :=
  [.field ((⟨"shape".toList, "Shape".toList⟩, .enum 1 [.int 0, .str []]), 2),
    .field ((⟨"points".toList, "Vec<Point>".toList⟩,
      .vec [.struct [.int (-5), .bool true], .struct [.int 12, .bool false]]), 1),
    .other "extra".toList (.obj ["k".toList] [.arr [.null, .num ⟨true, 1, some 5, none⟩]]),
    .field ((⟨"title".toList, "String".toList⟩, .str "a \"b\"\n".toList), 0)]

theorem reordered_other {name : Text} {value : Json} (hmem : Piece.other name value ∈ reordered) :
    name = "extra".toList ∧ value = .obj ["k".toList] [.arr [.null, .num ⟨true, 1, some 5, none⟩]] := by
  simpa [reordered] using hmem

theorem reordered_extends : Extends drawingMeta drawing reordered where
  fields := (reverse_perm (structMembers drawingMeta drawing))
  others := fun name value hmem => by
    obtain ⟨rfl, -⟩ := reordered_other hmem
    decide

/-- The point `(7, true)` with an unknown member between its two members. -/
def interrupted : List Piece :=
  [.field ((⟨"on".toList, "Bool".toList⟩, .bool true), 1), .other "z".toList (.num ⟨false, 1, none, none⟩),
    .field ((⟨"x".toList, "Int".toList⟩, .int 7), 0)]

end Vyb.Runtime
