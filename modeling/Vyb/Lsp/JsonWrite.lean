/-
  Subject:   What `writeJson` prints, read back and read as JSON.

  The writer prints a standard text. Its strings stand for the strings it was given; of a number `%g` keeps six
  significant digits. The parser reads this text, but not the control characters, which are written with `\u`.

  * `written`, `written_text` -- the text of a value, as a standard text;
  * **`formatInt_eq_iff`** -- an integer is printed as it is exactly if it has at most six significant digits;
  * `seen_written_iff`, `written_seen_iff` -- a value that is printed and read, a text that is read and printed;
  * **`json_layer_iff`** -- when values and texts survive the layer, and a response has the id of its request.
-/
import Vyb.Lsp.JsonRead

namespace Vyb.Lsp

open Lib JsonText JsonParser List Nat Value
open Vyb.Runtime (Str)

/-! ## 1. `%g` of an integer -/

theorem decimalValue_digitsOf (m : Nat) : decimalValue (digitsOf m) = m := by
  rw [digitsOf]
  split
  · rename_i hm
    rw [hm]
    rfl
  · have hmap : ((digits 10 m).map (Fin.ofNat 10)).map Fin.val = digits 10 m := by
      rw [map_map]
      refine (map_congr_left fun d hd => ?_).trans (map_id _)
      exact mod_eq_of_lt (digits_lt_base (by decide) hd)
    rw [decimalValue, ← map_reverse, reverse_reverse, hmap, ofDigits_digits]

theorem decimalValue_exponentDigits (x : Nat) : decimalValue (exponentDigits x) = x := by
  rw [exponentDigits]
  split
  · rename_i hx
    simp [decimalValue, ofDigits_cons, mod_eq_of_lt hx]
  · exact decimalValue_digitsOf x

variable {m : Nat}

theorem length_digitsOf (hlo : 10 ^ 5 ≤ m) (hhi : m < 10 ^ 6) : (digitsOf m).length = 6 := by
  have hm : m ≠ 0 := by omega
  have hlog : log 10 m = 5 := by rw [log_eq_iff (by omega)]; exact ⟨hlo, hhi⟩
  rw [digitsOf, if_neg hm, length_map, length_reverse, length_digits 10 m (by decide) hm, hlog]

theorem exists_zeros (ds : List (Fin 10)) : ∃ z, ds = ds.rdropWhile (· = 0) ++ List.replicate z 0 := by
  induction ds using reverseRecOn with
  | nil => exact ⟨0, rfl⟩
  | append_singleton ds d ih =>
    by_cases hd : d = 0
    · obtain ⟨z, hz⟩ := ih
      refine ⟨z + 1, ?_⟩
      rw [rdropWhile_concat_pos _ _ _ (by simpa using hd), replicate_succ', ← append_assoc, ← hz, hd]
    · refine ⟨0, ?_⟩
      rw [rdropWhile_concat_neg _ _ _ (by simpa using hd)]
      simp

theorem decimalValue_zeros (z : Nat) : decimalValue (List.replicate z 0) = 0 := by
  induction z with
  | zero => rfl
  | succ z ih =>
    rw [replicate_succ', decimalValue_append, ih]
    rfl

theorem nearest_spec (m unit : Nat) (hunit : 0 < unit) : m / unit ≤ nearest m unit ∧
    nearest m unit ≤ m / unit + 1 ∧ (m % unit = 0 → nearest m unit = m / unit) := by
  simp only [nearest]
  split_ifs with h1 h2
  · exact ⟨le_refl _, le_succ _, fun _ => rfl⟩
  · exact ⟨le_succ _, le_refl _, fun h => by omega⟩
  · exact ⟨le_add_right _ _, by omega, fun h => by omega⟩

theorem quotient_bounds (h : 10 ^ 6 ≤ m) : 6 ≤ Nat.log 10 m ∧
    10 ^ 5 ≤ m / 10 ^ (Nat.log 10 m - 5) ∧ m / 10 ^ (Nat.log 10 m - 5) < 10 ^ 6 := by
  have hlog : 6 ≤ log 10 m := (le_log_iff_pow_le (by decide) (by omega)).mpr h
  have hlo : 10 ^ log 10 m ≤ m := pow_log_le_self 10 (by omega)
  have hhi : m < 10 ^ (log 10 m + 1) := lt_pow_succ_log_self (by decide) m
  refine ⟨hlog, ?_, ?_⟩
  · rw [le_div_iff_mul_le (by positivity), ← pow_add]
    exact le_trans (le_of_eq (by congr 1; omega)) hlo
  · rw [div_lt_iff_lt_mul (by positivity), ← pow_add]
    exact lt_of_lt_of_le hhi (le_of_eq (by congr 1; omega))

theorem sixDigits_spec (h : 10 ^ 6 ≤ m) : 10 ^ 5 ≤ (sixDigits m).1 ∧ (sixDigits m).1 < 10 ^ 6 ∧
    6 ≤ (sixDigits m).2 ∧ (sixDigits m).2 ≤ Nat.log 10 m + 1 := by
  obtain ⟨hlog, hlo, hhi⟩ := quotient_bounds h
  obtain ⟨hle, hge, -⟩ := nearest_spec m (10 ^ (log 10 m - 5)) (by positivity)
  simp only [sixDigits]
  split_ifs with hq
  · exact ⟨le_refl _, by norm_num, by omega, le_refl _⟩
  · exact ⟨by omega, by omega, hlog, le_succ _⟩

/-- What `%g` keeps of a number. -/
def roundSix (m : Nat) : Nat := if m < 10 ^ 6 then m else (sixDigits m).1 * 10 ^ ((sixDigits m).2 - 5)

theorem value_scientific {d : Fin 10} {ds : List (Fin 10)} {x : Nat} (hx : 5 ≤ x) (hlen : ds.length = 5)
    (hm : decimalValue (d :: ds) = m) :
    (decimalValue (d :: ds.rdropWhile (· = 0)) : Rat) *
      (10 : Rat) ^ ((x : Int) - (ds.rdropWhile (· = 0)).length) = (m * 10 ^ (x - 5) : Nat) := by
  obtain ⟨z, hz⟩ := exists_zeros ds
  generalize ds.rdropWhile (· = 0) = kept at hz ⊢
  subst hz
  rw [length_append, length_replicate] at hlen
  have hnumeral : decimalValue (d :: kept) * 10 ^ z = m := by
    rw [← cons_append, decimalValue_append, decimalValue_zeros, length_replicate, add_zero] at hm
    exact hm
  have hpow : (10 : Rat) ^ ((x : Int) - kept.length) = (10 ^ (z + (x - 5)) : Nat) := by
    have hexp : (x : Int) - kept.length = ((z + (x - 5) : Nat) : Int) := by omega
    rw [hexp, zpow_natCast]
    push_cast
    rfl
  rw [hpow, ← hnumeral, pow_add]
  push_cast
  ring

/-- **What is printed of an integer.** -/
theorem formatInt_value (n : Int) :
    (formatInt n).value = ((if n < 0 then -1 else 1) * (roundSix n.natAbs : Int) : Int) := by
  rw [formatInt, roundSix]
  split
  · simp [Literal.value, Literal.expValue, decimalValue_digitsOf]
  · rename_i hbig
    obtain ⟨hlo, hhi, hx, -⟩ := sixDigits_spec (not_lt.mp hbig)
    obtain ⟨d, ds, hds⟩ := exists_cons_of_ne_nil (digitsOf_ne (sixDigits n.natAbs).1)
    have hlen : ds.length = 5 := by
      have h := length_digitsOf hlo hhi
      rw [hds, length_cons] at h
      omega
    have hm : decimalValue (d :: ds) = (sixDigits n.natAbs).1 := by rw [← hds, decimalValue_digitsOf]
    have hvalue := value_scientific (x := (sixDigits n.natAbs).2) (by omega) hlen hm
    simp only [Literal.value, Literal.expValue, Exponent.value, decimalValue_exponentDigits, hds, headD_cons,
      tail_cons, singleton_append]
    have hplus : ¬ some false = some true := by decide
    rw [if_neg hplus, mul_assoc, hvalue]
    simp

/-- At most six significant digits. -/
def SixDigits (n : Int) : Prop := ∃ (m : Int) (k : Nat), m.natAbs < 10 ^ 6 ∧ n = m * 10 ^ k

theorem roundSix_eq_iff (m : Nat) : roundSix m = m ↔ ∃ a k : Nat, a < 10 ^ 6 ∧ m = a * 10 ^ k := by
  rw [roundSix]
  split
  · rename_i hm
    exact iff_of_true rfl ⟨m, 0, hm, by simp⟩
  · rename_i hm
    obtain ⟨-, hhi, -⟩ := sixDigits_spec (not_lt.mp hm)
    obtain ⟨hlog, -, hquot⟩ := quotient_bounds (not_lt.mp hm)
    refine ⟨fun h => ⟨_, _, hhi, h.symm⟩, ?_⟩
    intro h
    obtain ⟨a, k, ha, hak⟩ := h
    have hk : log 10 m - 5 ≤ k := by
      have hlo : 10 ^ log 10 m ≤ m := pow_log_le_self 10 (by omega)
      have hlt : 10 ^ log 10 m < 10 ^ (6 + k) := by
        rw [pow_add]
        exact lt_of_le_of_lt (hlo.trans hak.le) (mul_lt_mul_of_pos_right ha (by positivity))
      have := (Nat.pow_lt_pow_iff_right (by decide)).mp hlt
      omega
    have hdvd : 10 ^ (log 10 m - 5) ∣ m := by
      exact (pow_dvd_pow 10 hk).trans (hak ▸ dvd_mul_left _ a)
    obtain ⟨-, -, hexact⟩ := nearest_spec m (10 ^ (log 10 m - 5)) (by positivity)
    have hnear := hexact (mod_eq_zero_of_dvd hdvd)
    have hne : m / 10 ^ (log 10 m - 5) ≠ 10 ^ 6 := by omega
    rw [sixDigits, hnear, if_neg hne]
    exact Nat.div_mul_cancel hdvd

theorem sixDigits_iff (n : Int) : SixDigits n ↔ ∃ a k : Nat, a < 10 ^ 6 ∧ n.natAbs = a * 10 ^ k := by
  constructor
  · intro h
    obtain ⟨m, k, hm, rfl⟩ := h
    refine ⟨m.natAbs, k, by omega, ?_⟩
    rw [Int.natAbs_mul, Int.natAbs_pow]
    rfl
  · intro h
    obtain ⟨a, k, ha, hn⟩ := h
    have hcast : (n.natAbs : Int) = a * 10 ^ k := by exact_mod_cast hn
    rcases Int.natAbs_eq n with hpos | hneg
    · exact ⟨a, k, by omega, by rw [hpos, hcast]⟩
    · exact ⟨-a, k, by omega, by rw [hneg, hcast, neg_mul]⟩

/-- **An integer is printed as it is** exactly if it has at most six significant digits. -/
theorem formatInt_eq_iff (n : Int) : (formatInt n).value = n ↔ SixDigits n := by
  rw [formatInt_value, Int.cast_inj, sixDigits_iff, ← roundSix_eq_iff]
  split <;> omega

/-- What is printed is a `double`, as long as the integer is one of at most 2^53. -/
theorem round_formatInt (F : Floats) {n : Int} (hn : n.natAbs ≤ 2 ^ 53) :
    F.round (formatInt n).value = (formatInt n).value := by
  rw [formatInt_value, roundSix]
  by_cases hbig : n.natAbs < 10 ^ 6
  · rw [if_pos hbig]
    have h := F.exact ((if n < 0 then -1 else 1) * (n.natAbs : Int)) 0 (by split <;> omega) (zero_le _)
    rwa [pow_zero, mul_one] at h
  · rw [if_neg hbig]
    obtain ⟨-, hhi, hx, hlog⟩ := sixDigits_spec (not_lt.mp hbig)
    have hlog15 : log 10 n.natAbs < 16 := log_lt_of_lt_pow (by omega) (by omega)
    have hk : (sixDigits n.natAbs).2 - 5 ≤ 11 := by omega
    generalize (sixDigits n.natAbs).2 - 5 = k at hk ⊢
    generalize (sixDigits n.natAbs).1 = q at hhi ⊢
    have hfive : 5 ^ k ≤ 5 ^ 11 := Nat.pow_le_pow_right (by decide) hk
    have hbound : q * 5 ^ k ≤ 2 ^ 53 :=
      (Nat.mul_le_mul hhi.le hfive).trans (by norm_num)
    have h := F.exact ((if n < 0 then -1 else 1) * ((q * 5 ^ k : Nat) : Int)) k (by split <;> omega) (by omega)
    have hten : (((if n < 0 then -1 else 1) * ((q * 10 ^ k : Nat) : Int) : Int) : Rat) =
        ((if n < 0 then -1 else 1) * ((q * 5 ^ k : Nat) : Int) : Int) * 2 ^ k := by
      push_cast
      rw [show (10 : Rat) = 5 * 2 by norm_num, mul_pow]
      ring
    rw [hten]
    exact h

/-! ## 2. The text of a value -/

theorem control_hex : ∀ n < 32, ∀ d ∈ [48, 48, hexDigit (n / 16), hexDigit (n % 16)],
    (hexValue d).isSome = true := by decide +kernel

/-- The digits of `%04x` for a control character. -/
def controlQuad (n : Nat) (h : n < 32) : Quad :=
  ⟨[48, 48, hexDigit (n / 16), hexDigit (n % 16)], rfl, control_hex n h⟩

theorem controlQuad_value : ∀ (n : Nat) (h : n < 32), (controlQuad n h).value = n := by decide

theorem control_char : ∀ n < 32, (Char.ofNat n).toNat = n := by decide

/-- A byte as `jsonEscape` writes it. -/
def writtenByte (c : UInt8) : Piece :=
  if hquote : c = 34 then .short .quote
  else if hslash : c = 92 then .short .backslash
  else if c = 10 then .short .newline
  else if c = 13 then .short .carriageReturn
  else if c = 9 then .short .tab
  else if hcontrol : c.toNat < 32 then
    .unit (controlQuad c.toNat hcontrol) (Char.ofNat c.toNat)
      ((controlQuad_value _ hcontrol).trans (control_char _ hcontrol).symm)
  else .raw c ⟨UInt8.le_iff_toNat_le.mpr (not_lt.mp hcontrol), hquote, hslash⟩

def writtenString (s : Bytes) : List Piece := s.map writtenByte

variable (c : UInt8)

theorem writtenByte_text : (writtenByte c).text = escapeByte c := by
  have hlt : c < 0x20 ↔ c.toNat < 32 := UInt8.lt_iff_toNat_lt
  simp only [writtenByte, escapeByte, hlt]
  split_ifs <;> rfl

theorem writtenByte_bytes : (writtenByte c).bytes = [c] := by
  simp only [writtenByte]
  split_ifs with h1 h2 h3 h4 h5 hcontrol
  · rw [h1]; rfl
  · rw [h2]; rfl
  · rw [h3]; rfl
  · rw [h4]; rfl
  · rw [h5]; rfl
  · rw [Piece.bytes, Utf8.encodeChar_eq, control_char _ hcontrol, if_pos (by omega), UInt8.ofNat_toNat]
  · rfl

/-- A byte that comes back. -/
def CleanByte (c : UInt8) : Prop := 32 ≤ c ∨ c = 10 ∨ c = 13 ∨ c = 9

instance decCleanByte (c : UInt8) : Decidable (CleanByte c) := inferInstanceAs (Decidable (_ ∨ _))

theorem seenPiece_writtenByte : seenPiece (writtenByte c) = [c] ↔ CleanByte c := by
  simp only [writtenByte]
  split_ifs with h1 h2 h3 h4 h5 hcontrol
  · rw [h1]; decide
  · rw [h2]; decide
  · rw [h3]; decide
  · rw [h4]; decide
  · rw [h5]; decide
  · have hle : ¬ 32 ≤ c := fun hle => absurd (UInt8.le_iff_toNat_le.mp hle) (not_le.mpr hcontrol)
    have hne : (63 : UInt8) ≠ c := by
      intro heq
      rw [← heq] at hcontrol
      exact absurd hcontrol (by decide)
    simp [seenPiece, CleanByte, h3, h4, h5, hle, hne]
  · have hle : 32 ≤ c := UInt8.le_iff_toNat_le.mpr (not_lt.mp hcontrol)
    simp [seenPiece, CleanByte, hle]

variable (s : Bytes)

theorem writtenString_text : stringText (writtenString s) = jsonEscape s := by
  rw [stringText, jsonEscape, writtenString, flatMap_map]
  simp only [writtenByte_text]

theorem writtenString_bytes : stringBytes (writtenString s) = s := by
  rw [stringBytes, writtenString, flatMap_map]
  simp only [writtenByte_bytes]
  exact flatMap_singleton' s

theorem seenString_writtenString : seenString (writtenString s) = s ↔ ∀ c ∈ s, CleanByte c := by
  have hlen : ∀ c : UInt8, (seenPiece (writtenByte c)).length ≤ [c].length := fun c =>
    writtenByte_bytes c ▸ length_seenPiece (writtenByte c)
  have hiff := flatMap_eq_iff_of_length hlen (l := s)
  rw [flatMap_singleton'] at hiff
  rw [seenString, writtenString, flatMap_map, hiff]
  exact forall_congr' fun c => imp_congr_right fun _ => seenPiece_writtenByte c

section

variable (F : Floats)

mutual

/-- **What `writeJson` prints**, as a standard text. -/
def written : Json → Source
  | .null => .null
  | .bool b => .bool b
  | .num q => .num (formatG F q)
  | .str s => .str (writtenString s)
  | .arr vs => .arr Gap.empty (writtenItems vs)
  | .obj ms => .obj Gap.empty (writtenMembers ms)

def writtenItems : List Json → Items
  | [] => .nil
  | v :: vs => .cons Gap.empty (written v) Gap.empty (writtenItems vs)

def writtenMembers : List (Bytes × Json) → Members
  | [] => .nil
  | (k, v) :: ms => .cons Gap.empty (writtenString k) Gap.empty Gap.empty (written v) Gap.empty (writtenMembers ms)

end

mutual

theorem written_text : ∀ v : Json, (written F v).text = writeJson F v
  | .null | .bool true | .bool false | .num q => rfl
  | .str s => writtenString_text s
  | .arr vs => by
    have h := (writtenItems_text vs).1
    rw [written, Source.text, writeJson, ← h]
    rfl
  | .obj ms => by
    have h := (writtenMembers_text ms).1
    rw [written, Source.text, writeJson, ← h]
    rfl

/-- Elements are written with or without a comma in front. -/
theorem writtenItems_text : ∀ vs : List Json,
    (if (writtenItems F vs).isNil then [] else (writtenItems F vs).text) = writeItems F true vs ∧
      (if (writtenItems F vs).isNil then [] else 44 :: (writtenItems F vs).text) = writeItems F false vs
  | [] => ⟨rfl, rfl⟩
  | v :: vs => by
    have hv := written_text v
    have hvs := (writtenItems_text vs).2
    have htext : (writtenItems F (v :: vs)).text = writeJson F v ++ writeItems F false vs := by
      rw [writtenItems, Items.text, hv, hvs]
      rfl
    have hnil : (writtenItems F (v :: vs)).isNil = false := rfl
    rw [hnil, htext, writeItems, writeItems]
    exact ⟨rfl, rfl⟩

theorem writtenMembers_text : ∀ ms : List (Bytes × Json),
    (if (writtenMembers F ms).isNil then [] else (writtenMembers F ms).text) = writeMembers F true ms ∧
      (if (writtenMembers F ms).isNil then [] else 44 :: (writtenMembers F ms).text) = writeMembers F false ms
  | [] => ⟨rfl, rfl⟩
  | (k, v) :: ms => by
    have hv := written_text v
    have hms := (writtenMembers_text ms).2
    have htext : (writtenMembers F ((k, v) :: ms)).text =
        jsonEscape k ++ 58 :: (writeJson F v ++ writeMembers F false ms) := by
      rw [writtenMembers, Members.text, hv, hms, writtenString_text]
      rfl
    have hnil : (writtenMembers F ((k, v) :: ms)).isNil = false := rfl
    rw [hnil, htext, writeMembers, writeMembers]
    exact ⟨rfl, rfl⟩

end

/-- The text of a value, as a document. -/
def writtenDocument (v : Json) : Document := ⟨Gap.empty, written F v, Gap.empty⟩

theorem writtenDocument_text (v : Json) : (writtenDocument F v).text = writeJson F v := by
  rw [← written_text F v]
  exact append_nil _

/-! ## 3. Printed and read, read and printed -/

mutual

/-- The numbers have at most six significant digits. -/
def Six : Json → Prop
  | .num q => SixDigits q.num
  | .arr vs => SixAll vs
  | .obj ms => SixMembers ms
  | _ => True

def SixAll : List Json → Prop
  | [] => True
  | v :: vs => Six v ∧ SixAll vs

def SixMembers : List (Bytes × Json) → Prop
  | [] => True
  | (_, v) :: ms => Six v ∧ SixMembers ms

end

mutual

/-- The strings have no control characters but line feeds, carriage returns and tabs. -/
def Clean : Json → Prop
  | .str s => ∀ c ∈ s, CleanByte c
  | .arr vs => CleanAll vs
  | .obj ms => CleanMembers ms
  | _ => True

def CleanAll : List Json → Prop
  | [] => True
  | v :: vs => Clean v ∧ CleanAll vs

def CleanMembers : List (Bytes × Json) → Prop
  | [] => True
  | (k, v) :: ms => ((∀ c ∈ k, CleanByte c) ∧ Clean v) ∧ CleanMembers ms

end

theorem formatG_int (n : Int) : formatG F n = formatInt n := if_pos rfl

theorem length_seenMembers_written : ∀ ms : List (Bytes × Json),
    (seenMembers F (writtenMembers F ms)).length = ms.length
  | [] => rfl
  | (_, _) :: ms => congrArg (· + 1) (length_seenMembers_written ms)

mutual

/-- **A value is printed and read back.** -/
theorem seen_written_iff : ∀ v : Json, Ordinary v → (seen F (written F v) = v ↔ Six v ∧ Clean v)
  | .null, _ | .bool b, _ => iff_of_true rfl ⟨trivial, trivial⟩
  | .num q, h => by
    obtain ⟨n, hn, rfl⟩ := h
    rw [written, seen, formatG_int, round_formatInt F hn, num.injEq, formatInt_eq_iff, Six, Rat.num_intCast]
    exact ⟨fun h => ⟨h, trivial⟩, fun h => h.1⟩
  | .str s, _ => by
    rw [written, seen, str.injEq, seenString_writtenString]
    exact ⟨fun h => ⟨trivial, h⟩, fun h => h.2⟩
  | .arr vs, h => by
    rw [written, seen, arr.injEq]
    exact seenItems_written_iff vs h
  | .obj ms, h => by
    rw [written, seen, obj.injEq, foldl_setMember_eq_iff (length_seenMembers_written F ms) h.1]
    exact seenMembers_written_iff ms h.2

theorem seenItems_written_iff : ∀ vs : List Json, OrdinaryAll vs →
    (seenItems F (writtenItems F vs) = vs ↔ SixAll vs ∧ CleanAll vs)
  | [], _ => iff_of_true rfl ⟨trivial, trivial⟩
  | v :: vs, h => by
    rw [writtenItems, seenItems, cons.injEq, seen_written_iff v h.1, seenItems_written_iff vs h.2, SixAll,
      CleanAll]
    tauto

theorem seenMembers_written_iff : ∀ ms : List (Bytes × Json), OrdinaryMembers ms →
    (seenMembers F (writtenMembers F ms) = ms ↔ SixMembers ms ∧ CleanMembers ms)
  | [], _ => iff_of_true rfl ⟨trivial, trivial⟩
  | (k, v) :: ms, h => by
    rw [writtenMembers, seenMembers, cons.injEq, Prod.mk.injEq, seenString_writtenString, seen_written_iff v h.1,
      seenMembers_written_iff ms h.2, SixMembers, CleanMembers]
    tauto

end

/-- What the members that are written stand for. -/
theorem writtenMembers_values : ∀ ms : List (Bytes × Json),
    (writtenMembers F ms).values = ms.map fun m => (m.1, (written F m.2).value)
  | [] => rfl
  | (k, v) :: ms => by
    rw [writtenMembers, Members.values, writtenString_bytes, writtenMembers_values ms]
    rfl

theorem map_setMember (f : Json → Json) (k : Bytes) (v : Json) : ∀ o : List (Bytes × Json),
    (setMember o k v).map (fun m => (m.1, f m.2)) = setMember (o.map fun m => (m.1, f m.2)) k (f v)
  | [] => rfl
  | (k', v') :: o => by
    rw [setMember, map_cons, setMember]
    split
    · rfl
    · rw [map_cons, map_setMember f k v o]

theorem map_foldl_setMember (f : Json → Json) : ∀ ms o : List (Bytes × Json),
    (ms.foldl (fun o m => setMember o m.1 m.2) o).map (fun m => (m.1, f m.2)) =
      (ms.map fun m => (m.1, f m.2)).foldl (fun o m => setMember o m.1 m.2) (o.map fun m => (m.1, f m.2))
  | [], o => rfl
  | m :: ms, o => by
    rw [foldl_cons, map_foldl_setMember f ms, map_setMember]
    rfl

mutual

/-- **A text is read and printed again**: when it stands for the same value. -/
theorem written_seen_iff : ∀ s : Source, Ordinary s.value →
    ((written F (seen F s)).value = s.value ↔ Plain s ∧ Six s.value)
  | .null, _ | .bool b, _ => iff_of_true rfl ⟨trivial, trivial⟩
  | .num l, h => by
    obtain ⟨n, hn, hl⟩ := h
    have hround := F.exact n 0 hn (zero_le _)
    rw [pow_zero, mul_one] at hround
    rw [seen, written, Source.value, Source.value, hl, hround, formatG_int, num.injEq, formatInt_eq_iff, Six,
      Rat.num_intCast]
    exact ⟨fun h => ⟨trivial, h⟩, fun h => h.2⟩
  | .str ps, _ => by
    rw [seen, written, Source.value, Source.value, writtenString_bytes, str.injEq, seenString_eq_iff]
    exact ⟨fun h => ⟨h, trivial⟩, fun h => h.1⟩
  | .arr gap items, h => by
    rw [seen, written, Source.value, Source.value, arr.injEq]
    exact writtenItems_seen_iff items h
  | .obj gap members, h => by
    have hlen : ((seenMembers F members).map fun m => (m.1, (written F m.2).value)).length =
        members.values.length := by
      rw [length_map, length_seenMembers]
    rw [seen, written, Source.value, Source.value, obj.injEq, writtenMembers_values,
      map_foldl_setMember fun v => (written F v).value]
    exact (foldl_setMember_eq_iff hlen h.1).trans (writtenMembers_seen_iff members h.2)

theorem writtenItems_seen_iff : ∀ items : Items, OrdinaryAll items.values →
    ((writtenItems F (seenItems F items)).values = items.values ↔ PlainItems items ∧ SixAll items.values)
  | .nil, _ => iff_of_true rfl ⟨trivial, trivial⟩
  | .cons _ v _ rest, h => by
    rw [seenItems, writtenItems, Items.values, Items.values, cons.injEq, written_seen_iff v h.1,
      writtenItems_seen_iff rest h.2, PlainItems, SixAll]
    tauto

theorem writtenMembers_seen_iff : ∀ members : Members, OrdinaryMembers members.values →
    ((seenMembers F members).map (fun m => (m.1, (written F m.2).value)) = members.values ↔
      PlainMembers members ∧ SixMembers members.values)
  | .nil, _ => iff_of_true rfl ⟨trivial, trivial⟩
  | .cons _ key _ _ v _ rest, h => by
    rw [seenMembers, map_cons, Members.values, cons.injEq, Prod.mk.injEq, seenString_eq_iff,
      written_seen_iff v h.1, writtenMembers_seen_iff rest h.2, PlainMembers, SixMembers]
    tauto

end

/-! ## 4. The id of a response -/

theorem find_setMember (k k' : Bytes) (v : Json) : ∀ o : List (Bytes × Json),
    ((setMember o k v).find? fun m => m.1 == k').map Prod.snd =
      if k = k' then some v else (o.find? fun m => m.1 == k').map Prod.snd
  | [] => by
    by_cases h : k = k'
    · simp [setMember, h]
    · simp [setMember, h]
  | (l, w) :: o => by
    have ih := find_setMember k k' v o
    by_cases hl : l = k
    · by_cases h : k = k'
      · simp [setMember, hl, h]
      · simp [setMember, hl, h]
    · by_cases h : l = k'
      · have hk : k ≠ k' := fun hk => hl (h.trans hk.symm)
        rw [setMember, if_neg hl]
        simp [h, hk]
      · rw [setMember, if_neg hl, find?_cons_of_neg (by simpa using h), ih,
          find?_cons_of_neg (by simpa using h)]

theorem find_foldl_notMem {k : Bytes} : ∀ (ms o : List (Bytes × Json)), k ∉ ms.map Prod.fst →
    ((ms.foldl (fun o m => setMember o m.1 m.2) o).find? fun m => m.1 == k).map Prod.snd =
      (o.find? fun m => m.1 == k).map Prod.snd
  | [], o, _ => rfl
  | m :: ms, o, h => by
    rw [map_cons, mem_cons, not_or] at h
    rw [foldl_cons, find_foldl_notMem ms _ h.2, find_setMember, if_neg fun hk => h.1 hk.symm]

/-- A member that no other one has the key of. -/
theorem find_foldl_mem {k : Bytes} {v : Json} {A B : List (Bytes × Json)} (hB : k ∉ B.map Prod.fst) :
    (((A ++ (k, v) :: B).foldl (fun o m => setMember o m.1 m.2) []).find? fun m => m.1 == k).map Prod.snd =
      some v := by
  rw [foldl_append, foldl_cons, find_foldl_notMem B _ hB, find_setMember, if_pos rfl]

variable {ps : List Piece}

/-- What the parser makes of an escape that it does not know is none of the bytes of `id`. -/
theorem plain_of_seen_idKey (h : seenString ps = idKey) : PlainString ps := by
  intro p hp
  have hmem : ∀ b ∈ seenPiece p, b = 105 ∨ b = 100 := by
    intro b hb
    have hin : b ∈ idKey := h ▸ mem_flatMap.mpr ⟨p, hp, hb⟩
    have hkey : idKey = [105, 100] := by decide
    rw [hkey] at hin
    simpa using hin
  cases p with
  | raw b hb => trivial
  | short e =>
    refine ⟨fun he => ?_, fun he => ?_⟩
    · subst he
      exact absurd (hmem 98 (by decide)) (by decide)
    · subst he
      exact absurd (hmem 102 (by decide)) (by decide)
  | unit q c hc | pair high low c hc => exact absurd (hmem 63 mem_cons_self) (by decide)

theorem seenMembers_eq :
    ∀ ms : Members, seenMembers F ms = ms.entries.map fun e => (seenString e.1, seen F e.2)
  | .nil => rfl
  | .cons _ key _ _ v _ rest => by rw [seenMembers, Members.entries, map_cons, seenMembers_eq rest]

variable {v : Source}

/-- **The id that the server sees**: none, if the key is not plain. -/
theorem get_idKey (gap : Gap) {members : Members} (hkeys : (members.values.map Prod.fst).Nodup)
    (hmem : (ps, v) ∈ members.entries) (hid : stringBytes ps = idKey) :
    (PlainString ps → Json.get (seen F (.obj gap members)) idKey = some (seen F v)) ∧
      (¬ PlainString ps → Json.get (seen F (.obj gap members)) idKey = none) := by
  obtain ⟨A, B, hAB⟩ := append_of_mem hmem
  have hother : ∀ e ∈ A ++ B, seenString e.1 ≠ idKey := by
    intro e he hseen
    have hbytes : stringBytes e.1 = idKey := by
      rw [← (seenString_eq_iff e.1).mpr (plain_of_seen_idKey hseen), hseen]
    rw [Members.values_eq, hAB, map_map, map_append, map_cons, nodup_middle,
      ← map_append] at hkeys
    refine (nodup_cons.mp hkeys).1 (mem_map.mpr ⟨e, he, ?_⟩)
    exact hbytes.trans hid.symm
  have hB : idKey ∉ (B.map fun e => (seenString e.1, seen F e.2)).map Prod.fst := by
    rw [map_map]
    intro h
    obtain ⟨e, he, heq⟩ := mem_map.mp h
    exact hother e (mem_append_right A he) heq
  rw [seen, Json.get, seenMembers_eq, hAB, map_append, map_cons]
  refine ⟨fun hplain => ?_, fun hplain => ?_⟩
  · rw [(seenString_eq_iff ps).mpr hplain, hid]
    exact find_foldl_mem hB
  · refine (find_foldl_notMem _ [] ?_).trans rfl
    intro h
    rw [map_append, map_cons, mem_append, mem_cons] at h
    rcases h with h | h | h
    · rw [map_map] at h
      obtain ⟨e, he, heq⟩ := mem_map.mp h
      exact hother e (mem_append_left B he) heq
    · exact hplain (plain_of_seen_idKey h.symm)
    · exact hB h

theorem value_eq_null (h : v.value = .null) : v = .null := by
  cases v with
  | null => rfl
  | bool b | num l | str ps | arr gap items | obj gap members => cases h

theorem get_response (id : Option Json) (result : Json) :
    Json.get (written F (response id result)).value idKey = some (written F (id.getD .null)).value := by
  have hresponse : response id result = .obj [(Str.ascii "jsonrpc", .str (Str.ascii "2.0")),
      (idKey, id.getD .null), (Str.ascii "result", result)] := rfl
  rw [hresponse, written, Source.value, writtenMembers_values]
  rfl

theorem ordinary_of_mem : ∀ {members : Members} {e : List Piece × Source}, OrdinaryMembers members.values →
    e ∈ members.entries → Ordinary e.2.value
  | .nil, _, _, he => by cases he
  | .cons _ key _ _ v _ rest, e, h, he => by
    rcases mem_cons.mp he with rfl | he
    · exact h.1
    · exact ordinary_of_mem h.2 he

theorem response_id_iff {members : Members} (gap : Gap) (hordinary : Ordinary (Source.obj gap members).value)
    (hmem : (ps, v) ∈ members.entries) (hid : stringBytes ps = idKey) (result : Json) :
    Json.get (written F (response (Json.get (seen F (.obj gap members)) idKey) result)).value idKey =
        some v.value ↔ (PlainString ps ∨ v.value = .null) ∧ Plain v ∧ Six v.value := by
  have hv : Ordinary v.value := ordinary_of_mem hordinary.2 hmem
  obtain ⟨hplain, hnot⟩ := get_idKey F gap hordinary.1 hmem hid
  rw [get_response, Option.some.injEq]
  by_cases hps : PlainString ps
  · rw [hplain hps, Option.getD_some, written_seen_iff F v hv]
    exact ⟨fun h => ⟨.inl hps, h⟩, fun h => h.2⟩
  · rw [hnot hps]
    constructor
    · intro h
      obtain rfl := value_eq_null h.symm
      exact ⟨.inr rfl, trivial, trivial⟩
    · intro h
      rw [h.1.resolve_left hps]
      rfl

end

/-- **The JSON layer.** A value comes back from its text exactly if its numbers have at most six significant digits
    and its strings no control characters but line feeds, carriage returns and tabs. A standard text is read
    exactly if its strings are plain. The response to a request, whose text stands for an object, has the id of
    the request exactly if the id is plain and its numbers have at most six significant digits, and its key is
    plain unless it is `null`. -/
theorem json_layer_iff (F : Floats) :
    (∀ v : Json, Ordinary v → (parseJson F (writeJson F v) = v ↔ Six v ∧ Clean v)) ∧
    (∀ d : Document, Ordinary d.value → (parseJson F d.text = d.value ↔ Plain d.source)) ∧
    ∀ (before after gap : Gap) (members : Members) (ps : List Piece) (v : Source) (result : Json),
      Ordinary (Source.obj gap members).value → (ps, v) ∈ members.entries → stringBytes ps = idKey →
      (writtenDocument F (response (Json.get (parseJson F (Document.text ⟨before, .obj gap members, after⟩)) idKey)
        result)).text =
          writeResponse F (Json.get (parseJson F (Document.text ⟨before, .obj gap members, after⟩)) idKey) result ∧
      (Json.get (writtenDocument F (response
          (Json.get (parseJson F (Document.text ⟨before, .obj gap members, after⟩)) idKey) result)).value idKey =
        some v.value ↔ (PlainString ps ∨ v.value = .null) ∧ Plain v ∧ Six v.value) := by
  refine ⟨fun v hv => ?_, fun d hd => ?_, fun before after gap members ps v result hordinary hmem hid => ?_⟩
  · rw [← writtenDocument_text, parseJson_text]
    exact seen_written_iff F v hv
  · rw [parseJson_text]
    exact seen_eq_value_iff F d.source hd
  · refine ⟨writtenDocument_text F _, ?_⟩
    rw [parseJson_text]
    exact response_id_iff F gap hordinary hmem hid result

/-- Numbers as they are. -/
def exactFloats : Floats := ⟨id, fun _ _ _ _ => rfl, fun _ => formatInt 0⟩

theorem json_layer_iff_short :
    parseJson exactFloats (writeJson exactFloats (.arr [.num 25, .str [104, 105], .null])) =
      .arr [.num 25, .str [104, 105], .null] := by
  refine ((json_layer_iff exactFloats).1 _ ?_).mpr ⟨?_, ?_⟩
  · exact ⟨⟨25, by decide, rfl⟩, trivial, trivial, trivial⟩
  · exact ⟨⟨25, 0, by decide, rfl⟩, trivial, trivial, trivial⟩
  · exact ⟨trivial, (by decide +kernel : ∀ c ∈ [104, 105], CleanByte c), trivial, trivial⟩

/-- **Numbers of seven digits and escaped characters**: 1234567 is written as `1.23457e+06`, and the text
    `"\u0041"` is read as a question mark. -/
theorem digits_and_escapes_lost :
    writeJson exactFloats (.num 1234567) = [49, 46, 50, 51, 52, 53, 55, 101, 43, 48, 54] ∧
    parseJson exactFloats (writeJson exactFloats (.num 1234567)) ≠ .num 1234567 ∧
    parseJson exactFloats [34, 92, 117, 48, 48, 52, 49, 34] = .str [63] := by
  refine ⟨by decide +kernel, ?_, rfl⟩
  rw [← writtenDocument_text, parseJson_text]
  intro h
  have hsix := ((seen_written_iff exactFloats (.num 1234567) ⟨1234567, by decide, rfl⟩).mp h).1
  have hround := (roundSix_eq_iff 1234567).mpr ((sixDigits_iff 1234567).mp hsix)
  exact absurd hround (by decide +kernel)

end Vyb.Lsp
