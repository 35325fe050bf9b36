/-
  Subject:   The DEFLATE format (RFC 1951), and that `inflate_def` decodes it.

  The format is stated on lists of bits, without a decoder: which bits a stream may consist of, and which
  bytes they stand for. A Huffman code is the canonical code of its lengths (`Lib.CodeOf`).

  * `Text ll dl` -- the text of a compressed block, with the codes of the lengths `ll` and `dl`;
  * `Lengths cl` -- code lengths, themselves coded by the code of the lengths `cl`;
  * `Block`, `Stream` -- one block, and blocks up to a final one. What has been put out before a block stays
    in reach of its copies.
  * **`decodeSymbol_code`**, **`decodeRun_text`**, **`readLengths_lengths`** -- each part of the decoder
    against its part of the format;
  * **`inflate_stream`** -- all of it.

  Streams are taken as wide as the decoder allows: the code lengths need not use up all words, and what
  follows the final block does not matter.
-/
import Mathlib.Data.Nat.Bitwise
import Vyb.Stdlib.Inflate

namespace Vyb.Stdlib

open Lib Collections Vyb.Runtime Str List Fueled Vec Nat

/-! ## 1. The format -/

namespace Deflate

/-- The bits of a byte, the lowest first. -/
def byteBits (b : UInt8) : List Bool := (List.range 8).map fun i => b.toNat.testBit i

def bitsOf (src : Str) : List Bool := src.flatMap byteBits

/-- The length symbols from 257 on: number of extra bits, and the first length. -/
def lengthTable : List (Nat × Nat) :=
  [(0, 3), (0, 4), (0, 5), (0, 6), (0, 7), (0, 8), (0, 9), (0, 10), (1, 11), (1, 13), (1, 15), (1, 17),
    (2, 19), (2, 23), (2, 27), (2, 31), (3, 35), (3, 43), (3, 51), (3, 59), (4, 67), (4, 83), (4, 99),
    (4, 115), (5, 131), (5, 163), (5, 195), (5, 227), (0, 258)]

/-- The distance symbols: number of extra bits, and the first distance. -/
def distanceTable : List (Nat × Nat) :=
  [(0, 1), (0, 2), (0, 3), (0, 4), (1, 5), (1, 7), (2, 9), (2, 13), (3, 17), (3, 25), (4, 33), (4, 49),
    (5, 65), (5, 97), (6, 129), (6, 193), (7, 257), (7, 385), (8, 513), (8, 769), (9, 1025), (9, 1537),
    (10, 2049), (10, 3073), (11, 4097), (11, 6145), (12, 8193), (12, 12289), (13, 16385), (13, 24577)]

/-- The order in which the lengths for the code of the code lengths are sent. -/
def lengthOrder : List Nat := [16, 17, 18, 0, 8, 7, 9, 6, 10, 5, 11, 4, 12, 3, 13, 2, 14, 1, 15]

/-- The lengths of the fixed code for literals and lengths. -/
def fixedLit : List Nat :=
  List.replicate 144 8 ++ List.replicate 112 9 ++ List.replicate 24 7 ++ List.replicate 8 8

def fixedDist : List Nat := List.replicate 32 5

/-- `n` bytes, each from `dist` bytes back; the copy may run into what it has itself put out. -/
def copy (out : List UInt8) (dist : Nat) : Nat → List UInt8
  | 0 => out
  | n + 1 => copy out dist n ++ [(copy out dist n).getD ((copy out dist n).length - dist) 0]

/-- The text of a block: the bits, what has been put out before it, and the same after it. -/
inductive Text (ll dl : List Nat) : List Bool → List UInt8 → List Bool → List UInt8 → Prop
  | stop {w bits : List Bool} {out : List UInt8} : CodeOf ll 256 w → Text ll dl (w ++ bits) out bits out
  | literal {w bits bits' : List Bool} {out out' : List UInt8} {b : UInt8} : CodeOf ll b.toNat w →
      Text ll dl bits (out ++ [b]) bits' out' → Text ll dl (w ++ bits) out bits' out'
  | copy {w x v y bits bits' : List Bool} {out out' : List UInt8} {i j len dist : Nat} :
      CodeOf ll (257 + i) w → lengthTable[i]? = some (x.length, len) →
      CodeOf dl j v → distanceTable[j]? = some (y.length, dist) → dist + lsb y ≤ out.length →
      Text ll dl bits (copy out (dist + lsb y) (len + lsb x)) bits' out' →
      Text ll dl (w ++ (x ++ (v ++ (y ++ bits)))) out bits' out'

/-- Code lengths: the bits and the lengths so far, and the same at the end. -/
inductive Lengths (cl : List Nat) : List Bool → List Nat → List Bool → List Nat → Prop
  | done {bits : List Bool} {lens : List Nat} : Lengths cl bits lens bits lens
  | one {w bits bits' : List Bool} {lens lens' : List Nat} {c : Nat} : c < 16 → CodeOf cl c w →
      Lengths cl bits (lens ++ [c]) bits' lens' → Lengths cl (w ++ bits) lens bits' lens'
  /-- the length before, again -/
  | again {w x bits bits' : List Bool} {lens lens' : List Nat} {prev : Nat} : CodeOf cl 16 w →
      x.length = 2 →
      Lengths cl bits (lens ++ [prev] ++ List.replicate (3 + lsb x) prev) bits' lens' →
      Lengths cl (w ++ (x ++ bits)) (lens ++ [prev]) bits' lens'
  | zeros {w x bits bits' : List Bool} {lens lens' : List Nat} : CodeOf cl 17 w → x.length = 3 →
      Lengths cl bits (lens ++ List.replicate (3 + lsb x) 0) bits' lens' →
      Lengths cl (w ++ (x ++ bits)) lens bits' lens'
  | manyZeros {w x bits bits' : List Bool} {lens lens' : List Nat} : CodeOf cl 18 w → x.length = 7 →
      Lengths cl bits (lens ++ List.replicate (11 + lsb x) 0) bits' lens' →
      Lengths cl (w ++ (x ++ bits)) lens bits' lens'

/-- The lengths for the code of the code lengths; those that are not sent are 0. -/
def codeLengths (sent : List Nat) : List Nat :=
  (List.range 19).map fun s => sent.getD (lengthOrder.idxOf s) 0

/-- A block without its first bit. -/
inductive Block : List Bool → List UInt8 → List Bool → List UInt8 → Prop
  /-- bytes as they are, from the next byte boundary on, behind their number and its complement -/
  | stored {pad x bits : List Bool} {out : List UInt8} {data : Str} : pad.length < 8 →
      bits.length % 8 = 0 → x.length = 16 → lsb x = data.length →
      Block (false :: false :: (pad ++ (x ++ (x.map (! ·) ++ (bitsOf data ++ bits))))) out bits
        (out ++ data)
  | fixed {bits bits' : List Bool} {out out' : List UInt8} : Text fixedLit fixedDist bits out bits' out' →
      Block (true :: false :: bits) out bits' out'
  | dynamic {hlit hdist hclen bits bits₁ bits' : List Bool} {sent : List (List Bool)} {ll dl : List Nat}
      {out out' : List UInt8} : hlit.length = 5 → hdist.length = 5 → hclen.length = 4 →
      sent.length = lsb hclen + 4 → (∀ c ∈ sent, c.length = 3) →
      ll.length = lsb hlit + 257 → dl.length = lsb hdist + 1 →
      Lengths (codeLengths (sent.map lsb)) bits [] bits₁ (ll ++ dl) → Text ll dl bits₁ out bits' out' →
      Block (false :: true :: (hlit ++ (hdist ++ (hclen ++ (sent.flatten ++ bits))))) out bits' out'

/-- Blocks up to the final one, whose first bit is set. -/
inductive Stream : List Bool → List UInt8 → List UInt8 → Prop
  | final {bits bits' : List Bool} {out out' : List UInt8} : Block bits out bits' out' →
      Stream (true :: bits) out out'
  | more {bits bits' : List Bool} {out out' result : List UInt8} : Block bits out bits' out' →
      Stream bits' out' result → Stream (false :: bits) out result

end Deflate

open Deflate

/-! ## 2. Reading bits -/

theorem length_byteBits (b : UInt8) : (byteBits b).length = 8 := by simp [byteBits]

theorem length_bitsOf (src : Str) : (bitsOf src).length = 8 * src.length := by
  induction src with
  | nil => rfl
  | cons b src ih =>
    rw [bitsOf, flatMap_cons, length_append, length_byteBits, length_cons]
    rw [bitsOf] at ih
    omega

theorem getElem?_bitsOf : ∀ (src : Str) (p : Nat),
    (bitsOf src)[p]? = src[p / 8]?.map fun b => b.toNat.testBit (p % 8)
  | [], p => by simp [bitsOf]
  | b :: src, p => by
    rw [bitsOf, flatMap_cons]
    by_cases hp : p < 8
    · have h0 : p / 8 = 0 := div_eq_of_lt hp
      rw [getElem?_append_left (by rwa [length_byteBits]), h0, mod_eq_of_lt hp]
      simp [byteBits, hp]
    · have hdiv : p / 8 = (p - 8) / 8 + 1 := by omega
      have hmod : p % 8 = (p - 8) % 8 := by omega
      rw [getElem?_append_right (by rw [length_byteBits]; omega), length_byteBits, hdiv, hmod,
        getElem?_cons_succ]
      exact getElem?_bitsOf src (p - 8)

/-- A bit past the end is 0. -/
theorem bitAt_eq (src : Str) (p : Nat) : bitAt src p = ((bitsOf src)[p]?.getD false).toNat := by
  have hshift : p >>> 3 = p / 8 := shiftRight_eq_div_pow p 3
  have hand : p &&& 7 = p % 8 := and_two_pow_sub_one_eq_mod p 3
  rw [getElem?_bitsOf, bitAt, charAt, hshift, hand, getD_eq_getElem?_getD, shiftRight_eq_div_pow, and_one_is_mod]
  cases src[p / 8]? with
  | none => simp
  | some b => simp [toNat_testBit]

theorem bitAt_le (src : Str) (p : Nat) : bitAt src p ≤ 1 := by
  rw [bitAt_eq]
  exact Bool.toNat_le _

theorem valAt_lt (src : Str) (p : Nat) : ∀ n, valAt src p n < 2 ^ n
  | 0 => one_pos
  | n + 1 => by
    have ih := valAt_lt src p n
    rw [valAt, range_succ, foldl_append]
    refine Nat.or_lt_two_pow (ih.trans_le (Nat.pow_le_pow_right (by omega) (by omega))) ?_
    have hbit := bitAt_le src (p + n)
    rw [Nat.shiftLeft_eq, pow_succ]
    calc bitAt src (p + n) * 2 ^ n ≤ 1 * 2 ^ n := mul_le_mul_right _ hbit
      _ < 2 ^ n * 2 := by have := Nat.two_pow_pos n; omega

/-- The next bit goes on top. -/
theorem valAt_succ (src : Str) (p n : Nat) :
    valAt src p (n + 1) = valAt src p n + 2 ^ n * bitAt src (p + n) := by
  have hlt := valAt_lt src p n
  rw [valAt, range_succ, foldl_append]
  show valAt src p n ||| (bitAt src (p + n) <<< n) = _
  rw [Nat.shiftLeft_eq, Nat.mul_comm, Nat.or_comm, ← Nat.two_pow_add_eq_or_of_lt hlt, Nat.add_comm]

theorem valAt_one (src : Str) (p : Nat) : valAt src p 1 = bitAt src p := by
  simp [valAt]

/-- `bits` are what is left of the input at position `p`. -/
structure Ahead (src : Str) (p : Nat) (bits : List Bool) : Prop where
  drop : (bitsOf src).drop p = bits
  le : p ≤ 8 * src.length

namespace Ahead

variable {src : Str} {p : Nat} {bits w : List Bool}

theorem start (src : Str) : Ahead src 0 (bitsOf src) := ⟨rfl, zero_le _⟩

theorem length (h : Ahead src p bits) : p + bits.length = 8 * src.length := by
  have hlen := congrArg List.length h.drop
  rw [length_drop, length_bitsOf] at hlen
  have := h.le
  omega

theorem skip (h : Ahead src p (w ++ bits)) : Ahead src (p + w.length) bits := by
  constructor
  · rw [← drop_drop, h.drop, drop_left]
  · have hlen := h.length
    rw [length_append] at hlen
    omega

theorem bitAt (h : Ahead src p (w ++ bits)) {k : Nat} (hk : k < w.length) :
    bitAt src (p + k) = w[k].toNat := by
  have hget : (bitsOf src)[p + k]? = some w[k] := by
    rw [← getElem?_drop, h.drop, getElem?_append_left hk, getElem?_eq_getElem hk]
  rw [bitAt_eq, hget]
  rfl

theorem head {b : Bool} (h : Ahead src p (b :: bits)) : valAt src p 1 = b.toNat := by
  rw [valAt_one]
  exact @Ahead.bitAt src p bits [b] h 0 one_pos

theorem tail {b : Bool} (h : Ahead src p (b :: bits)) : Ahead src (p + 1) bits := @skip src p bits [b] h

end Ahead

theorem lsb_concat (w : List Bool) (b : Bool) : lsb (w ++ [b]) = lsb w + 2 ^ w.length * b.toNat := by
  induction w with
  | nil => simp [lsb]
  | cons c w ih =>
    rw [cons_append, lsb, ih, lsb, length_cons, pow_succ]
    ring

/-- **`val_at` reads a number, lowest bit first.** -/
theorem Ahead.valAt {src : Str} {p : Nat} {bits w : List Bool} (h : Ahead src p (w ++ bits)) :
    valAt src p w.length = lsb w := by
  induction w using reverseRecOn generalizing bits with
  | nil => rfl
  | append_singleton w b ih =>
    have hbit : Stdlib.bitAt src (p + w.length) = b.toNat := by
      rw [Ahead.bitAt h (by simp)]
      simp
    rw [append_assoc] at h
    rw [length_append, length_singleton, valAt_succ, ih h, hbit, lsb_concat]

variable {bits : List Bool} {src : Str} {p : Nat}

theorem Ahead.valAt_of_length {n : Nat} {w : List Bool} (h : Ahead src p (w ++ bits)) (hn : w.length = n) :
    Stdlib.valAt src p n = lsb w := hn ▸ h.valAt

/-! ## 3. Codes -/

theorem length_countLengths (lens : Vec Int) : (countLengths lens).length = 16 := by
  induction lens using reverseRecOn with
  | nil => rfl
  | append_singleton lens ln ih =>
    rw [countLengths] at ih ⊢
    rw [foldl_append]
    show (if 0 < ln then _ else _ : Vec Nat).length = 16
    split
    · rw [Vec.length_set, ih]
    · exact ih

/-- The table counts; a length past its end is not counted and does no harm. -/
theorem get_countLengths (lens : Vec Int) {ℓ : Nat} (hpos : 0 < ℓ) (hle : ℓ ≤ 15) :
    Vec.get (countLengths lens) ℓ = lens.count (ℓ : Int) := by
  induction lens using reverseRecOn with
  | nil => interval_cases ℓ <;> rfl
  | append_singleton lens ln ih =>
    have hlen := length_countLengths lens
    have hstep : countLengths (lens ++ [ln]) =
        if 0 < ln then set (countLengths lens) ln (get (countLengths lens) ln + 1)
        else countLengths lens := by
      rw [countLengths, foldl_append]
      rfl
    rw [hstep, count_append, count_singleton]
    by_cases hln : ln = ℓ
    · subst hln
      rw [if_pos (by omega), get_set_self _ _ (by omega), ih, if_pos (beq_self_eq_true _)]
    · have hne : (if (ln == (ℓ : Int)) = true then 1 else 0) = 0 := if_neg (by simpa using hln)
      rw [hne, add_zero, ← ih]
      split
      · obtain ⟨m, rfl⟩ := Int.eq_ofNat_of_zero_le (show 0 ≤ ln by omega)
        exact get_set_ne _ _ (by omega)
      · rfl

/-- Code lengths as the decoder holds them. -/
abbrev vecOf (lens : List Nat) : Vec Int := lens.map Nat.cast

theorem buildHuff_count (lens : List Nat) {ℓ : Nat} (hpos : 0 < ℓ) (hle : ℓ ≤ 15) :
    Vec.get (buildHuff (vecOf lens)).count ℓ = lengthCount lens ℓ := by
  rw [lengthCount, if_neg (by omega)]
  show get (countLengths (vecOf lens)) ℓ = _
  rw [get_countLengths _ hpos hle, count_map_of_injective _ _ cast_injective]

theorem idxsOf_vecOf (lens : List Nat) (ℓ : Nat) : (vecOf lens).idxsOf (ℓ : Int) = lens.idxsOf ℓ := by
  rw [idxsOf_map]
  refine congrArg (fun f => findIdxs f lens) (funext fun m => ?_)
  rw [Bool.eq_iff_iff, beq_iff_eq, beq_iff_eq]
  exact cast_inj

theorem buildHuff_symbol (lens : List Nat) : (buildHuff (vecOf lens)).symbol = canonical lens 15 := by
  simp only [buildHuff, canonical, idxsOf_vecOf]

theorem two_mul_or_toNat (v : Nat) (b : Bool) : 2 * v ||| b.toNat = 2 * v + b.toNat :=
  (Nat.two_pow_add_eq_or_of_lt (i := 1) (Bool.toNat_lt b) v).symm

/-- The rounds of `decode_symbol`, when the bits `u` of a word have been read and `v` are to come: `code`,
`first` and `index` are the numbers of the canonical code for the next length. -/
theorem decodeFrom_code {src : Str} {lens : List Nat} {s : Nat} : ∀ {v u bits : List Bool} {rounds p : Nat},
    v ≠ [] → v.length ≤ rounds → (u ++ v).length ≤ 15 → CodeOf lens s (u ++ v) → Ahead src p (v ++ bits) →
    decodeFrom src (buildHuff (vecOf lens)) rounds (u.length + 1) (2 * msb u)
      (firstCode lens (u.length + 1)) (shorter lens (u.length + 1)) p = ⟨s, p + v.length⟩
  | [], _, _, _, _, hv, _, _, _, _ => absurd rfl hv
  | b :: v, u, bits, 0, p, _, hr, _, _, _ => by simp at hr
  | b :: v, u, bits, rounds + 1, p, _, hr, hlen, hcode, ha => by
    have hu : (u ++ [b]).length = u.length + 1 := by simp
    have huv : u ++ b :: v = u ++ [b] ++ v := by simp
    rw [huv] at hcode hlen
    have hle : u.length + 1 ≤ 15 := by simp at hlen; omega
    have hcnt := buildHuff_count lens (show 0 < u.length + 1 by omega) hle
    have hbit : 2 * msb u ||| valAt src p 1 = msb (u ++ [b]) := by
      rw [Ahead.head ha, two_mul_or_toNat, msb_concat]
    rw [decodeFrom]
    simp only [hbit, hcnt]
    cases v with
    | nil =>
      rw [append_nil] at hcode hlen
      have hlt := hcode.lt_of_value
      have hfirst := hcode.firstCode_le
      have hget := hcode.getElem?_canonical hlen
      rw [hu] at hlt hfirst hget
      have hidx : (shorter lens (u.length + 1) : Int) + ((msb (u ++ [b]) : Int) -
          firstCode lens (u.length + 1)) =
          (shorter lens (u.length + 1) + (msb (u ++ [b]) - firstCode lens (u.length + 1)) : Nat) := by
        omega
      rw [if_pos (by omega), hidx, buildHuff_symbol, get_eq_of_getElem? hget]
      rfl
    | cons c v =>
      have hge := hcode.le_of_prefix (cons_ne_nil c v)
      rw [hu] at hge
      have ih := @decodeFrom_code src lens s (c :: v) (u ++ [b]) bits rounds (p + 1)
        (cons_ne_nil c v) (by simpa using hr) hlen hcode ha.tail
      rw [hu] at ih
      have hcode' : msb (u ++ [b]) <<< 1 = 2 * msb (u ++ [b]) := by
        rw [Nat.shiftLeft_eq, Nat.mul_comm]
      have hfirst : (firstCode lens (u.length + 1) + lengthCount lens (u.length + 1)) <<< 1 =
          firstCode lens (u.length + 1 + 1) := by
        rw [Nat.shiftLeft_eq, Nat.mul_comm]
        rfl
      rw [if_neg (by omega), hcode', hfirst]
      exact ih.trans (by rw [length_cons (a := b)]; congr 1; omega)

variable {lens : List Nat}

/-- **A word is read as its symbol.** -/
theorem decodeSymbol_code {s : Nat} {w : List Bool} (hlens : ∀ ℓ ∈ lens, ℓ ≤ 15) (hcode : CodeOf lens s w)
    (ha : Ahead src p (w ++ bits)) : decodeSymbol src p (buildHuff (vecOf lens)) = ⟨s, p + w.length⟩ := by
  have hw : w.length ≤ 15 := hlens _ (mem_of_getElem? hcode.length)
  exact @decodeFrom_code src lens s w [] bits 15 p hcode.nonempty hw (by simpa using hw)
    (by simpa using hcode) ha

/-- **Canonical codes are decoded**, incomplete ones as well. -/
theorem decodeSymbol_canonical (lens : List Nat) (hlens : ∀ ℓ ∈ lens, ℓ ≤ 15) (hkraft : kraftFrom 15 0 lens ≤ 2 ^ 15)
    (s ℓ : Nat) (hs : lens[s]? = some ℓ) (hℓ : ℓ ≠ 0) : ∃ w, CodeOf lens s w ∧ ∀ src p bits, Ahead src p (w ++ bits) →
      decodeSymbol src p (buildHuff (vecOf lens)) = ⟨s, p + ℓ⟩ := by
  obtain ⟨w, hw, rfl⟩ := exists_codeOf hkraft (hlens ℓ (mem_of_getElem? hs)) hs hℓ
  exact ⟨w, hw, fun src p bits ha => decodeSymbol_code hlens hw ha⟩

theorem decodeSymbol_canonical_two : ∃ w, CodeOf [2, 0, 1] 0 w ∧ ∀ src p bits, Ahead src p (w ++ bits) →
    decodeSymbol src p (buildHuff (vecOf [2, 0, 1])) = ⟨0, p + 2⟩ :=
  decodeSymbol_canonical [2, 0, 1] (by decide) (by decide) 0 2 rfl (by decide)

/-! ## 4. The text of a block -/

/-- Bytes as the decoder holds them. -/
abbrev bytesOf (out : List UInt8) : Vec Int := out.map fun b => (b.toNat : Int)

theorem lengthTable_get {i e len : Nat} (h : lengthTable[i]? = some (e, len)) :
    Vec.get lenExtraTbl i = e ∧ Vec.get lenBaseTbl i = len := by
  have hzip : lengthTable = lenExtraTbl.zip lenBaseTbl := rfl
  rw [hzip, getElem?_zip_eq_some] at h
  exact ⟨get_eq_of_getElem? h.1, get_eq_of_getElem? h.2⟩

variable {dist : Nat}

theorem distanceTable_get {j e : Nat} (h : distanceTable[j]? = some (e, dist)) :
    Vec.get distExtraTbl j = e ∧ Vec.get distBaseTbl j = dist := by
  have hzip : distanceTable = distExtraTbl.zip distBaseTbl := rfl
  rw [hzip, getElem?_zip_eq_some] at h
  exact ⟨get_eq_of_getElem? h.1, get_eq_of_getElem? h.2⟩

theorem length_copy (out : List UInt8) (dist : Nat) : ∀ n, (copy out dist n).length = out.length + n
  | 0 => rfl
  | n + 1 => by
    rw [copy, length_append, length_copy out dist n, length_singleton, add_assoc]

theorem get_bytesOf (out : List UInt8) (n : Nat) :
    Vec.get (bytesOf out) n = ((out.getD n 0).toNat : Int) := by
  rw [get_natCast, getD_eq_getElem?_getD, getD_eq_getElem?_getD, getElem?_map]
  cases out[n]? <;> rfl

theorem push_bytesOf (out : List UInt8) (b : UInt8) :
    Vec.push (bytesOf out) (b.toNat : Int) = bytesOf (out ++ [b]) := by
  rw [bytesOf, bytesOf, map_append]
  rfl

variable {out : List UInt8}

/-- The loop reads at a fixed distance behind the end, although it counts from the old one. -/
theorem copyBack_eq (h : dist ≤ out.length) (len : Nat) :
    copyBack (bytesOf out) len dist = bytesOf (copy out dist len) := by
  rw [copyBack]
  simp only [length_map]
  induction len with
  | zero => rfl
  | succ n ih =>
    have hidx : (out.length : Int) - dist + (n : Nat) = (out.length + n - dist : Nat) := by omega
    rw [range_succ, foldl_append, ih, foldl_cons, foldl_nil, hidx, get_bytesOf, copy,
      length_copy, push_bytesOf]

variable {dl : List Nat}

theorem backReference_eq {i j len : Nat} {x v y : List Bool} (hdl : ∀ ℓ ∈ dl, ℓ ≤ 15)
    (hlen : lengthTable[i]? = some (x.length, len)) (hv : CodeOf dl j v)
    (hdist : distanceTable[j]? = some (y.length, dist)) (hout : dist + lsb y ≤ out.length)
    (ha : Ahead src p (x ++ (v ++ (y ++ bits)))) :
    backReference (buildHuff (vecOf dl)) src ((257 + i : Nat) : Int) p (bytesOf out) =
      ⟨p + x.length + v.length + y.length, bytesOf (copy out (dist + lsb y) (len + lsb x))⟩ := by
  obtain ⟨hex, hbx⟩ := lengthTable_get hlen
  obtain ⟨hey, hby⟩ := distanceTable_get hdist
  have hli : ((257 + i : Nat) : Int) - 257 = i := by omega
  have hsym := decodeSymbol_code hdl hv ha.skip
  rw [backReference]
  simp only [hli, hex, hbx, hsym, hey, hby, ha.valAt, ha.skip.skip.valAt]
  rw [copyBack_eq hout]

variable {bits' : List Bool} {ll : List Nat}

/-- **The text of a block is decoded.** -/
theorem decodeRun_text (hll : ∀ ℓ ∈ ll, ℓ ≤ 15) (hdl : ∀ ℓ ∈ dl, ℓ ≤ 15) {out' : List UInt8}
    (h : Text ll dl bits out bits' out') (ha : Ahead src p bits) : ∃ p', Ahead src p' bits' ∧
      (decodeRun (buildHuff (vecOf ll)) (buildHuff (vecOf dl)) src p (bytesOf out)).Returns
        ⟨p', bytesOf out'⟩ := by
  induction h generalizing p with
  | @stop w bits out hw =>
    have hsym := decodeSymbol_code hll hw ha
    refine ⟨p + w.length, ha.skip, loop_returns_of_exit (returns_pure.mpr ?_)⟩
    simp only [runBody, hsym]
    rfl
  | @literal w bits bits' out out' b hw _ ih =>
    have hsym := decodeSymbol_code hll hw ha
    obtain ⟨p', ha', hrun⟩ := ih ha.skip
    refine ⟨p', ha', loop_returns_of_next (returns_pure.mpr ?_) hrun⟩
    have hb := b.toNat_lt
    simp only [runBody, hsym]
    rw [if_neg (by omega), if_pos (by omega), push_bytesOf]
  | @copy w x v y bits bits' out out' i j len dist hw hlen hv hdist hout _ ih =>
    have hsym := decodeSymbol_code hll hw ha
    obtain ⟨p', ha', hrun⟩ := ih ha.skip.skip.skip.skip
    refine ⟨p', ha', loop_returns_of_next (returns_pure.mpr ?_) hrun⟩
    simp only [runBody, hsym]
    rw [if_neg (by omega), if_neg (by omega), backReference_eq hdl hlen hv hdist hout ha.skip]

/-! ## 5. Code lengths -/

variable {cl lens' : List Nat}

theorem Deflate.Lengths.length_le (h : Lengths cl bits lens bits' lens') : lens.length ≤ lens'.length := by
  induction h with
  | done => exact le_refl _
  | one _ _ _ ih | zeros _ _ _ ih | manyZeros _ _ _ ih => simp at ih; omega
  | again _ _ _ ih => simp at ih ⊢; omega

/-- Repeating a short length keeps the lengths short. -/
theorem le_of_mem_append_replicate {n x : Nat} (hlens : ∀ ℓ ∈ lens, ℓ ≤ 15) (hx : x ≤ 15) :
    ∀ ℓ ∈ lens ++ List.replicate n x, ℓ ≤ 15 := by
  intro ℓ hℓ
  rcases mem_append.mp hℓ with hℓ | hℓ
  · exact hlens ℓ hℓ
  · exact eq_of_mem_replicate hℓ ▸ hx

theorem Deflate.Lengths.le_of_mem (h : Lengths cl bits lens bits' lens') (hlens : ∀ ℓ ∈ lens, ℓ ≤ 15) :
    ∀ ℓ ∈ lens', ℓ ≤ 15 := by
  induction h with
  | done => exact hlens
  | one hc _ _ ih => exact ih (by simpa [or_imp, forall_and] using ⟨hlens, by omega⟩)
  | @again _ _ _ _ lens _ prev _ _ _ ih =>
    exact ih (le_of_mem_append_replicate hlens (hlens prev (by simp)))
  | zeros _ _ _ ih | manyZeros _ _ _ ih => exact ih (le_of_mem_append_replicate hlens (zero_le _))

theorem push_vecOf (lens : List Nat) (c : Nat) : Vec.push (vecOf lens) (c : Int) = vecOf (lens ++ [c]) := by
  rw [vecOf, vecOf, map_append]
  rfl

theorem vecOf_replicate (lens : List Nat) (n ℓ : Nat) :
    vecOf lens ++ List.replicate n (ℓ : Int) = vecOf (lens ++ List.replicate n ℓ) := by
  simp

/-- A code that is read leaves the rest to the rest. -/
theorem readLengths_next {ch : Huff} {q : Nat} {mid : List Nat} (hrest : Lengths cl bits mid bits' lens')
    (hstep : lengthStep src ch ⟨p, vecOf lens⟩ = ⟨q, vecOf mid⟩) (hlt : lens.length < mid.length)
    (h : ∃ p', Ahead src p' bits' ∧
      (loop (fun s => pure (lengthBody src ch lens'.length s)) ⟨q, vecOf mid⟩).Returns ⟨p', vecOf lens'⟩) :
    ∃ p', Ahead src p' bits' ∧
      (loop (fun s => pure (lengthBody src ch lens'.length s)) ⟨p, vecOf lens⟩).Returns ⟨p', vecOf lens'⟩ := by
  obtain ⟨p', ha', hrun⟩ := h
  have hle := hrest.length_le
  refine ⟨p', ha', loop_returns_of_next (returns_pure.mpr ?_) hrun⟩
  rw [lengthBody, if_pos (by simp; omega), hstep]

/-- **Code lengths are decoded.** -/
theorem readLengths_lengths (hcl : ∀ ℓ ∈ cl, ℓ ≤ 15) (h : Lengths cl bits lens bits' lens')
    (ha : Ahead src p bits) :
    ∃ p', Ahead src p' bits' ∧
      (loop (fun s => pure (lengthBody src (buildHuff (vecOf cl)) lens'.length s))
        ⟨p, vecOf lens⟩).Returns ⟨p', vecOf lens'⟩ := by
  induction h generalizing p with
  | @done bits lens =>
    refine ⟨p, ha, loop_returns_of_exit (returns_pure.mpr ?_)⟩
    rw [lengthBody, if_neg (by simp)]
  | @one w bits bits' lens lens' c hc hw hrest ih =>
    have hsym := decodeSymbol_code hcl hw ha
    refine readLengths_next hrest ?_ (by simp) (ih ha.skip)
    simp only [lengthStep, hsym]
    rw [if_pos (by omega), push_vecOf]
  | @again w x bits bits' lens lens' prev hw hx hrest ih =>
    have hsym := decodeSymbol_code hcl hw ha
    refine readLengths_next hrest ?_ (by simp) (ih ha.skip.skip)
    have hprev : get (vecOf (lens ++ [prev])) (((vecOf (lens ++ [prev])).length : Int) - 1) = prev := by
      have hidx : ((vecOf (lens ++ [prev])).length : Int) - 1 = (lens.length : Nat) := by simp
      rw [hidx]
      exact get_eq_of_getElem? (by simp)
    simp only [lengthStep, hsym, hprev]
    rw [if_neg (by omega), if_pos (by omega), if_pos (by simp), ha.skip.valAt_of_length hx, vecOf_replicate, hx]
  | @zeros w x bits bits' lens lens' hw hx hrest ih =>
    have hsym := decodeSymbol_code hcl hw ha
    refine readLengths_next hrest ?_ (by simp) (ih ha.skip.skip)
    simp only [lengthStep, hsym]
    rw [if_neg (by omega), if_neg (by omega), if_pos (by omega), ha.skip.valAt_of_length hx, hx]
    exact congrArg _ (vecOf_replicate lens _ 0)
  | @manyZeros w x bits bits' lens lens' hw hx hrest ih =>
    have hsym := decodeSymbol_code hcl hw ha
    refine readLengths_next hrest ?_ (by simp) (ih ha.skip.skip)
    simp only [lengthStep, hsym]
    rw [if_neg (by omega), if_neg (by omega), if_neg (by omega), ha.skip.valAt_of_length hx, hx]
    exact congrArg _ (vecOf_replicate lens _ 0)

/-! ## 6. The head of a block with codes of its own -/

theorem lengthOrder_iff : ∀ k < 19, ∀ s < 19, lengthOrder.idxOf s = k ↔ lengthOrder.getD k 0 = s := by
  decide

theorem length_codeLengths (sent : List Nat) : (codeLengths sent).length = 19 := by simp [codeLengths]

/-- One more length that is sent goes to its place. -/
theorem codeLengths_concat {sent : List Nat} (c : Nat) (h : sent.length < 19) :
    codeLengths (sent ++ [c]) = (codeLengths sent).set (lengthOrder.getD sent.length 0) c := by
  refine ext_getElem (by simp [codeLengths]) fun s hs _ => ?_
  rw [length_codeLengths] at hs
  have hiff := lengthOrder_iff sent.length h s hs
  rw [getElem_set]
  simp only [codeLengths, getElem_map, getElem_range, getD_eq_getElem?_getD]
  rw [getD_eq_getElem?_getD] at hiff
  by_cases hk : lengthOrder.idxOf s = sent.length
  · rw [if_pos (hiff.mp hk), hk]
    simp
  · rw [if_neg (fun e => hk (hiff.mpr e))]
    rcases lt_or_ge (lengthOrder.idxOf s) sent.length with hlt | hge
    · rw [getElem?_append_left hlt]
    · rw [getElem?_append_right hge, getElem?_eq_none (by simpa using by omega),
        getElem?_eq_none hge]

variable {sent : List (List Bool)}

theorem length_flatten_of_forall (h : ∀ c ∈ sent, c.length = 3) : sent.flatten.length = 3 * sent.length := by
  rw [length_flatten, map_congr_left h, map_const', sum_replicate, smul_eq_mul,
    Nat.mul_comm]

theorem codeLens_eq (hsent : ∀ c ∈ sent, c.length = 3) (hle : sent.length ≤ 19)
    (ha : Ahead src p (sent.flatten ++ bits)) :
    codeLens src p sent.length = vecOf (codeLengths (sent.map lsb)) := by
  induction sent using reverseRecOn generalizing bits with
  | nil => rfl
  | append_singleton sent c ih =>
    have hsent' : ∀ d ∈ sent, d.length = 3 := fun d hd => hsent d (mem_append_left _ hd)
    have hc : c.length = 3 := hsent c (by simp)
    rw [flatten_append, append_assoc] at ha
    rw [length_append, length_singleton] at hle ⊢
    have ih' := ih hsent' (by omega) ha
    have hval := ha.skip
    rw [flatten_singleton, length_flatten_of_forall hsent'] at hval
    rw [codeLens] at ih' ⊢
    rw [range_succ, foldl_append, ih', foldl_cons, foldl_nil,
      hval.valAt_of_length hc, map_append, map_singleton,
      codeLengths_concat _ (by simpa using by omega), set_natCast, vecOf, vecOf, map_set,
      length_map]
    rfl

theorem codeLengths_le (hsent : ∀ c ∈ sent, c.length = 3) : ∀ ℓ ∈ codeLengths (sent.map lsb), ℓ ≤ 15 := by
  intro ℓ hℓ
  obtain ⟨s, _, rfl⟩ := mem_map.mp hℓ
  rw [getD_eq_getElem?_getD, getElem?_map]
  cases hget : sent[lengthOrder.idxOf s]? with
  | none => exact zero_le _
  | some c =>
    have hlt := lsb_lt c
    rw [hsent c (mem_of_getElem? hget)] at hlt
    show lsb c ≤ 15
    omega

theorem tablesOf_vecOf (p : Nat) :
    tablesOf ll.length dl.length ⟨p, vecOf (ll ++ dl)⟩ =
      ⟨buildHuff (vecOf ll), buildHuff (vecOf dl), p⟩ := by
  have hl : (range ll.length).map (fun (i : Nat) => get (vecOf (ll ++ dl)) i) = vecOf ll := by
    refine ext_getElem (by simp) fun i hi _ => ?_
    have hi' : i < ll.length := by simpa using hi
    rw [getElem_map, getElem_range]
    refine get_eq_of_getElem? ?_
    rw [getElem?_map, getElem?_append_left hi', getElem?_eq_getElem hi', getElem_map]
    rfl
  have hd : (range dl.length).map (fun (i : Nat) => get (vecOf (ll ++ dl)) (ll.length + i : Nat)) = vecOf dl := by
    refine ext_getElem (by simp) fun i hi _ => ?_
    have hi' : i < dl.length := by simpa using hi
    rw [getElem_map, getElem_range]
    exact get_eq_of_getElem? (by simp [hi'])
  rw [tablesOf, hl, hd]

/-- **The codes of a block are decoded.** -/
theorem dynamicTables_eq {hlit hdist hclen bits₁ : List Bool} (hhl : hlit.length = 5) (hhd : hdist.length = 5)
    (hhc : hclen.length = 4) (hn : sent.length = lsb hclen + 4) (hsent : ∀ c ∈ sent, c.length = 3)
    (hll : ll.length = lsb hlit + 257) (hdl : dl.length = lsb hdist + 1)
    (hlens : Lengths (codeLengths (sent.map lsb)) bits [] bits₁ (ll ++ dl))
    (ha : Ahead src p (hlit ++ (hdist ++ (hclen ++ (sent.flatten ++ bits))))) :
    ∃ p', Ahead src p' bits₁ ∧
      (dynamicTables src p).Returns ⟨buildHuff (vecOf ll), buildHuff (vecOf dl), p'⟩ := by
  have ha₁ := ha.skip
  rw [hhl] at ha₁
  have ha₂ := ha₁.skip
  rw [hhd] at ha₂
  have ha₃ := ha₂.skip
  rw [hhc] at ha₃
  have hvl : valAt src p 5 = lsb hlit := ha.valAt_of_length hhl
  have hvd : valAt src (p + 5) 5 = lsb hdist := ha₁.valAt_of_length hhd
  have hvc : valAt src (p + 10) 4 = lsb hclen := ha₂.valAt_of_length hhc
  have hc16 : lsb hclen < 2 ^ 4 := hhc ▸ lsb_lt hclen
  have hcl := codeLens_eq hsent (by omega) ha₃
  have ha₄ := ha₃.skip
  rw [length_flatten_of_forall hsent] at ha₄
  obtain ⟨p', hp', hread⟩ := readLengths_lengths (codeLengths_le hsent) hlens ha₄
  refine ⟨p', hp', returns_bind.mpr ⟨⟨p', vecOf (ll ++ dl)⟩, ?_, returns_pure.mpr ?_⟩⟩
  · rw [hvl, hvd, hvc, ← hll, ← hdl, ← hn, ← length_append]
    have e : p + 14 = p + 5 + 5 + 4 := by omega
    rw [e, hcl]
    exact hread
  · rw [hvl, hvd, ← hll, ← hdl]
    exact tablesOf_vecOf p'

/-! ## 7. Stored blocks -/

theorem lsb_map_testBit (x : Nat) : ∀ n, lsb ((List.range n).map fun i => x.testBit i) = x % 2 ^ n
  | 0 => by simp [lsb, mod_one]
  | n + 1 => by
    rw [range_succ, map_append, map_singleton, lsb_concat, lsb_map_testBit x n,
      length_map, length_range, toNat_testBit, mod_pow_succ]

theorem lsb_byteBits (b : UInt8) : lsb (byteBits b) = b.toNat := by
  rw [byteBits, lsb_map_testBit, mod_eq_of_lt b.toNat_lt]

/-- The bits of a number upside down. -/
theorem lsb_not (x : List Bool) : lsb x ^^^ (2 ^ x.length - 1) = lsb (x.map (! ·)) := by
  have hbit : ∀ (b : Bool) (w : List Bool), lsb (b :: w) = Nat.bit b (lsb w) := fun b w => by
    rw [lsb, bit_val, Nat.add_comm]
  induction x with
  | nil => rfl
  | cons b x ih =>
    have hones : 2 ^ (b :: x).length - 1 = Nat.bit true (2 ^ x.length - 1) := by
      have := Nat.two_pow_pos x.length
      rw [length_cons, pow_succ, bit_val, Bool.toNat_true]
      omega
    rw [hones, hbit, xor_bit, ih, map_cons, hbit]
    cases b <;> rfl

theorem foldl_push {f : Nat → Int} (out : Vec Int) : ∀ n,
    (List.range n).foldl (fun out (k : Nat) => Vec.push out (f k)) out = out ++ (List.range n).map f
  | 0 => by simp
  | n + 1 => by
    rw [range_succ, foldl_append, foldl_push out n, map_append, ← append_assoc]
    rfl

theorem valAt_bitsOf {data : Str} (ha : Ahead src p (bitsOf data ++ bits)) {k : Nat} (hk : k < data.length) :
    valAt src (p + 8 * k) 8 = data[k].toNat := by
  have hsplit : bitsOf data = bitsOf (data.take k) ++ (byteBits data[k] ++ bitsOf (data.drop (k + 1))) := by
    conv_lhs => rw [← take_append_drop k data, drop_eq_getElem_cons hk]
    rw [bitsOf, flatMap_append, flatMap_cons]
    rfl
  rw [hsplit, append_assoc, append_assoc] at ha
  have hval := ha.skip
  rw [length_bitsOf, length_take_of_le (le_of_lt hk)] at hval
  rw [hval.valAt_of_length (length_byteBits _), lsb_byteBits]

/-- **A stored block is decoded.** The bytes begin where the position is a multiple of 8. -/
theorem storedBlock_eq {src data : Str} {p : Nat} {pad x bits : List Bool} {out : List UInt8}
    (hpad : pad.length < 8) (hbits : bits.length % 8 = 0) (hx : x.length = 16) (hlen : lsb x = data.length)
    (ha : Ahead src p (pad ++ (x ++ (x.map (! ·) ++ (bitsOf data ++ bits))))) :
    ∃ p', Ahead src p' bits ∧ storedBlock src p (bytesOf out) = some ⟨p', bytesOf (out ++ data)⟩ := by
  have hnx : (x.map (! ·)).length = 16 := by rw [length_map, hx]
  have halign : (p + 7) / 8 * 8 = p + pad.length := by
    have htotal := ha.length
    simp only [length_append, length_bitsOf, length_map, hx] at htotal
    omega
  have ha₁ := ha.skip
  have ha₂ := ha₁.skip
  rw [hx] at ha₂
  have ha₃ := ha₂.skip
  rw [hnx] at ha₃
  have ha₄ := ha₃.skip
  rw [length_bitsOf] at ha₄
  have hnot : data.length ^^^ 0xFFFF = lsb (x.map (! ·)) := by
    have := lsb_not x
    rw [hx, hlen] at this
    exact this
  have hbytes : (range data.length).map
      (fun k => ((valAt src (p + pad.length + 32 + 8 * k) 8 : Nat) : Int)) = bytesOf data := by
    refine ext_getElem (by simp) fun k hk _ => ?_
    have hk' : k < data.length := by simpa using hk
    rw [getElem_map, getElem_range, getElem_map]
    exact congrArg Nat.cast (valAt_bitsOf ha₃ hk')
  refine ⟨p + pad.length + 32 + 8 * data.length, ha₄, ?_⟩
  simp only [storedBlock, halign, ha₁.valAt_of_length hx, ha₂.valAt_of_length hnx, hlen, hnot, ne_eq,
    not_true, if_false]
  rw [foldl_push, hbytes, bytesOf, bytesOf, bytesOf, map_append]

/-! ## 8. Streams -/

theorem fixedLitLens_eq : fixedLitLens = vecOf fixedLit := by decide +kernel

theorem fixedDistLens_eq : fixedDistLens = vecOf fixedDist := by decide +kernel

theorem fixedLit_le : ∀ ℓ ∈ fixedLit, ℓ ≤ 15 := by decide +kernel

theorem fixedDist_le : ∀ ℓ ∈ fixedDist, ℓ ≤ 15 := by decide +kernel

/-- **A block is decoded**, whichever kind it is. -/
theorem blockBody_block {out' : List UInt8} (h : Block bits out bits' out') {b : Bool}
    (ha : Ahead src p (b :: bits)) :
    ∃ p', Ahead src p' bits' ∧
      (blockBody src ⟨p, bytesOf out⟩).Returns (afterBlock b.toNat ⟨p', bytesOf out'⟩) := by
  have hfinal := ha.head
  cases h with
  | @stored pad x _ _ data hpad hbits hx hlen =>
    have htype : valAt src (p + 1) 2 = 0 := Ahead.valAt (w := [false, false]) ha.tail
    obtain ⟨p', ha', hblock⟩ := @storedBlock_eq src data (p + 3) pad x bits' out hpad hbits hx hlen
      ha.tail.tail.tail
    refine ⟨p', ha', ?_⟩
    simp only [blockBody, htype, if_true, hfinal, hblock]
    exact returns_pure.mpr rfl
  | fixed htext =>
    have htype : valAt src (p + 1) 2 = 1 := Ahead.valAt (w := [true, false]) ha.tail
    obtain ⟨p', ha', hrun⟩ := decodeRun_text fixedLit_le fixedDist_le htext ha.tail.tail.tail
    refine ⟨p', ha', ?_⟩
    simp only [blockBody, htype, hfinal, fixedLitLens_eq, fixedDistLens_eq]
    exact returns_bind.mpr ⟨_, hrun, returns_pure.mpr rfl⟩
  | dynamic hhl hhd hhc hn hsent hll hdl hlens htext =>
    have htype : valAt src (p + 1) 2 = 2 := Ahead.valAt (w := [false, true]) ha.tail
    have hle := hlens.le_of_mem (by simp)
    obtain ⟨p₁, ha₁, htables⟩ := dynamicTables_eq hhl hhd hhc hn hsent hll hdl hlens ha.tail.tail.tail
    obtain ⟨p', ha', hrun⟩ := decodeRun_text (fun ℓ hℓ => hle ℓ (mem_append_left _ hℓ))
      (fun ℓ hℓ => hle ℓ (mem_append_right _ hℓ)) htext ha₁
    refine ⟨p', ha', ?_⟩
    simp only [blockBody, htype, hfinal]
    exact returns_bind.mpr ⟨_, htables, returns_bind.mpr
      ⟨_, hrun, returns_pure.mpr rfl⟩⟩

/-- **Blocks up to the final one.** -/
theorem inflate_stream {result : List UInt8} (h : Stream bits out result) (ha : Ahead src p bits) :
    (loop (blockBody src) ⟨p, bytesOf out⟩).Returns (bytesOf result) := by
  induction h generalizing p with
  | final hblock =>
    obtain ⟨p', _, hbody⟩ := blockBody_block hblock ha
    exact loop_returns_of_exit hbody
  | more hblock _ ih =>
    obtain ⟨p', ha', hbody⟩ := blockBody_block hblock ha
    exact loop_returns_of_next hbody (ih ha')

/-! ## 9. Bytes to a String -/

theorem flatten_joinPairs : ∀ p, (joinPairs p).flatten = p.flatten
  | [] | [_] => rfl
  | a :: b :: p => by
    rw [joinPairs, flatten_cons, flatten_joinPairs p, append_assoc]
    rfl

theorem joinPieces_eq (p : List Str) : joinPieces p = p.flatten := by
  fun_induction joinPieces p with
  | case1 => rfl
  | case2 a => simp
  | case3 a b p ih => rw [ih, flatten_joinPairs]

theorem flatten_pieces (buf : Vec Int) : (pieces buf).flatten = buf.flatMap fromByteInt := by
  fun_induction pieces buf with
  | case1 => rfl
  | case2 buf _ ih =>
    rw [flatten_cons, ih, ← flatMap_append, take_append_drop]

theorem flatBytes_bytesOf (out : List UInt8) : flatBytes (bytesOf out) = out := by
  rw [flatBytes, joinPieces_eq, flatten_pieces, flatMap_map]
  induction out with
  | nil => rfl
  | cons b out ih =>
    have hb : fromByteInt (b.toNat : Int) = [b] := by
      have hlt := b.toNat_lt
      rw [fromByteInt, show ((b.toNat : Int) % 256).toNat = b.toNat by omega, UInt8.ofNat_toNat]
    rw [flatMap_cons, ih, hb]
    rfl

/-! ## 10. The decoder -/

/-- **Every stream of the format is decoded to the bytes that it stands for**, and `flat_bytes` makes a String
of just these bytes. -/
theorem inflate_correct (src : Str) (bytes : List UInt8) (h : Stream (bitsOf src) [] bytes) :
    (inflateDef src).Returns (bytesOf bytes) ∧ flatBytes (bytesOf bytes) = bytes :=
  ⟨inflate_stream h (Ahead.start src), flatBytes_bytesOf bytes⟩

/-- A code in which the symbols 97 and 256 have words of one bit. -/
def ownLit : List Nat := List.replicate 97 0 ++ [1] ++ List.replicate 158 0 ++ [1]

/-- What a block sends for the code of its code lengths: 1 for the symbols 18 and 1. -/
def ownLengths : List (List Bool) :=
  [[false, false, false], [false, false, false], [true, false, false]] ++
    List.replicate 14 [false, false, false] ++ [[true, false, false]]

/-- The byte 97 twice and the end, with this code. -/
def ownText : List Bool := [false] ++ ([false] ++ ([true] ++ [false, false, false, false, false]))

/-- The lengths `ownLit`, and one distance. -/
def ownHead : List Bool :=
  [true] ++ ([false, true, true, false, true, false, true] ++ ([false] ++ ([true] ++
    ([true, true, true, true, true, true, true] ++ ([true] ++
    ([true, false, false, true, false, false, false] ++ ([false] ++ ([false] ++ ownText))))))))

/-- A final block with codes of its own. -/
def ownCodes : List Bool :=
  true :: false :: true :: ([false, false, false, false, false] ++ ([false, false, false, false, false] ++
    ([false, true, true, true] ++ (ownLengths.flatten ++ ownHead))))

/-- A block with the fixed codes: a copy of 6 bytes from 2 bytes back, the byte 99 and the end. -/
def fixedCodes : List Bool :=
  false :: true :: false :: ([false, false, false, false, true, false, false] ++ ([] ++
    ([false, false, false, false, true] ++ ([] ++ ([true, false, false, true, false, false, true, true] ++
    ([false, false, false, false, false, false, false] ++ ownCodes))))))

/-- A stored block with the bytes 97 and 98, then these two. -/
def threeBlocks : Str :=
  [0, 2, 0, 253, 255, 97, 98, 130, 192, 100, 64, 1, 112, 32, 0, 0, 0, 0, 0, 164, 213, 255, 4, 4]

theorem ownHead_lengths : Lengths (codeLengths (ownLengths.map lsb)) ownHead [] ownText (ownLit ++ [1]) := by
  have hlens : ownLit ++ [1] =
      [] ++ replicate (11 + lsb [false, true, true, false, true, false, true]) 0 ++ [1] ++
        replicate (11 + lsb [true, true, true, true, true, true, true]) 0 ++
        replicate (11 + lsb [true, false, false, true, false, false, false]) 0 ++ [1] ++ [1] := by
    decide +kernel
  rw [hlens]
  exact Lengths.manyZeros (w := [true]) (by decide +kernel) rfl
    (Lengths.one (c := 1) (w := [false]) (by decide) (by decide +kernel)
    (Lengths.manyZeros (w := [true]) (by decide +kernel) rfl
    (Lengths.manyZeros (w := [true]) (by decide +kernel) rfl
    (Lengths.one (c := 1) (w := [false]) (by decide) (by decide +kernel)
    (Lengths.one (c := 1) (w := [false]) (by decide) (by decide +kernel) Lengths.done)))))

theorem ownCodes_stream (out : List UInt8) : Stream ownCodes out (out ++ [97] ++ [97]) := by
  have htext : Text ownLit [1] ownText out [false, false, false, false, false] (out ++ [97] ++ [97]) :=
    Text.literal (b := 97) (w := [false]) (by decide +kernel)
      (Text.literal (b := 97) (w := [false]) (by decide +kernel)
        (Text.stop (w := [true]) (by decide +kernel)))
  exact Stream.final (Block.dynamic rfl rfl rfl rfl (by decide) (by decide +kernel) rfl ownHead_lengths htext)

theorem inflate_correct_three_blocks :
    Stream (bitsOf threeBlocks) [] [97, 98, 97, 98, 97, 98, 97, 98, 99, 97, 97] ∧
      (inflateDef threeBlocks).Returns [97, 98, 97, 98, 97, 98, 97, 98, 99, 97, 97] := by
  have hbits : bitsOf threeBlocks = false :: false :: false :: ([false, false, false, false, false] ++
      (([false, true] ++ replicate 14 false) ++ ((([false, true] ++ replicate 14 false).map (! ·)) ++
        (bitsOf [97, 98] ++ fixedCodes)))) := by decide +kernel
  have hstream : Stream (bitsOf threeBlocks) [] [97, 98, 97, 98, 97, 98, 97, 98, 99, 97, 97] := by
    rw [hbits]
    exact Stream.more (Block.stored (by decide) (by decide +kernel) rfl rfl)
      (Stream.more (Block.fixed (Text.copy (i := 3) (j := 1) (by decide +kernel) rfl (by decide +kernel) rfl
        (by decide) (Text.literal (b := 99) (by decide +kernel) (Text.stop (by decide +kernel)))))
        (ownCodes_stream [97, 98, 97, 98, 97, 98, 97, 98, 99]))
  exact ⟨hstream, (inflate_correct threeBlocks _ hstream).1⟩

end Vyb.Stdlib
