/-
  Subject:   Canonical prefix codes: a code given by nothing but the lengths of its words.

  The words of one length are consecutive numbers, in the order of their symbols; the first word of a
  length follows the last of the length before it, with a zero appended (`firstCode`).

  * `msb w`, `lsb w` -- the number that the bits `w` stand for, first bit highest or lowest;
  * `CodeOf lens s w` -- `w` is the word of the symbol `s`;
  * **`CodeOf.le_of_prefix`** -- a word runs past all words of any shorter length, so that a decoder can
    read it bit by bit and knows from the numbers alone when it is complete;
  * **`exists_codeOf`** -- the inequality of Kraft (`kraftFrom`) leaves every symbol its word;
  * **`CodeOf.getElem?_canonical`** -- where the symbol then stands in the list of symbols, sorted by
    length.
-/
import Mathlib.Tactic

namespace Vyb.Lib

open List Nat

/-! ## 1. Bits as numbers -/

/-- The first bit is the highest. -/
def msb (w : List Bool) : Nat := w.foldl (fun v b => 2 * v + b.toNat) 0

/-- The first bit is the lowest. -/
def lsb : List Bool → Nat
  | [] => 0
  | b :: w => b.toNat + 2 * lsb w

theorem msb_concat (u : List Bool) (b : Bool) : msb (u ++ [b]) = 2 * msb u + b.toNat := by
  rw [msb, foldl_append]
  rfl

theorem msb_append (u v : List Bool) : msb (u ++ v) = msb u * 2 ^ v.length + msb v := by
  induction v using reverseRecOn with
  | nil => simp [msb]
  | append_singleton v b ih =>
    rw [← append_assoc, msb_concat, msb_concat, ih, length_append, length_singleton, pow_succ]
    ring

theorem msb_lt (w : List Bool) : msb w < 2 ^ w.length := by
  induction w using reverseRecOn with
  | nil => simp [msb]
  | append_singleton w b ih =>
    rw [msb_concat, length_append, length_singleton, pow_succ]
    have hb : b.toNat ≤ 1 := Bool.toNat_le b
    omega

theorem lsb_lt (w : List Bool) : lsb w < 2 ^ w.length := by
  induction w with
  | nil => simp [lsb]
  | cons b w ih =>
    rw [lsb, length_cons, pow_succ]
    have hb : b.toNat ≤ 1 := Bool.toNat_le b
    omega

theorem exists_msb : ∀ (ℓ v : Nat), v < 2 ^ ℓ → ∃ w : List Bool, w.length = ℓ ∧ msb w = v
  | 0, v, h => ⟨[], rfl, by simp at h; exact h.symm⟩
  | ℓ + 1, v, h => by
    obtain ⟨u, hu, hv⟩ := exists_msb ℓ (v / 2) (by omega)
    refine ⟨u ++ [v.testBit 0], by simp [hu], ?_⟩
    rw [msb_concat, hv, Nat.toNat_testBit, Nat.pow_zero, Nat.div_one]
    exact div_add_mod v 2

/-! ## 2. The code of a list of lengths -/

section Code

variable (lens : List Nat)

/-- How many words have the length `ℓ`; a symbol of length 0 has no word. -/
def lengthCount (ℓ : Nat) : Nat := if ℓ = 0 then 0 else lens.count ℓ

/-- The first word of length `ℓ`, as a number. -/
def firstCode : Nat → Nat
  | 0 => 0
  | ℓ + 1 => 2 * (firstCode ℓ + lengthCount lens ℓ)

/-- How many words are shorter than `ℓ`. -/
def shorter : Nat → Nat
  | 0 => 0
  | ℓ + 1 => shorter ℓ + lengthCount lens ℓ

/-- `w` is the word of the symbol `s`: it is as far from the first of its length as there are smaller
symbols of that length. -/
structure CodeOf (s : Nat) (w : List Bool) : Prop where
  length : lens[s]? = some w.length
  nonempty : w ≠ []
  value : msb w = firstCode lens w.length + (lens.take s).count w.length

instance decCodeOf (s : Nat) (w : List Bool) : Decidable (CodeOf lens s w) :=
  decidable_of_iff (lens[s]? = some w.length ∧ w ≠ [] ∧
    msb w = firstCode lens w.length + (lens.take s).count w.length)
    ⟨fun h => ⟨h.1, h.2.1, h.2.2⟩, fun h => ⟨h.length, h.nonempty, h.value⟩⟩

/-- The symbols with a word of at most `n` bits, by length and then by number. -/
def canonical (n : Nat) : List Nat := (List.range n).flatMap fun k => lens.idxsOf (k + 1)

variable {lens}

theorem firstCode_mul_le (ℓ : Nat) : ∀ d, (firstCode lens ℓ + lengthCount lens ℓ) * 2 ^ (d + 1) ≤
    firstCode lens (ℓ + (d + 1))
  | 0 => by
    rw [show ℓ + (0 + 1) = ℓ + 1 from rfl, firstCode]
    omega
  | d + 1 => by
    have ih := firstCode_mul_le ℓ d
    rw [show ℓ + (d + 1 + 1) = ℓ + (d + 1) + 1 from rfl, firstCode, pow_succ, ← mul_assoc]
    omega

theorem eq_take_append {s ℓ : Nat} (h : lens[s]? = some ℓ) :
    lens = lens.take s ++ ℓ :: lens.drop (s + 1) := by
  obtain ⟨hs, hget⟩ := List.getElem?_eq_some_iff.mp h
  rw [← hget, ← drop_eq_getElem_cons hs, take_append_drop]

theorem count_take_lt {s ℓ : Nat} (h : lens[s]? = some ℓ) : (lens.take s).count ℓ < lens.count ℓ := by
  have hcount := congrArg (count ℓ) (eq_take_append h)
  rw [count_append, count_cons_self] at hcount
  omega

/-- What the words of the lengths from `ℓ` on take of the `2^n` words of length `n`. -/
def kraftFrom (n ℓ : Nat) (lens : List Nat) : Nat :=
  (lens.map fun k => if k = 0 ∨ k < ℓ then 0 else 2 ^ (n - k)).sum

theorem kraftFrom_succ (n ℓ : Nat) : ∀ lens : List Nat,
    kraftFrom n ℓ lens = lengthCount lens ℓ * 2 ^ (n - ℓ) + kraftFrom n (ℓ + 1) lens
  | [] => by simp [kraftFrom, lengthCount]
  | k :: lens => by
    have ih := kraftFrom_succ n ℓ lens
    simp only [kraftFrom, lengthCount, map_cons, sum_cons, count_cons] at ih ⊢
    rw [ih]
    grind

/-- The words that are shorter than `ℓ` take what the words from `ℓ` on leave. -/
theorem firstCode_add_kraftFrom (n : Nat) : ∀ ℓ ≤ n,
    firstCode lens ℓ * 2 ^ (n - ℓ) + kraftFrom n ℓ lens = kraftFrom n 0 lens
  | 0, _ => by simp [firstCode]
  | ℓ + 1, h => by
    have ih := firstCode_add_kraftFrom n ℓ (by omega)
    have hpow : 2 ^ (n - ℓ) = 2 * 2 ^ (n - (ℓ + 1)) := by
      rw [show n - ℓ = n - (ℓ + 1) + 1 by omega, pow_succ, mul_comm]
    rw [kraftFrom_succ] at ih
    rw [← ih, firstCode, hpow]
    ring

/-- **Lengths that obey the inequality of Kraft** give every symbol its word. -/
theorem exists_codeOf {n s ℓ : Nat} (hkraft : kraftFrom n 0 lens ≤ 2 ^ n) (hn : ℓ ≤ n) (hs : lens[s]? = some ℓ)
    (hℓ : ℓ ≠ 0) : ∃ w, CodeOf lens s w ∧ w.length = ℓ := by
  have hfit : firstCode lens ℓ + lengthCount lens ℓ ≤ 2 ^ ℓ := by
    have hsum := @firstCode_add_kraftFrom lens n ℓ hn
    rw [kraftFrom_succ] at hsum
    have hpow : 2 ^ ℓ * 2 ^ (n - ℓ) = 2 ^ n := by rw [← Nat.pow_add, Nat.add_sub_cancel' hn]
    refine Nat.le_of_mul_le_mul_right ?_ (Nat.two_pow_pos (n - ℓ))
    rw [hpow, add_mul]
    omega
  have hcount := count_take_lt hs
  rw [lengthCount, if_neg hℓ] at hfit
  obtain ⟨w, rfl, hw⟩ := exists_msb ℓ (firstCode lens ℓ + (lens.take s).count ℓ) (by omega)
  exact ⟨w, ⟨hs, ne_nil_of_length_pos (by omega), hw⟩, rfl⟩

namespace CodeOf

variable {s : Nat} {w : List Bool}

theorem lengthCount_eq (h : CodeOf lens s w) : lengthCount lens w.length = lens.count w.length :=
  if_neg (by simpa using h.nonempty)

/-- A word is one of the words of its length. -/
theorem lt_of_value (h : CodeOf lens s w) : msb w < firstCode lens w.length + lengthCount lens w.length := by
  rw [h.value, h.lengthCount_eq]
  exact Nat.add_lt_add_left (count_take_lt h.length) _

theorem firstCode_le (h : CodeOf lens s w) : firstCode lens w.length ≤ msb w := by
  rw [h.value]
  exact Nat.le_add_right _ _

/-- **A word runs past all shorter words.** -/
theorem le_of_prefix {u v : List Bool} (h : CodeOf lens s (u ++ v)) (hv : v ≠ []) :
    firstCode lens u.length + lengthCount lens u.length ≤ msb u := by
  obtain ⟨d, hd⟩ : ∃ d, v.length = d + 1 := ⟨v.length - 1, by
    have := length_pos_iff.mpr hv
    omega⟩
  have hle := h.firstCode_le
  rw [length_append, hd, msb_append, hd] at hle
  have hmul := @firstCode_mul_le lens u.length d
  have hlt : msb v < 2 ^ (d + 1) := hd ▸ msb_lt v
  -- as multiples of the power: the shorter words end at or before the prefix
  have key : (firstCode lens u.length + lengthCount lens u.length) * 2 ^ (d + 1) <
      (msb u + 1) * 2 ^ (d + 1) := by
    rw [succ_mul]
    omega
  exact Nat.lt_succ_iff.mp (Nat.lt_of_mul_lt_mul_right key)

end CodeOf

/-! ## 3. The symbols in the order of their words -/

theorem getElem?_idxsOf {s ℓ : Nat} (h : lens[s]? = some ℓ) :
    (lens.idxsOf ℓ)[(lens.take s).count ℓ]? = some s := by
  have hs : s ≤ lens.length := le_of_lt (List.getElem?_eq_some_iff.mp h).1
  have hidx : lens.idxsOf ℓ = (lens.take s).idxsOf ℓ ++ (ℓ :: lens.drop (s + 1)).idxsOf ℓ s := by
    have hsplit := congrArg (fun l => l.idxsOf ℓ) (eq_take_append h)
    rw [idxsOf_append, length_take_of_le hs, zero_add] at hsplit
    exact hsplit
  rw [hidx, getElem?_append_right (by rw [length_idxsOf]), length_idxsOf, Nat.sub_self,
    idxsOf_cons, if_pos (beq_self_eq_true ℓ)]
  rfl

theorem length_canonical : ∀ n, (canonical lens n).length = shorter lens (n + 1)
  | 0 => rfl
  | n + 1 => by
    have ih := length_canonical n
    have hcount : lengthCount lens (n + 1) = lens.count (n + 1) := if_neg (succ_ne_zero n)
    rw [canonical] at ih ⊢
    rw [range_succ, flatMap_append, length_append, ih, flatMap_singleton,
      length_idxsOf, ← hcount]
    rfl

/-- **Where a symbol stands.** -/
theorem CodeOf.getElem?_canonical {s : Nat} {w : List Bool} {n : Nat} (h : CodeOf lens s w)
    (hn : w.length ≤ n) :
    (canonical lens n)[shorter lens w.length + (msb w - firstCode lens w.length)]? = some s := by
  obtain ⟨k, hk⟩ : ∃ k, w.length = k + 1 := ⟨w.length - 1, by
    have := length_pos_iff.mpr h.nonempty
    omega⟩
  have hget := getElem?_idxsOf h.length
  have hrank := count_take_lt h.length
  have hval := h.value
  rw [hk] at hget hrank hval ⊢
  have hsub : msb w - firstCode lens (k + 1) = (lens.take s).count (k + 1) := by omega
  -- the symbols of the lengths up to `k`, those of length `k + 1`, and the rest
  have hrange : range n = range k ++ k :: range' (k + 1) (n - (k + 1)) := by
    have hcat := @range'_append 0 k (n - k) 1
    rw [one_mul, zero_add, show k + (n - k) = n by omega] at hcat
    rw [range_eq_range', range_eq_range', ← hcat, show n - k = (n - (k + 1)) + 1 by omega,
      range'_succ]
  have hlen : (canonical lens k).length = shorter lens (k + 1) := length_canonical k
  rw [canonical] at hlen ⊢
  rw [hsub, hrange, flatMap_append, flatMap_cons,
    getElem?_append_right (by rw [hlen]; exact Nat.le_add_right _ _), hlen, Nat.add_sub_cancel_left,
    getElem?_append_left (by rw [length_idxsOf]; exact hrank)]
  exact hget

end Code

end Vyb.Lib
