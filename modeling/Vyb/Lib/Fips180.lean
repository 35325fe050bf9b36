/-
  Subject:   The Secure Hash Standard (FIPS 180-4): SHA-1 and SHA-256 of a string of bits.

  The definitions follow the sections of the standard: messages are strings of bits, words are 32 bits wide,
  and the constants of SHA-256 are what they are said to be, digits of the roots of the first primes.

  * `bitsOfNat`, `natOfBits`, `bitsOf` -- numbers and bytes as strings of bits, the highest bit first;
  * `pad` -- section 5.1.1. **`pad_bitsOf`**: for a message of whole bytes the padding is in whole bytes;
  * `nth_prime_table` -- the primes that the constants of SHA-256 come from;
  * `hashValue` -- section 6: the blocks of the padded message go through a compression function in turn;
  * `sha256`, `sha1` -- sections 6.2 and 6.1.
-/
import Mathlib.Analysis.SpecialFunctions.Pow.NthRootLemmas
import Mathlib.Data.Nat.Prime.Nth
import Mathlib.Tactic

namespace Vyb.Lib.Fips180

open List

/-! ## 1. Strings of bits -/

/-- The number `n` in `w` bits. -/
def bitsOfNat (w n : Nat) : List Bool := (List.range w).map fun i => n.testBit (w - 1 - i)

/-- The number that a string of bits stands for. -/
def natOfBits (bs : List Bool) : Nat := bs.foldl (fun n b => 2 * n + b.toNat) 0

/-- A string of bytes as a string of bits. -/
def bitsOf (bytes : List UInt8) : List Bool := bytes.flatMap fun b => bitsOfNat 8 b.toNat

/-- The number `n` in `w` bytes. -/
def bytesOfNat (w n : Nat) : List UInt8 := (List.range w).map fun i => UInt8.ofNat (n / 256 ^ (w - 1 - i))

variable (w n : Nat)

@[simp] theorem length_bitsOfNat : (bitsOfNat w n).length = w := by simp [bitsOfNat]

@[simp] theorem length_bytesOfNat : (bytesOfNat w n).length = w := by simp [bytesOfNat]

@[simp] theorem bitsOf_nil : bitsOf [] = [] := rfl

@[simp] theorem bitsOf_cons (b : UInt8) (bs : List UInt8) :
    bitsOf (b :: bs) = bitsOfNat 8 b.toNat ++ bitsOf bs := rfl

@[simp] theorem bitsOf_append (bs cs : List UInt8) : bitsOf (bs ++ cs) = bitsOf bs ++ bitsOf cs :=
  flatMap_append

@[simp] theorem length_bitsOf : ∀ bs : List UInt8, (bitsOf bs).length = 8 * bs.length
  | [] => rfl
  | b :: bs => by
    rw [bitsOf_cons, length_append, length_bitsOf bs, length_bitsOfNat, length_cons]
    omega

theorem bitsOfNat_add (u v n : Nat) : bitsOfNat (u + v) n = bitsOfNat u (n / 2 ^ v) ++ bitsOfNat v n := by
  simp only [bitsOfNat, range_add, map_append, map_map]
  congr 1
  · refine map_congr_left fun i hi => ?_
    have hi : i < u := mem_range.mp hi
    rw [Nat.testBit_div_two_pow, show u - 1 - i + v = u + v - 1 - i by omega]
  · refine map_congr_left fun i hi => ?_
    rw [Function.comp_apply, show u + v - 1 - (u + i) = v - 1 - i by omega]

theorem bitsOfNat_mod : bitsOfNat w (n % 2 ^ w) = bitsOfNat w n := by
  refine map_congr_left fun i hi => ?_
  have hi : i < w := mem_range.mp hi
  rw [Nat.testBit_mod_two_pow, decide_eq_true (by omega), Bool.true_and]

theorem foldl_bits : ∀ (bs : List Bool) (a : Nat),
    bs.foldl (fun n b => 2 * n + b.toNat) a = a * 2 ^ bs.length + natOfBits bs
  | [], a => by simp [natOfBits]
  | b :: bs, a => by
    have h0 := foldl_bits bs (2 * 0 + b.toNat)
    have ha := foldl_bits bs (2 * a + b.toNat)
    simp only [natOfBits, foldl_cons, length_cons] at h0 ha ⊢
    rw [ha, h0]
    ring

theorem natOfBits_append (bs cs : List Bool) :
    natOfBits (bs ++ cs) = natOfBits bs * 2 ^ cs.length + natOfBits cs :=
  (foldl_append).trans (foldl_bits cs (natOfBits bs))

/-- **Writing a number and reading it again.** -/
theorem natOfBits_bitsOfNat : ∀ w n : Nat, natOfBits (bitsOfNat w n) = n % 2 ^ w
  | 0, n => by simp [bitsOfNat, natOfBits, Nat.mod_one]
  | w + 1, n => by
    have hlast : natOfBits (bitsOfNat 1 n) = n % 2 := by
      simp only [bitsOfNat, natOfBits, range_one, map_cons, map_nil, foldl_cons,
        foldl_nil]
      rcases Nat.mod_two_eq_zero_or_one n with h | h <;> simp [h]
    rw [bitsOfNat_add, natOfBits_append, natOfBits_bitsOfNat w, hlast, length_bitsOfNat, pow_one,
      Nat.pow_succ, Nat.mul_comm (2 ^ w) 2, Nat.mod_mul]
    omega

theorem natOfBits_byte (b : UInt8) : natOfBits (bitsOfNat 8 b.toNat) = b.toNat := by
  rw [natOfBits_bitsOfNat, Nat.mod_eq_of_lt b.toNat_lt]

theorem bitsOf_bytesOfNat : ∀ w n : Nat, bitsOf (bytesOfNat w n) = bitsOfNat (8 * w) n
  | 0, _ => rfl
  | w + 1, n => by
    have hbytes : bytesOfNat (w + 1) n = bytesOfNat w (n / 256) ++ [UInt8.ofNat n] := by
      simp only [bytesOfNat, range_succ, map_append, map_cons, map_nil]
      congr 1
      · refine map_congr_left fun i hi => ?_
        have hi : i < w := mem_range.mp hi
        rw [Nat.div_div_eq_div_mul, show w + 1 - 1 - i = w - 1 - i + 1 by omega, pow_succ']
      · simp
    have hlast : bitsOfNat 8 (UInt8.ofNat n).toNat = bitsOfNat 8 n := by
      rw [UInt8.toNat_ofNat', bitsOfNat_mod]
    rw [hbytes, bitsOf_append, bitsOf_bytesOfNat w, bitsOf_cons, bitsOf_nil, append_nil, hlast,
      show 8 * (w + 1) = 8 * w + 8 by omega, bitsOfNat_add, show 2 ^ 8 = 256 by rfl]

theorem drop_bitsOf : ∀ (bs : List UInt8) (k : Nat), (bitsOf bs).drop (8 * k) = bitsOf (bs.drop k)
  | bs, 0 => rfl
  | [], k + 1 => by simp
  | b :: bs, k + 1 => by
    rw [bitsOf_cons, drop_append, length_bitsOfNat, drop_eq_nil_of_le (by simp),
      nil_append, show 8 * (k + 1) - 8 = 8 * k by omega, drop_bitsOf bs k, drop_succ_cons]

theorem take_bitsOf : ∀ (bs : List UInt8) (k : Nat), (bitsOf bs).take (8 * k) = bitsOf (bs.take k)
  | bs, 0 => rfl
  | [], k + 1 => by simp
  | b :: bs, k + 1 => by
    rw [bitsOf_cons, take_append, length_bitsOfNat, take_of_length_le (by simp),
      show 8 * (k + 1) - 8 = 8 * k by omega, take_bitsOf bs k, take_succ_cons, bitsOf_cons]

/-! ## 2. Padding -/

/-- The least `k` with `l + 1 + k ≡ 448 (mod 512)`. -/
noncomputable def zeroBits (l : Nat) : Nat := sInf {k | (l + 1 + k) % 512 = 448}

/-- Section 5.1.1: a 1, `zeroBits` zeros, and the length in 64 bits. -/
noncomputable def pad (M : List Bool) : List Bool :=
  M ++ true :: (List.replicate (zeroBits M.length) false ++ bitsOfNat 64 M.length)

/-- The message `data`, a byte `0x80`, `z` zero bytes, and the bit length in eight bytes. -/
def paddedBytes (data : List UInt8) (z : Nat) : List UInt8 :=
  data ++ 0x80 :: (List.replicate z 0 ++ bytesOfNat 8 (8 * data.length))

/-- `z` is the least number of zero bytes that fill up the last block behind `n` bytes. -/
abbrev LeastZeros (n z : Nat) : Prop := IsLeast {z | 64 ∣ n + 1 + z + 8} z

theorem bitsOf_replicate_zero : ∀ z : Nat, bitsOf (List.replicate z 0) = List.replicate (8 * z) false
  | 0 => rfl
  | z + 1 => by
    rw [replicate_succ, bitsOf_cons, bitsOf_replicate_zero z, show 8 * (z + 1) = 8 + 8 * z by omega,
      replicate_add]
    rfl

theorem zeroBits_of_bytes {n z : Nat} (hz : LeastZeros n z) : zeroBits (8 * n) = 7 + 8 * z := by
  have hmem : 7 + 8 * z ∈ {k | (8 * n + 1 + k) % 512 = 448} := by
    have h : 64 ∣ n + 1 + z + 8 := hz.1
    show (8 * n + 1 + (7 + 8 * z)) % 512 = 448
    omega
  refine le_antisymm (Nat.sInf_le hmem) ?_
  have hinf : (8 * n + 1 + zeroBits (8 * n)) % 512 = 448 := Nat.sInf_mem ⟨_, hmem⟩
  have hle : z ≤ (zeroBits (8 * n) - 7) / 8 := hz.2 (by
    show 64 ∣ n + 1 + (zeroBits (8 * n) - 7) / 8 + 8
    omega)
  omega

/-- **The padding of whole bytes.** -/
theorem pad_bitsOf {data : List UInt8} {z : Nat} (hz : LeastZeros data.length z) :
    pad (bitsOf data) = bitsOf (paddedBytes data z) := by
  have hmark : bitsOfNat 8 (0x80 : UInt8).toNat = true :: List.replicate 7 false := by decide
  rw [pad, length_bitsOf, zeroBits_of_bytes hz, paddedBytes, bitsOf_append, bitsOf_cons, hmark, bitsOf_append,
    bitsOf_replicate_zero, bitsOf_bytesOfNat, replicate_add]
  simp only [cons_append, append_assoc]

/-! ## 3. Blocks -/

abbrev Word := BitVec 32

/-- Section 5.2.1: the word `j` of block `i`. -/
def blockWord (bits : List Bool) (i j : Nat) : Word :=
  BitVec.ofNat 32 (natOfBits ((bits.drop (512 * i + 32 * j)).take 32))

/-- The hash value behind `N` blocks: `compress` takes the words of a block and the value before it. -/
def hashValue {S : Type} (compress : (Nat → Word) → S → S) (init : S) (bits : List Bool) : Nat → S
  | 0 => init
  | i + 1 => compress (blockWord bits i) (hashValue compress init bits i)

theorem blockWord_bitsOf {m : List UInt8} {i j : Nat} {b₀ b₁ b₂ b₃ : UInt8}
    (h : (m.drop (64 * i + 4 * j)).take 4 = [b₀, b₁, b₂, b₃]) :
    blockWord (bitsOf m) i j =
      BitVec.ofNat 32 (((b₀.toNat * 256 + b₁.toNat) * 256 + b₂.toNat) * 256 + b₃.toNat) := by
  have hbits : ((bitsOf m).drop (512 * i + 32 * j)).take 32 = bitsOf [b₀, b₁, b₂, b₃] := by
    rw [show 512 * i + 32 * j = 8 * (64 * i + 4 * j) by omega, drop_bitsOf, show 32 = 8 * 4 by rfl,
      take_bitsOf, h]
  refine congrArg (BitVec.ofNat 32) ?_
  rw [hbits]
  simp only [bitsOf_cons, bitsOf_nil, append_nil, natOfBits_append, length_append,
    length_bitsOfNat, natOfBits_byte]
  ring

/-! ## 4. SHA-256 -/

/-- Eight words, as the hash value and as the working variables of SHA-256. -/
structure Eight (α : Type) where
  (a b c d e f g h : α)
deriving DecidableEq, Repr

namespace Eight

def map {α β : Type} (φ : α → β) (v : Eight α) : Eight β :=
  ⟨φ v.a, φ v.b, φ v.c, φ v.d, φ v.e, φ v.f, φ v.g, φ v.h⟩

def add {α : Type} [Add α] (v w : Eight α) : Eight α :=
  ⟨v.a + w.a, v.b + w.b, v.c + w.c, v.d + w.d, v.e + w.e, v.f + w.f, v.g + w.g, v.h + w.h⟩

def toList {α : Type} (v : Eight α) : List α := [v.a, v.b, v.c, v.d, v.e, v.f, v.g, v.h]

end Eight

def rotr (n : Nat) (x : Word) : Word := (x >>> n) ||| (x <<< (32 - n))

def rotl (n : Nat) (x : Word) : Word := (x <<< n) ||| (x >>> (32 - n))

def shr (n : Nat) (x : Word) : Word := x >>> n

def Ch (x y z : Word) : Word := (x &&& y) ^^^ (~~~x &&& z)

def Maj (x y z : Word) : Word := (x &&& y) ^^^ (x &&& z) ^^^ (y &&& z)

def Parity (x y z : Word) : Word := x ^^^ y ^^^ z

def bigSigma0 (x : Word) : Word := rotr 2 x ^^^ rotr 13 x ^^^ rotr 22 x

def bigSigma1 (x : Word) : Word := rotr 6 x ^^^ rotr 11 x ^^^ rotr 25 x

def smallSigma0 (x : Word) : Word := rotr 7 x ^^^ rotr 18 x ^^^ shr 3 x

def smallSigma1 (x : Word) : Word := rotr 17 x ^^^ rotr 19 x ^^^ shr 10 x

/-- The first 32 bits of the fractional part of the cube root of `p`. -/
def cubeRootBits (p : Nat) : Word := BitVec.ofNat 32 (Nat.nthRoot 3 (p * 2 ^ 96))

/-- The first 32 bits of the fractional part of the square root of `p`. -/
def squareRootBits (p : Nat) : Word := BitVec.ofNat 32 (Nat.sqrt (p * 2 ^ 64))

/-- Section 4.2.2: the cube roots of the first 64 primes. -/
noncomputable def K256 (t : Nat) : Word := cubeRootBits (Nat.nth Nat.Prime t)

/-- Section 5.3.3: the square roots of the first eight primes. -/
noncomputable def init256 : Eight Word :=
  (Eight.mk 0 1 2 3 4 5 6 7).map fun t => squareRootBits (Nat.nth Nat.Prime t)

/-- Trial division by the primes below 18. -/
def isSmallPrime (n : Nat) : Bool := 2 ≤ n && [2, 3, 5, 7, 11, 13, 17].all fun m => n == m || n % m != 0

theorem isSmallPrime_iff {n : Nat} (h : n < 324) : isSmallPrime n = true ↔ n.Prime := by
  simp only [isSmallPrime, Bool.and_eq_true, decide_eq_true_eq, all_eq_true, Bool.or_eq_true, beq_iff_eq,
    bne_iff_ne, ne_eq, ← Nat.dvd_iff_mod_eq_zero]
  constructor
  · rintro ⟨h2, hdiv⟩
    by_contra hn
    have hprime : n.minFac.Prime := Nat.minFac_prime (by omega)
    have hsq : n.minFac ^ 2 ≤ n := Nat.minFac_sq_le_self (by omega) hn
    have hlt : n.minFac < 18 := by nlinarith
    have hmem : n.minFac ∈ [2, 3, 5, 7, 11, 13, 17] := by
      generalize n.minFac = q at hprime hlt
      interval_cases q <;> first | decide | exact absurd hprime (by norm_num)
    rcases hdiv _ hmem with h | h
    · exact hn (h ▸ hprime)
    · exact h n.minFac_dvd
  · intro hp
    refine ⟨hp.two_le, fun m hm => ?_⟩
    by_cases hdvd : m ∣ n
    · rcases (Nat.dvd_prime hp).mp hdvd with h | h
      · subst h
        simp at hm
      · exact .inl h.symm
    · exact .inr hdvd

theorem nth_prime {n t : Nat} (h : n < 324) (hp : isSmallPrime n = true)
    (ht : (List.range n).countP isSmallPrime = t) : Nat.nth Nat.Prime t = n := by
  have hcount : Nat.count Nat.Prime n = t := by
    rw [← ht, Nat.count]
    refine countP_congr fun k hk => ?_
    rw [isSmallPrime_iff ((mem_range.mp hk).trans h)]
    simp
  rw [← hcount]
  exact Nat.nth_count ((isSmallPrime_iff h).mp hp)

/-- The first 64 primes. -/
def primes64 : List Nat :=
  [2, 3, 5, 7, 11, 13, 17, 19, 23, 29, 31, 37, 41, 43, 47, 53,
   59, 61, 67, 71, 73, 79, 83, 89, 97, 101, 103, 107, 109, 113, 127, 131,
   137, 139, 149, 151, 157, 163, 167, 173, 179, 181, 191, 193, 197, 199, 211, 223,
   227, 229, 233, 239, 241, 251, 257, 263, 269, 271, 277, 281, 283, 293, 307, 311]

theorem nth_prime_table {t : Nat} (ht : t < 64) : Nat.nth Nat.Prime t = primes64.getD t 0 := by
  have htable : ∀ t : Fin 64, primes64.getD t 0 < 324 ∧ isSmallPrime (primes64.getD t 0) = true ∧
      (List.range (primes64.getD t 0)).countP isSmallPrime = t := by decide +kernel
  obtain ⟨hlt, hprime, hcount⟩ := htable ⟨t, ht⟩
  exact nth_prime hlt hprime hcount

/-- The message schedule. -/
def schedule256 (M : Nat → Word) (t : Nat) : Word :=
  if t < 16 then M t
  else smallSigma1 (schedule256 M (t - 2)) + schedule256 M (t - 7) + smallSigma0 (schedule256 M (t - 15)) +
    schedule256 M (t - 16)

noncomputable def step256 (M : Nat → Word) (v : Eight Word) (t : Nat) : Eight Word :=
  let T₁ := v.h + bigSigma1 v.e + Ch v.e v.f v.g + K256 t + schedule256 M t
  let T₂ := bigSigma0 v.a + Maj v.a v.b v.c
  ⟨T₁ + T₂, v.a, v.b, v.c, v.d + T₁, v.e, v.f, v.g⟩

noncomputable def compress256 (M : Nat → Word) (H : Eight Word) : Eight Word :=
  ((List.range 64).foldl (step256 M) H).add H

/-- **Section 6.2.** -/
noncomputable def sha256 (M : List Bool) : List Bool :=
  (hashValue compress256 init256 (pad M) ((pad M).length / 512)).toList.flatMap fun w => bitsOfNat 32 w.toNat

/-! ## 5. SHA-1 -/

/-- Five words, as the hash value and as the working variables of SHA-1. -/
structure Five (α : Type) where
  (a b c d e : α)
deriving DecidableEq, Repr

namespace Five

def map {α β : Type} (φ : α → β) (v : Five α) : Five β := ⟨φ v.a, φ v.b, φ v.c, φ v.d, φ v.e⟩

def add {α : Type} [Add α] (v w : Five α) : Five α := ⟨v.a + w.a, v.b + w.b, v.c + w.c, v.d + w.d, v.e + w.e⟩

def toList {α : Type} (v : Five α) : List α := [v.a, v.b, v.c, v.d, v.e]

end Five

/-- Section 4.1.1. -/
def f1 (t : Nat) (x y z : Word) : Word :=
  if t < 20 then Ch x y z else if t < 40 then Parity x y z else if t < 60 then Maj x y z else Parity x y z

/-- Section 4.2.1. -/
def K1 (t : Nat) : Word :=
  if t < 20 then 0x5a827999 else if t < 40 then 0x6ed9eba1 else if t < 60 then 0x8f1bbcdc else 0xca62c1d6

/-- Section 5.3.1. -/
def init1 : Five Word := ⟨0x67452301, 0xefcdab89, 0x98badcfe, 0x10325476, 0xc3d2e1f0⟩

def schedule1 (M : Nat → Word) (t : Nat) : Word :=
  if t < 16 then M t
  else rotl 1 (schedule1 M (t - 3) ^^^ schedule1 M (t - 8) ^^^ schedule1 M (t - 14) ^^^ schedule1 M (t - 16))

def step1 (M : Nat → Word) (v : Five Word) (t : Nat) : Five Word :=
  let T := rotl 5 v.a + f1 t v.b v.c v.d + v.e + K1 t + schedule1 M t
  ⟨T, v.a, rotl 30 v.b, v.c, v.d⟩

def compress1 (M : Nat → Word) (H : Five Word) : Five Word := ((List.range 80).foldl (step1 M) H).add H

/-- **Section 6.1.** -/
noncomputable def sha1 (M : List Bool) : List Bool :=
  (hashValue compress1 init1 (pad M) ((pad M).length / 512)).toList.flatMap fun w => bitsOfNat 32 w.toNat

end Vyb.Lib.Fips180
