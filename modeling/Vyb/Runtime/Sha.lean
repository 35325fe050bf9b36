/-
  Subject:   The hashes of the runtime: `vyb_sha256`, `vyb_sha1` and `__vyb_sha256_hex`.

  Both functions copy the message into a buffer of their own, pad it there, and go through the buffer in
  blocks of 64 bytes. What `malloc` returns may hold anything.

  * `sha256Message`, `sha1Message` -- the buffer before its blocks are read. **`sha256Message_eq`** and
    **`sha1Message_eq`**: it is the padded message of the standard;
  * `block256_eq`, `block1_eq` -- one round of the block loop is the compression function of the standard;
  * **`digests_fips`** -- for every message shorter than `2 ^ 61` bytes the two functions return its
    FIPS 180-4 digests.
-/
import Vyb.Lib.Buffer
import Vyb.Lib.Fips180
import Vyb.Lib.Loop
import Vyb.Runtime.Str

namespace Vyb.Runtime

open Lib List Nat
open Vyb.Lib.Fips180 (Eight Five Word bitsOf bitsOfNat paddedBytes LeastZeros blockWord hashValue)

/-! ## 1. The program -/

/-- The C heap: what a request for `n` bytes gets. -/
structure Allocator where
  malloc : Nat → Option (List UInt8)
  calloc : Nat → Option (List UInt8)
  malloc_length : ∀ {n m}, malloc n = some m → m.length = n
  calloc_zero : ∀ {n m}, calloc n = some m → m = List.replicate n 0

/-- `((uint32_t)p[0] << 24) | ((uint32_t)p[1] << 16) | ((uint32_t)p[2] << 8) | (uint32_t)p[3]`. -/
def loadWord (m : List UInt8) (k : Nat) : UInt32 :=
  (m.getD k 0).toUInt32 <<< 24 ||| (m.getD (k + 1) 0).toUInt32 <<< 16 ||| (m.getD (k + 2) 0).toUInt32 <<< 8 |||
    (m.getD (k + 3) 0).toUInt32

/-- `out[i*4] = (unsigned char)(h[i] >> 24); …`. -/
def storeWord (x : UInt32) : List UInt8 :=
  [(x >>> 24).toUInt8, (x >>> 16).toUInt8, (x >>> 8).toUInt8, x.toUInt8]

/-- `vyb_ror32`. -/
def ror32 (x n : UInt32) : UInt32 := (x >>> n) ||| (x <<< (32 - n))

/-- The table `K` of `vyb_sha256`. -/
def shaK : List UInt32 :=
  [0x428a2f98, 0x71374491, 0xb5c0fbcf, 0xe9b5dba5, 0x3956c25b, 0x59f111f1, 0x923f82a4, 0xab1c5ed5,
   0xd807aa98, 0x12835b01, 0x243185be, 0x550c7dc3, 0x72be5d74, 0x80deb1fe, 0x9bdc06a7, 0xc19bf174,
   0xe49b69c1, 0xefbe4786, 0x0fc19dc6, 0x240ca1cc, 0x2de92c6f, 0x4a7484aa, 0x5cb0a9dc, 0x76f988da,
   0x983e5152, 0xa831c66d, 0xb00327c8, 0xbf597fc7, 0xc6e00bf3, 0xd5a79147, 0x06ca6351, 0x14292967,
   0x27b70a85, 0x2e1b2138, 0x4d2c6dfc, 0x53380d13, 0x650a7354, 0x766a0abb, 0x81c2c92e, 0x92722c85,
   0xa2bfe8a1, 0xa81a664b, 0xc24b8b70, 0xc76c51a3, 0xd192e819, 0xd6990624, 0xf40e3585, 0x106aa070,
   0x19a4c116, 0x1e376c08, 0x2748774c, 0x34b0bcb5, 0x391c0cb3, 0x4ed8aa4a, 0x5b9cca4f, 0x682e6ff3,
   0x748f82ee, 0x78a5636f, 0x84c87814, 0x8cc70208, 0x90befffa, 0xa4506ceb, 0xbef9a3f7, 0xc67178f2]

def sha256Init : Eight UInt32 :=
  ⟨0x6a09e667, 0xbb67ae85, 0x3c6ef372, 0xa54ff53a, 0x510e527f, 0x9b05688c, 0x1f83d9ab, 0x5be0cd19⟩

/-- `padded_len`. -/
def sha256PaddedLen (len : Nat) : Nat := ((len + 8) / 64 + 1) * 64

/-- The buffer `m` once the message and its padding are in it. -/
def sha256Message (m data : List UInt8) : List UInt8 :=
  let len := data.length
  let bitlen := UInt64.ofNat len * 8
  let paddedLen := sha256PaddedLen len
  let m := copyInto m 0 data
  let m := m.set len 0x80
  let m := writeUp m (len + 1) (fun _ => 0) (paddedLen - 8 - (len + 1))
  writeDown m paddedLen (fun i => (bitlen >>> UInt64.ofNat (8 * i)).toUInt8) 8

/-- The first sixteen words of a block. -/
def blockWords (m : List UInt8) (blk : Nat) : List UInt32 :=
  (List.range 16).map fun i => loadWord m (blk + i * 4)

/-- `for (i = 16; i < 16 + n; ++i) w[i] = next(w, i)`: the array as far as it is written. -/
def extendWords (next : List UInt32 → Nat → UInt32) (w : List UInt32) (n : Nat) : List UInt32 :=
  (List.range' 16 n).foldl (fun w i => w ++ [next w i]) w

/-- `w[i]` of SHA-256, from the words before it. -/
def next256 (w : List UInt32) (i : Nat) : UInt32 :=
  let s0 := ror32 (w.getD (i - 15) 0) 7 ^^^ ror32 (w.getD (i - 15) 0) 18 ^^^ (w.getD (i - 15) 0 >>> 3)
  let s1 := ror32 (w.getD (i - 2) 0) 17 ^^^ ror32 (w.getD (i - 2) 0) 19 ^^^ (w.getD (i - 2) 0 >>> 10)
  w.getD (i - 16) 0 + s0 + w.getD (i - 7) 0 + s1

/-- The array `w[64]`. -/
def words256 (m : List UInt8) (blk : Nat) : List UInt32 := extendWords next256 (blockWords m blk) 48

def round256 (w : List UInt32) (v : Eight UInt32) (i : Nat) : Eight UInt32 :=
  let S1 := ror32 v.e 6 ^^^ ror32 v.e 11 ^^^ ror32 v.e 25
  let ch := (v.e &&& v.f) ^^^ (~~~v.e &&& v.g)
  let t1 := v.h + S1 + ch + shaK.getD i 0 + w.getD i 0
  let S0 := ror32 v.a 2 ^^^ ror32 v.a 13 ^^^ ror32 v.a 22
  let maj := (v.a &&& v.b) ^^^ (v.a &&& v.c) ^^^ (v.b &&& v.c)
  let t2 := S0 + maj
  ⟨t1 + t2, v.a, v.b, v.c, v.d + t1, v.e, v.f, v.g⟩

/-- The body of the loop over `blk`. -/
def block256 (m : List UInt8) (h : Eight UInt32) (blk : Nat) : Eight UInt32 :=
  h.add ((List.range 64).foldl (round256 (words256 m blk)) h)

/-- `for (blk = 0; blk < padded_len; blk += 64)`. -/
def blocks256 (m : List UInt8) (paddedLen : Nat) : Eight UInt32 :=
  (List.range' 0 ((paddedLen + 63) / 64) 64).foldl (block256 m) sha256Init

/-- **`vyb_sha256`**: what `out` holds afterwards. -/
def sha256 (A : Allocator) (data out : List UInt8) : List UInt8 :=
  match A.malloc (sha256PaddedLen data.length) with
  | none => out
  | some m => (blocks256 (sha256Message m data) (sha256PaddedLen data.length)).toList.flatMap storeWord

def sha1Init : Five UInt32 := ⟨0x67452301, 0xEFCDAB89, 0x98BADCFE, 0x10325476, 0xC3D2E1F0⟩

/-- `while ((msg_len % 64) != 56) msg_len++;`. -/
def fillUp (msgLen : Nat) : Nat := if msgLen % 64 ≠ 56 then fillUp (msgLen + 1) else msgLen
termination_by (120 - msgLen % 64) % 64
decreasing_by omega

/-- The buffer `m` of `vyb_sha1`. -/
def sha1Message (m data : List UInt8) : List UInt8 :=
  let len := data.length
  let bits := UInt64.ofNat len * 8
  let msgLen := fillUp (len + 1)
  let m := copyInto m 0 data
  let m := m.set len 0x80
  writeUp m msgLen (fun i => (bits >>> UInt64.ofNat (56 - i * 8)).toUInt8) 8

/-- `w[i]` of SHA-1. -/
def next1 (w : List UInt32) (i : Nat) : UInt32 :=
  let x := w.getD (i - 3) 0 ^^^ w.getD (i - 8) 0 ^^^ w.getD (i - 14) 0 ^^^ w.getD (i - 16) 0
  (x <<< 1) ||| (x >>> 31)

/-- The array `w[80]`. -/
def words1 (m : List UInt8) (blk : Nat) : List UInt32 := extendWords next1 (blockWords m blk) 64

/-- The function and the constant of round `i`. -/
def sha1Select (bb c d : UInt32) (i : Nat) : UInt32 × UInt32 :=
  if i < 20 then ((bb &&& c) ||| (~~~bb &&& d), 0x5A827999)
  else if i < 40 then (bb ^^^ c ^^^ d, 0x6ED9EBA1)
  else if i < 60 then ((bb &&& c) ||| (bb &&& d) ||| (c &&& d), 0x8F1BBCDC)
  else (bb ^^^ c ^^^ d, 0xCA62C1D6)

def round1 (w : List UInt32) (v : Five UInt32) (i : Nat) : Five UInt32 :=
  let (f, k) := sha1Select v.b v.c v.d i
  let tmp := ((v.a <<< 5) ||| (v.a >>> 27)) + f + v.e + k + w.getD i 0
  ⟨tmp, v.a, (v.b <<< 30) ||| (v.b >>> 2), v.c, v.d⟩

def block1 (m : List UInt8) (h : Five UInt32) (b : Nat) : Five UInt32 :=
  h.add ((List.range 80).foldl (round1 (words1 m (b * 64))) h)

/-- **`vyb_sha1`**: without memory the digest is all zero. -/
def sha1 (A : Allocator) (data : List UInt8) : List UInt8 :=
  let msgLen := fillUp (data.length + 1)
  match A.calloc (msgLen + 8) with
  | none => List.replicate 20 0
  | some m =>
    ((List.range ((msgLen + 8) / 64)).foldl (block1 (sha1Message m data)) sha1Init).toList.flatMap storeWord

def hexDigits : Str := Str.ascii "0123456789abcdef"

def hexPair (d : UInt8) : Str := [hexDigits.getD (d >>> 4).toNat 0, hexDigits.getD (d &&& 0x0f).toNat 0]

/-- **`__vyb_sha256_hex`**; `digest` is what its local array holds before the call. -/
def sha256Hex (A : Allocator) (data digest : List UInt8) : Option Str :=
  (A.malloc 65).map fun _ => (sha256 A data digest).flatMap hexPair

/-! ## 2. Words -/

theorem or_eq_add {k a b : Nat} (hb : b < 2 ^ k) : 2 ^ k * a ||| b = 2 ^ k * a + b :=
  (two_pow_add_eq_or_of_lt hb a).symm

theorem toNat_join (b₀ b₁ b₂ b₃ : UInt8) :
    (b₀.toUInt32 <<< 24 ||| b₁.toUInt32 <<< 16 ||| b₂.toUInt32 <<< 8 ||| b₃.toUInt32).toNat =
      ((b₀.toNat * 256 + b₁.toNat) * 256 + b₂.toNat) * 256 + b₃.toNat := by
  have h₀ : b₀.toNat < 2 ^ 8 := b₀.toNat_lt
  have h₁ : b₁.toNat < 2 ^ 8 := b₁.toNat_lt
  have h₂ : b₂.toNat < 2 ^ 8 := b₂.toNat_lt
  have h₃ : b₃.toNat < 2 ^ 8 := b₃.toNat_lt
  have e₀ : (b₀.toUInt32 <<< 24).toNat = 2 ^ 24 * b₀.toNat := by
    simp [shiftLeft_eq]
    omega
  have e₁ : (b₁.toUInt32 <<< 16).toNat = 2 ^ 16 * b₁.toNat := by
    simp [shiftLeft_eq]
    omega
  have e₂ : (b₂.toUInt32 <<< 8).toNat = 2 ^ 8 * b₂.toNat := by
    simp [shiftLeft_eq]
    omega
  have e₃ : b₃.toUInt32.toNat = b₃.toNat := by simp
  rw [UInt32.toNat_or, UInt32.toNat_or, UInt32.toNat_or, e₀, e₁, e₂, e₃, or_eq_add (by omega),
    show 2 ^ 24 * b₀.toNat + 2 ^ 16 * b₁.toNat = 2 ^ 16 * (2 ^ 8 * b₀.toNat + b₁.toNat) by ring,
    or_eq_add (by omega),
    show 2 ^ 16 * (2 ^ 8 * b₀.toNat + b₁.toNat) + 2 ^ 8 * b₂.toNat =
      2 ^ 8 * (2 ^ 8 * (2 ^ 8 * b₀.toNat + b₁.toNat) + b₂.toNat) by ring, or_eq_add (by omega)]
  ring

variable {m : List UInt8}

theorem take_four {k : Nat} (h : k + 4 ≤ m.length) :
    (m.drop k).take 4 = [m.getD k 0, m.getD (k + 1) 0, m.getD (k + 2) 0, m.getD (k + 3) 0] := by
  rw [drop_eq_getElem_cons (by omega), drop_eq_getElem_cons (by omega),
    drop_eq_getElem_cons (by omega), drop_eq_getElem_cons (by omega)]
  have hget : ∀ j, (hj : j < m.length) → m.getD j 0 = m[j] := fun j hj => getD_eq_getElem m 0 hj
  rw [hget k (by omega), hget (k + 1) (by omega), hget (k + 2) (by omega), hget (k + 3) (by omega)]
  rfl

variable {i : Nat}

/-- **A word that is loaded is a word of the block.** -/
theorem loadWord_eq {j : Nat} (h : 64 * i + 4 * j + 4 ≤ m.length) :
    (loadWord m (64 * i + 4 * j)).toBitVec = blockWord (bitsOf m) i j := by
  have hword : ∀ x : UInt32, BitVec.ofNat 32 x.toNat = x.toBitVec := fun x => by simp
  rw [Fips180.blockWord_bitsOf (take_four h), ← toNat_join, hword]
  rfl

theorem storeWord_eq (x : UInt32) : storeWord x = Fips180.bytesOfNat 4 x.toNat := by
  simp only [storeWord, Fips180.bytesOfNat, range, range.loop, map_cons, map_nil, cons.injEq, and_true]
  refine ⟨?_, ?_, ?_, ?_⟩ <;> rw [← UInt8.toNat_inj] <;> simp [shiftRight_eq_div_pow]

theorem bitsOf_storeWord (x : UInt32) : bitsOf (storeWord x) = bitsOfNat 32 x.toNat := by
  rw [storeWord_eq, Fips180.bitsOf_bytesOfNat]

/-! ## 3. The message schedule -/

/-- **An array that is written from its own entries.** -/
theorem extendWords_spec {next : List UInt32 → Nat → UInt32} {W : Nat → Word} {w : List UInt32}
    (hlen : w.length = 16) (hfirst : ∀ t < 16, (w.getD t 0).toBitVec = W t)
    (hnext : ∀ (w : List UInt32) (i : Nat), 16 ≤ i → (∀ t < i, (w.getD t 0).toBitVec = W t) →
      (next w i).toBitVec = W i) :
    ∀ n, (extendWords next w n).length = 16 + n ∧
      ∀ t < 16 + n, ((extendWords next w n).getD t 0).toBitVec = W t
  | 0 => ⟨hlen, hfirst⟩
  | n + 1 => by
    obtain ⟨ihlen, ih⟩ := extendWords_spec hlen hfirst hnext n
    have hstep : extendWords next w (n + 1) =
        extendWords next w n ++ [next (extendWords next w n) (16 + n)] := by
      simp [extendWords, range'_concat]
    rw [hstep]
    refine ⟨by simp [ihlen]; omega, fun t ht => ?_⟩
    by_cases hlast : t < 16 + n
    · rw [getD_append _ _ _ _ (by omega)]
      exact ih t hlast
    · have e : t = 16 + n := by omega
      subst e
      rw [getD_append_right _ _ _ _ (by omega), ihlen, Nat.sub_self, getD_cons_zero]
      exact hnext _ _ (by omega) ih

theorem blockWords_spec (hm : 64 * i + 64 ≤ m.length) :
    (blockWords m (64 * i)).length = 16 ∧
      ∀ t < 16, ((blockWords m (64 * i)).getD t 0).toBitVec = blockWord (bitsOf m) i t := by
  refine ⟨by simp [blockWords], fun t ht => ?_⟩
  have hget : (blockWords m (64 * i)).getD t 0 = loadWord m (64 * i + 4 * t) := by
    simp [blockWords, getD_eq_getElem?_getD, ht, mul_comm t 4]
  rw [hget]
  exact loadWord_eq (by omega)

variable {M : Nat → Word} {w : List UInt32}

theorem next256_eq (hi : 16 ≤ i) (h : ∀ t < i, (w.getD t 0).toBitVec = Fips180.schedule256 M t) :
    (next256 w i).toBitVec = Fips180.schedule256 M i := by
  have h0 : ∀ x : UInt32, (ror32 x 7 ^^^ ror32 x 18 ^^^ (x >>> 3)).toBitVec =
      Fips180.smallSigma0 x.toBitVec := fun _ => rfl
  have h1 : ∀ x : UInt32, (ror32 x 17 ^^^ ror32 x 19 ^^^ (x >>> 10)).toBitVec =
      Fips180.smallSigma1 x.toBitVec := fun _ => rfl
  rw [Fips180.schedule256, if_neg (by omega), ← h (i - 2) (by omega), ← h (i - 7) (by omega),
    ← h (i - 15) (by omega), ← h (i - 16) (by omega)]
  simp only [next256, UInt32.toBitVec_add, h0, h1]
  ac_rfl

theorem next1_eq (hi : 16 ≤ i) (h : ∀ t < i, (w.getD t 0).toBitVec = Fips180.schedule1 M t) :
    (next1 w i).toBitVec = Fips180.schedule1 M i := by
  rw [Fips180.schedule1, if_neg (by omega), ← h (i - 3) (by omega), ← h (i - 8) (by omega),
    ← h (i - 14) (by omega), ← h (i - 16) (by omega)]
  rfl

variable {t : Nat}

theorem words256_eq (hm : 64 * i + 64 ≤ m.length) (ht : t < 64) :
    ((words256 m (64 * i)).getD t 0).toBitVec = Fips180.schedule256 (blockWord (bitsOf m) i) t := by
  obtain ⟨hlen, hfirst⟩ := blockWords_spec hm
  have hbase : ∀ t < 16, ((blockWords m (64 * i)).getD t 0).toBitVec =
      Fips180.schedule256 (blockWord (bitsOf m) i) t := fun t ht => by
    rw [hfirst t ht, Fips180.schedule256, if_pos ht]
  rw [words256]
  exact (extendWords_spec hlen hbase (fun w i hi h => next256_eq hi h) 48).2 t (by omega)

theorem words1_eq (hm : 64 * i + 64 ≤ m.length) (ht : t < 80) :
    ((words1 m (64 * i)).getD t 0).toBitVec = Fips180.schedule1 (blockWord (bitsOf m) i) t := by
  obtain ⟨hlen, hfirst⟩ := blockWords_spec hm
  have hbase : ∀ t < 16, ((blockWords m (64 * i)).getD t 0).toBitVec =
      Fips180.schedule1 (blockWord (bitsOf m) i) t := fun t ht => by
    rw [hfirst t ht, Fips180.schedule1, if_pos ht]
  rw [words1]
  exact (extendWords_spec hlen hbase (fun w i hi h => next1_eq hi h) 64).2 t (by omega)

/-! ## 4. The compression functions -/

theorem shaK_eq (ht : t < 64) : (shaK.getD t 0).toBitVec = Fips180.K256 t := by
  have htable : ∀ t : Fin 64, (shaK.getD t 0).toBitVec =
      Fips180.cubeRootBits (Fips180.primes64.getD t 0) := by decide +kernel
  rw [Fips180.K256, Fips180.nth_prime_table ht]
  exact htable ⟨t, ht⟩

theorem sha256Init_eq : sha256Init.map UInt32.toBitVec = Fips180.init256 := by
  have hroot : ∀ t < 8, Fips180.squareRootBits (Nat.nth Nat.Prime t) =
      Fips180.squareRootBits (Fips180.primes64.getD t 0) := fun t ht => by
    rw [Fips180.nth_prime_table (by omega)]
  have hinit : Fips180.init256 = (Eight.mk 0 1 2 3 4 5 6 7).map fun t =>
      Fips180.squareRootBits (Fips180.primes64.getD t 0) := by
    simp only [Fips180.init256, Eight.map, hroot, Nat.reduceLT]
  rw [hinit]
  decide +kernel

theorem round256_eq (hi : i < 64) (hw : (w.getD i 0).toBitVec = Fips180.schedule256 M i) (v : Eight UInt32) :
    (round256 w v i).map UInt32.toBitVec = Fips180.step256 M (v.map UInt32.toBitVec) i := by
  simp only [round256, Fips180.step256, Eight.map, ← hw, ← shaK_eq hi]
  rfl

/-- `(b & c) | (~b & d)` has no bit from both sides. -/
theorem choose_or (x y z : Word) : (x &&& y) ||| (~~~x &&& z) = Fips180.Ch x y z := by
  refine BitVec.eq_of_getLsbD_eq fun i hi => ?_
  simp only [Fips180.Ch, BitVec.getLsbD_or, BitVec.getLsbD_and, BitVec.getLsbD_xor, BitVec.getLsbD_not, hi,
    decide_true, Bool.true_and]
  cases x.getLsbD i <;> cases y.getLsbD i <;> cases z.getLsbD i <;> rfl

theorem majority_or (x y z : Word) : (x &&& y) ||| (x &&& z) ||| (y &&& z) = Fips180.Maj x y z := by
  refine BitVec.eq_of_getLsbD_eq fun i _ => ?_
  simp only [Fips180.Maj, BitVec.getLsbD_or, BitVec.getLsbD_and, BitVec.getLsbD_xor]
  cases x.getLsbD i <;> cases y.getLsbD i <;> cases z.getLsbD i <;> rfl

theorem sha1Select_eq (b c d : UInt32) (i : Nat) :
    (sha1Select b c d i).1.toBitVec = Fips180.f1 i b.toBitVec c.toBitVec d.toBitVec ∧
      (sha1Select b c d i).2.toBitVec = Fips180.K1 i := by
  unfold sha1Select Fips180.f1 Fips180.K1
  split_ifs
  · exact ⟨choose_or _ _ _, rfl⟩
  · exact ⟨rfl, rfl⟩
  · exact ⟨majority_or _ _ _, rfl⟩
  · exact ⟨rfl, rfl⟩

theorem round1_eq (hw : (w.getD i 0).toBitVec = Fips180.schedule1 M i) (v : Five UInt32) :
    (round1 w v i).map UInt32.toBitVec = Fips180.step1 M (v.map UInt32.toBitVec) i := by
  obtain ⟨hf, hk⟩ := sha1Select_eq v.b v.c v.d i
  simp only [round1, Fips180.step1, Five.map, ← hw, ← hf, ← hk]
  rfl

theorem block256_eq (hm : 64 * i + 64 ≤ m.length) (h : Eight UInt32) :
    (block256 m h (64 * i)).map UInt32.toBitVec =
      Fips180.compress256 (blockWord (bitsOf m) i) (h.map UInt32.toBitVec) := by
  have hrounds := foldl_sim (Eight.map UInt32.toBitVec) (range 64) (fun t ht v =>
    round256_eq (mem_range.mp ht) (words256_eq hm (mem_range.mp ht)) v) h
  have hadd : ∀ v w : Eight UInt32, (v.add w).map UInt32.toBitVec =
      (w.map UInt32.toBitVec).add (v.map UInt32.toBitVec) := fun v w => by
    simp only [Eight.add, Eight.map, UInt32.toBitVec_add, BitVec.add_comm]
  rw [block256, hadd, hrounds, Fips180.compress256]

theorem block1_eq (hm : 64 * i + 64 ≤ m.length) (h : Five UInt32) :
    (block1 m h i).map UInt32.toBitVec =
      Fips180.compress1 (blockWord (bitsOf m) i) (h.map UInt32.toBitVec) := by
  have hrounds := foldl_sim (Five.map UInt32.toBitVec) (range 80) (fun t ht v =>
    round1_eq (words1_eq hm (mem_range.mp ht)) v) h
  have hadd : ∀ v w : Five UInt32, (v.add w).map UInt32.toBitVec =
      (w.map UInt32.toBitVec).add (v.map UInt32.toBitVec) := fun v w => by
    simp only [Five.add, Five.map, UInt32.toBitVec_add, BitVec.add_comm]
  rw [block1, mul_comm, hadd, hrounds, Fips180.compress1]

/-! ## 5. The padded message -/

theorem lengthByte_eq {len : Nat} (hlen : len < 2 ^ 61) (hi : i < 8) :
    ((UInt64.ofNat len * 8) >>> UInt64.ofNat (8 * i)).toUInt8 = UInt8.ofNat (8 * len / 256 ^ i) := by
  have hbits : (UInt64.ofNat len * 8).toNat = 8 * len := by
    have height : (8 : UInt64).toNat = 8 := rfl
    rw [UInt64.toNat_mul, UInt64.toNat_ofNat_of_lt' (by simp [UInt64.size]; omega), height,
      mod_eq_of_lt (by omega), mul_comm]
  have hshift : (UInt64.ofNat (8 * i)).toNat = 8 * i :=
    UInt64.toNat_ofNat_of_lt' (by simp [UInt64.size]; omega)
  rw [← UInt8.toNat_inj, UInt64.toNat_toUInt8, UInt64.toNat_shiftRight, hbits, hshift, UInt8.toNat_ofNat',
    mod_eq_of_lt (show 8 * i < 64 by omega), shiftRight_eq_div_pow, pow_mul, show 2 ^ 8 = 256 by rfl]

variable {data : List UInt8}

/-- Where a message of `len` bytes is put in front and marked with `0x80`. -/
theorem mark_message (hm : data.length < m.length) :
    (copyInto m 0 data).set data.length 0x80 = data ++ 0x80 :: m.drop (data.length + 1) := by
  have hcopy : copyInto m 0 data = data ++ m.drop data.length := by simp [copyInto]
  rw [hcopy, set_append_right _ _ (le_refl _), Nat.sub_self, drop_eq_getElem_cons hm,
    set_cons_zero]

theorem sha256PaddedLen_zeros (len : Nat) :
    LeastZeros len (sha256PaddedLen len - 8 - (len + 1)) ∧ len + 9 ≤ sha256PaddedLen len := by
  unfold sha256PaddedLen
  refine ⟨⟨?_, fun z (hz : 64 ∣ len + 1 + z + 8) => ?_⟩, by omega⟩
  · show 64 ∣ len + 1 + (((len + 8) / 64 + 1) * 64 - 8 - (len + 1)) + 8
    omega
  · omega

/-- **The buffer of `vyb_sha256`** holds the padded message, whatever `malloc` left in it. -/
theorem sha256Message_eq (hlen : data.length < 2 ^ 61) (hm : m.length = sha256PaddedLen data.length) :
    sha256Message m data = paddedBytes data (sha256PaddedLen data.length - 8 - (data.length + 1)) := by
  obtain ⟨-, hroom⟩ := sha256PaddedLen_zeros data.length
  generalize hpad : sha256PaddedLen data.length = paddedLen at hm hroom
  obtain ⟨z, rfl⟩ : ∃ z, paddedLen = data.length + 1 + z + 8 := ⟨paddedLen - 8 - (data.length + 1), by omega⟩
  have hz : data.length + 1 + z + 8 - 8 - (data.length + 1) = z := by omega
  have hzeros : writeUp (data ++ 0x80 :: m.drop (data.length + 1)) (data.length + 1) (fun _ => 0) z =
      data ++ 0x80 :: (List.replicate z 0 ++ m.drop (data.length + 1 + z)) := by
    rw [writeUp_eq _ (by simp; omega), show (range z).map (fun _ => (0 : UInt8)) = List.replicate z 0 by
      simp [map_const']]
    have h := copyInto_append (data ++ [0x80]) (m.drop (data.length + 1)) (List.replicate z 0)
    simpa [drop_drop] using h
  have hlength : (range 8).map (fun i =>
      ((UInt64.ofNat data.length * 8) >>> UInt64.ofNat (8 * (8 - 1 - i))).toUInt8) =
      Fips180.bytesOfNat 8 (8 * data.length) :=
    map_congr_left fun i _ => lengthByte_eq hlen (by omega)
  simp only [sha256Message, hpad]
  rw [mark_message (by omega), hz, hzeros, writeDown_eq _ (by simp; omega) (by omega), hlength]
  have h := copyInto_append (data ++ 0x80 :: List.replicate z 0) (m.drop (data.length + 1 + z))
    (Fips180.bytesOfNat 8 (8 * data.length))
  have hend : m.drop (data.length + 1 + z + 8) = [] := drop_eq_nil_of_le (by omega)
  have hfront : data.length + 1 + z + 8 - 8 = (data ++ 0x80 :: List.replicate z 0).length := by
    simp
    omega
  rw [paddedBytes, hfront]
  simpa [drop_drop, hend] using h

theorem fillUp_spec (n : Nat) : n ≤ fillUp n ∧ fillUp n % 64 = 56 ∧ fillUp n < n + 64 := by
  fun_induction fillUp n with
  | case1 n h ih => exact ⟨by omega, ih.2.1, by omega⟩
  | case2 n h => exact ⟨le_refl n, by omega, by omega⟩

theorem fillUp_zeros (len : Nat) : LeastZeros len (fillUp (len + 1) - (len + 1)) := by
  obtain ⟨hle, hmod, hlt⟩ := fillUp_spec (len + 1)
  refine ⟨?_, fun z (hz : 64 ∣ len + 1 + z + 8) => ?_⟩
  · show 64 ∣ len + 1 + (fillUp (len + 1) - (len + 1)) + 8
    omega
  · omega

/-- **The buffer of `vyb_sha1`.** -/
theorem sha1Message_eq (hlen : data.length < 2 ^ 61) :
    sha1Message (List.replicate (fillUp (data.length + 1) + 8) 0) data =
      paddedBytes data (fillUp (data.length + 1) - (data.length + 1)) := by
  obtain ⟨hle, -, -⟩ := fillUp_spec (data.length + 1)
  generalize hpad : fillUp (data.length + 1) = msgLen at hle
  obtain ⟨z, rfl⟩ : ∃ z, msgLen = data.length + 1 + z := ⟨msgLen - (data.length + 1), by omega⟩
  have hlength : (range 8).map (fun i =>
      ((UInt64.ofNat data.length * 8) >>> UInt64.ofNat (56 - i * 8)).toUInt8) =
      Fips180.bytesOfNat 8 (8 * data.length) := by
    refine map_congr_left fun i hi => ?_
    rw [show 56 - i * 8 = 8 * (8 - 1 - i) by omega]
    exact lengthByte_eq hlen (by omega)
  have hrest : (List.replicate (data.length + 1 + z + 8) (0 : UInt8)).drop (data.length + 1) =
      List.replicate z 0 ++ List.replicate 8 0 := by
    rw [drop_replicate, ← replicate_add]
    congr 1
    omega
  simp only [sha1Message, hpad]
  rw [mark_message (by simp; omega), hrest, writeUp_eq _ (by simp; omega), hlength, paddedBytes,
    Nat.add_sub_cancel_left]
  have h := copyInto_append (data ++ 0x80 :: List.replicate z 0) (List.replicate 8 0)
    (Fips180.bytesOfNat 8 (8 * data.length))
  have hfront : data.length + 1 + z = (data ++ 0x80 :: List.replicate z 0).length := by
    simp
    omega
  rw [hfront]
  simpa using h

/-! ## 6. The digests -/

theorem length_paddedBytes (data : List UInt8) (z : Nat) :
    (paddedBytes data z).length = data.length + 1 + z + 8 := by
  simp [paddedBytes]
  omega

/-- **The block loop of `vyb_sha256`.** -/
theorem blocks256_eq {m : List UInt8} : ∀ {n : Nat}, 64 * n ≤ m.length →
    ((List.range' 0 n 64).foldl (block256 m) sha256Init).map UInt32.toBitVec =
      hashValue Fips180.compress256 Fips180.init256 (bitsOf m) n
  | 0, _ => sha256Init_eq
  | n + 1, h => by
    rw [range'_concat, foldl_append, foldl_cons, foldl_nil, zero_add,
      block256_eq (by omega), blocks256_eq (by omega), hashValue]

/-- **The block loop of `vyb_sha1`.** -/
theorem blocks1_eq {m : List UInt8} : ∀ {n : Nat}, 64 * n ≤ m.length →
    ((List.range n).foldl (block1 m) sha1Init).map UInt32.toBitVec =
      hashValue Fips180.compress1 Fips180.init1 (bitsOf m) n
  | 0, _ => rfl
  | n + 1, h => by
    rw [range_succ, foldl_append, foldl_cons, foldl_nil, block1_eq (by omega),
      blocks1_eq (by omega), hashValue]

theorem bitsOf_words (ws : List UInt32) :
    bitsOf (ws.flatMap storeWord) = (ws.map UInt32.toBitVec).flatMap fun w => bitsOfNat 32 w.toNat := by
  induction ws with
  | nil => rfl
  | cons w ws ih =>
    rw [flatMap_cons, Fips180.bitsOf_append, bitsOf_storeWord, ih, map_cons, flatMap_cons]
    rfl

variable (A : Allocator)

theorem sha256_eq (out : List UInt8) (hlen : data.length < 2 ^ 61)
    (hm : A.malloc (sha256PaddedLen data.length) = some m) :
    bitsOf (sha256 A data out) = Fips180.sha256 (bitsOf data) := by
  obtain ⟨hz, hroom⟩ := sha256PaddedLen_zeros data.length
  have hpadded := length_paddedBytes data (sha256PaddedLen data.length - 8 - (data.length + 1))
  have hblocks : 64 * ((sha256PaddedLen data.length + 63) / 64) = sha256PaddedLen data.length := by
    unfold sha256PaddedLen
    omega
  generalize hpadding : sha256PaddedLen data.length - 8 - (data.length + 1) = z at hz hpadded
  have hvalue := blocks256_eq (m := paddedBytes data z) (n := (sha256PaddedLen data.length + 63) / 64) (by omega)
  have hcount : 8 * (paddedBytes data z).length / 512 = (sha256PaddedLen data.length + 63) / 64 := by omega
  rw [sha256, hm]
  dsimp only
  rw [sha256Message_eq hlen (A.malloc_length hm), hpadding, bitsOf_words, Fips180.sha256,
    Fips180.pad_bitsOf hz, Fips180.length_bitsOf, hcount, ← hvalue]
  rfl

theorem sha1_eq (hlen : data.length < 2 ^ 61)
    (hm : A.calloc (fillUp (data.length + 1) + 8) = some m) :
    bitsOf (sha1 A data) = Fips180.sha1 (bitsOf data) := by
  obtain ⟨hle, hmod, -⟩ := fillUp_spec (data.length + 1)
  have hz := fillUp_zeros data.length
  have hpadded := length_paddedBytes data (fillUp (data.length + 1) - (data.length + 1))
  generalize hpadding : fillUp (data.length + 1) - (data.length + 1) = z at hz hpadded
  have hvalue := blocks1_eq (m := paddedBytes data z) (n := (fillUp (data.length + 1) + 8) / 64) (by omega)
  have hcount : 8 * (paddedBytes data z).length / 512 = (fillUp (data.length + 1) + 8) / 64 := by omega
  obtain rfl := A.calloc_zero hm
  rw [sha1, hm]
  dsimp only
  rw [sha1Message_eq hlen, hpadding, bitsOf_words, Fips180.sha1, Fips180.pad_bitsOf hz,
    Fips180.length_bitsOf, hcount, ← hvalue]
  rfl

theorem length_sha256 {out : List UInt8} (hout : out.length = 32) :
    (sha256 A data out).length = 32 := by
  unfold sha256
  split
  · exact hout
  · simp [Eight.toList, storeWord]

/-- **`__vyb_sha256_hex`** writes 64 hexadecimal digits. -/
theorem sha256Hex_spec {A : Allocator} {digest : List UInt8} {s : Str} (hdigest : digest.length = 32)
    (h : sha256Hex A data digest = some s) : s.length = 64 ∧ ∀ c ∈ s, 48 ≤ c ∧ c ≤ 57 ∨ 97 ≤ c ∧ c ≤ 102 := by
  obtain ⟨_, -, rfl⟩ := Option.map_eq_some_iff.mp h
  refine ⟨by simp [hexPair, length_sha256 A hdigest], fun c hc => ?_⟩
  obtain ⟨d, -, hc⟩ := mem_flatMap.mp hc
  have hdigits : ∀ n < 16, 48 ≤ hexDigits.getD n 0 ∧ hexDigits.getD n 0 ≤ 57 ∨
      97 ≤ hexDigits.getD n 0 ∧ hexDigits.getD n 0 ≤ 102 := by decide +kernel
  have hhigh : (d >>> 4).toNat < 16 := by
    have : d.toNat < 256 := d.toNat_lt
    simp [shiftRight_eq_div_pow]
    omega
  have hlow : (d &&& 0x0f).toNat < 16 := by
    rw [UInt8.toNat_and]
    exact and_lt_two_pow (n := 4) _ (by decide)
  simp only [hexPair, mem_cons, not_mem_nil, or_false] at hc
  rcases hc with rfl | rfl
  · exact hdigits _ hhigh
  · exact hdigits _ hlow

/-- **The hashes implement FIPS 180-4.** -/
theorem digests_fips (A : Allocator) (data out : List UInt8) (hlen : data.length < 2 ^ 61)
    (hmalloc : (A.malloc (sha256PaddedLen data.length)).isSome = true)
    (hcalloc : (A.calloc (fillUp (data.length + 1) + 8)).isSome = true) :
    bitsOf (sha256 A data out) = Fips180.sha256 (bitsOf data) ∧
    bitsOf (sha1 A data) = Fips180.sha1 (bitsOf data) ∧
    ∃ z, LeastZeros data.length z ∧
      (∀ m, A.malloc (sha256PaddedLen data.length) = some m → sha256Message m data = paddedBytes data z) ∧
      ∀ m, A.calloc (fillUp (data.length + 1) + 8) = some m → sha1Message m data = paddedBytes data z := by
  obtain ⟨m, hm⟩ := Option.isSome_iff_exists.mp hmalloc
  obtain ⟨m', hm'⟩ := Option.isSome_iff_exists.mp hcalloc
  have hz := (sha256PaddedLen_zeros data.length).1
  refine ⟨sha256_eq A out hlen hm, sha1_eq A hlen hm', _, hz, fun m hm => ?_, fun m hm => ?_⟩
  · exact sha256Message_eq hlen (A.malloc_length hm)
  · obtain rfl := A.calloc_zero hm
    rw [sha1Message_eq hlen, (fillUp_zeros data.length).unique hz]

/-- A heap that always has room, with old contents in what `malloc` returns. -/
def plentiful : Allocator where
  malloc n := some (List.replicate n 0xcd)
  calloc n := some (List.replicate n 0)
  malloc_length h := by
    cases h
    exact length_replicate
  calloc_zero h := by
    cases h
    rfl

/-- The message `abc` of the standard's examples. -/
theorem digests_fips_abc :
    bitsOf (sha256 plentiful [0x61, 0x62, 0x63] []) = Fips180.sha256 (bitsOf [0x61, 0x62, 0x63]) ∧
    bitsOf (sha1 plentiful [0x61, 0x62, 0x63]) = Fips180.sha1 (bitsOf [0x61, 0x62, 0x63]) ∧
    ∃ z, LeastZeros 3 z ∧
      (∀ m, plentiful.malloc (sha256PaddedLen 3) = some m →
        sha256Message m [0x61, 0x62, 0x63] = paddedBytes [0x61, 0x62, 0x63] z) ∧
      ∀ m, plentiful.calloc (fillUp (3 + 1) + 8) = some m →
        sha1Message m [0x61, 0x62, 0x63] = paddedBytes [0x61, 0x62, 0x63] z :=
  digests_fips plentiful [0x61, 0x62, 0x63] [] (by decide) rfl rfl

example : sha256 plentiful [0x61, 0x62, 0x63] [] =
      [0xba, 0x78, 0x16, 0xbf, 0x8f, 0x01, 0xcf, 0xea, 0x41, 0x41, 0x40, 0xde, 0x5d, 0xae, 0x22, 0x23,
       0xb0, 0x03, 0x61, 0xa3, 0x96, 0x17, 0x7a, 0x9c, 0xb4, 0x10, 0xff, 0x61, 0xf2, 0x00, 0x15, 0xad] ∧
    sha1 plentiful [0x61, 0x62, 0x63] =
      [0xa9, 0x99, 0x3e, 0x36, 0x47, 0x06, 0x81, 0x6a, 0xba, 0x3e, 0x25, 0x71, 0x78, 0x50, 0xc2, 0x6c,
       0x9c, 0xd0, 0xd8, 0x9d] := by
  decide +kernel

end Vyb.Runtime
