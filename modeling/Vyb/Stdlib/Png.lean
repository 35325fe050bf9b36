/-
  Subject:   The PNG encoder (`stdlib/png/mod.vyb`), and when what it writes is an image of the pixels.

  The encoder writes one stored DEFLATE block, so it refuses images of more than 65535 bytes; it works out
  the size in 64-bit arithmetic, which wraps around.

  * `pngEncode` -- the encoder;
  * `readChunk`, `adler32`, `scanlines`, `Decodes` -- how a PNG is read, stated without the encoder. The
    checksum of a chunk is the remainder of `Lib.IsCrc`, the pixels are what `inflate_def` makes of the
    stream.
  * `crc32_isCrc`, `adler_eq`, `scanAll_raw`, `inflate_stored` -- the parts of the encoder against these;
  * **`png_decodes_iff`** -- an image that is accepted decodes exactly if its size does not wrap around.
-/
import Vyb.Collections.HashMap
import Vyb.Lib.Crc
import Vyb.Stdlib.Deflate

namespace Vyb.Stdlib

open Lib Collections Vyb.Runtime Str Deflate List Nat

/-! ## 1. The encoder -/

/-- `Vec<UInt8>` -/
abbrev Bytes := Vec UInt8

/-- The bytes from `a` to `b`. -/
def pngCrc32 (v : Bytes) (a b : Nat) : Nat :=
  (List.range' a (b - a)).foldl (fun crc (i : Nat) => crcByte crc (Vec.get v i)) 0xFFFFFFFF ^^^ 0xFFFFFFFF

/-- Four bytes, the highest first. -/
def be32 (x : Nat) : Bytes :=
  [UInt8.ofNat ((x >>> 24) &&& 0xFF), UInt8.ofNat ((x >>> 16) &&& 0xFF), UInt8.ofNat ((x >>> 8) &&& 0xFF),
    UInt8.ofNat (x &&& 0xFF)]

def pngPushBe32 (v : Bytes) (x : Nat) : Bytes := v ++ be32 x

def pngPushAscii (v : Bytes) (s : Str) : Bytes := s.foldl Vec.push v

/-- The two sums of the Adler checksum, after the byte `v`. -/
def adlerStep (ad : Nat × Nat) (v : UInt8) : Nat × Nat :=
  ((ad.1 + v.toNat) % 65521, (ad.2 + (ad.1 + v.toNat) % 65521) % 65521)

/-- What the loops over the pixels fill: the scanlines and the sums over them. -/
structure Scan where
  raw : Bytes
  ad : Nat × Nat

/-- The pixel `(x, y)`. Its place is worked out in 64 bits. -/
def scanPixel (w : Int) (rgb : Bytes) (y : Nat) (s : Scan) (x : Nat) : Scan :=
  let p := wrap64 (wrap64 (wrap64 (y * w) + x) * 3)
  let r := Vec.get rgb p
  let g := Vec.get rgb (wrap64 (p + 1))
  let b := Vec.get rgb (wrap64 (p + 2))
  ⟨s.raw ++ [r, g, b], adlerStep (adlerStep (adlerStep s.ad r) g) b⟩

def scanRow (w : Int) (rgb : Bytes) (s : Scan) (y : Nat) : Scan :=
  (List.range w.toNat).foldl (scanPixel w rgb y) ⟨Vec.push s.raw 0, adlerStep s.ad 0⟩

def scanAll (w h : Int) (rgb : Bytes) : Scan := (List.range h.toNat).foldl (scanRow w rgb) ⟨[], (1, 0)⟩

/-- The zlib container: its header, one final stored block, the Adler checksum. -/
def zlibOf (s : Scan) : Bytes :=
  let rl := s.raw.length
  pngPushBe32 ([0x78, 0x01, 0x01, UInt8.ofNat (rl &&& 0xFF), UInt8.ofNat ((rl >>> 8) &&& 0xFF),
    UInt8.ofNat ((rl ^^^ 0xFFFF) &&& 0xFF), UInt8.ofNat (((rl ^^^ 0xFFFF) >>> 8) &&& 0xFF)] ++ s.raw)
    (s.ad.2 * 65536 + s.ad.1)

/-- A chunk is begun with its length and its tag, -/
def openChunk (out : Bytes) (len : Nat) (tag : Str) : Bytes := pngPushAscii (pngPushBe32 out len) tag

/-- and ended with the checksum of what was written from its tag on. -/
def closeChunk (out : Bytes) (start len : Nat) : Bytes :=
  pngPushBe32 out (pngCrc32 out (start + 4) (start + 4 + 4 + len))

def pngSignature : Bytes := [137, 80, 78, 71, 13, 10, 26, 10]

/-- The file for the scanlines `s`. -/
def pngFile (w h : Nat) (s : Scan) : Bytes :=
  let zl := zlibOf s
  let out := pngSignature
  let h0 := out.length
  let out := pngPushBe32 (pngPushBe32 (openChunk out 13 (ascii "IHDR")) w) h ++ [8, 2, 0, 0, 0]
  let out := closeChunk out h0 13
  let d0 := out.length
  let out := openChunk out zl.length (ascii "IDAT") ++ zl
  let out := closeChunk out d0 zl.length
  let e0 := out.length
  let out := openChunk out 0 (ascii "IEND")
  closeChunk out e0 0

def pngEncode (w h : Int) (rgb : Bytes) : Bytes :=
  if w ≤ 0 ∨ h ≤ 0 then []
  else
    let need := wrap64 (wrap64 (w * h) * 3)
    if rgb.len < need then []
    else if wrap64 (need + h) > 65535 then []
    else pngFile w.toNat h.toNat (scanAll w h rgb)

/-! ## 2. Reading a PNG -/

namespace Png

/-- The highest byte first. -/
def beNat (bytes : List UInt8) : Nat := bytes.foldl (fun n b => 256 * n + b.toNat) 0

structure Chunk where
  tag : Str
  data : Str
  crc : Nat

/-- The first chunk and what follows it: length, tag, data, checksum. -/
def readChunk (s : Str) : Option (Chunk × Str) :=
  let len := beNat (s.take 4)
  if s.length < 12 + len then none
  else some (⟨(s.drop 4).take 4, (s.drop 8).take len, beNat ((s.drop (8 + len)).take 4)⟩, s.drop (12 + len))

/-- The checksum is that of the tag and the data. -/
def Chunk.Sound (c : Chunk) : Prop := IsCrc 32 0xEDB88320 (bitsOf (c.tag ++ c.data)) c.crc

/-- One more than the sum of the bytes. -/
def adlerA (data : List UInt8) : Nat := 1 + (data.map UInt8.toNat).sum

/-- The sum of these over all beginnings but the empty one. -/
def adlerB (data : List UInt8) : Nat := (data.inits.tail.map adlerA).sum

def adler32 (data : List UInt8) : Nat := adlerB data % 65521 * 65536 + adlerA data % 65521

/-- A filter byte 0 and the pixels of the row. -/
def scanline (w : Nat) (rgb : List UInt8) (y : Nat) : List UInt8 := 0 :: (rgb.drop (3 * w * y)).take (3 * w)

def scanlines (w h : Nat) (rgb : List UInt8) : List UInt8 := (List.range h).flatMap (scanline w rgb)

/-- `out` is an image of `rgb`, with these chunks and this stream. -/
structure DecodesAs (out : Str) (w h : Nat) (rgb : List UInt8) (ihdr idat iend : Chunk)
    (body trailer : Str) : Prop where
  signature : out.take 8 = [137, 80, 78, 71, 13, 10, 26, 10]
  chunks : ∃ r₁ r₂, readChunk (out.drop 8) = some (ihdr, r₁) ∧ readChunk r₁ = some (idat, r₂) ∧
    readChunk r₂ = some (iend, [])
  tags : ihdr.tag = ascii "IHDR" ∧ idat.tag = ascii "IDAT" ∧ iend.tag = ascii "IEND"
  sound : ihdr.Sound ∧ idat.Sound ∧ iend.Sound
  size : beNat (ihdr.data.take 4) = w ∧ beNat ((ihdr.data.drop 4).take 4) = h
  /-- eight bits a channel, truecolour, no interlace -/
  kind : ihdr.data.drop 8 = [8, 2, 0, 0, 0]
  nothing : iend.data = []
  zlib : idat.data = [0x78, 0x01] ++ (body ++ trailer)
  pixels : 3 * w * h ≤ rgb.length
  inflates : (inflateDef body).Returns (bytesOf (scanlines w h rgb))
  four : trailer.length = 4
  adler : beNat trailer = adler32 (scanlines w h rgb)

def Decodes (out : Str) (w h : Nat) (rgb : List UInt8) : Prop :=
  ∃ ihdr idat iend body trailer, DecodesAs out w h rgb ihdr idat iend body trailer

end Png

open Png

/-! ## 3. The checksum of a chunk -/

theorem crcRound_eq (crc : Nat) : crcRound crc = crcShift 0xEDB88320 crc := by
  have hbit : crc &&& 1 ≠ 0 ↔ crc.testBit 0 = true := by
    simp
  rw [crcRound, crcShift, shiftRight_one]
  by_cases h : crc.testBit 0 = true
  · rw [if_pos (hbit.mpr h), if_pos h]
  · rw [if_neg (fun e => h (hbit.mp e)), if_neg h]

/-- A byte is eight bits of the message. -/
theorem crcByte_eq (crc : Nat) (c : UInt8) : crcByte crc c = (byteBits c).foldl (crcBit 0xEDB88320) crc := by
  have hround : crcRound = crcShift 0xEDB88320 := funext crcRound_eq
  have hzero : c.toNat >>> 8 = 0 := by
    rw [shiftRight_eq_div_pow]
    exact div_eq_of_lt c.toNat_lt
  rw [crcByte, hround, crcShift_iterate, hzero, xor_zero]
  rfl

theorem crcBytes_eq (data : Str) (crc : Nat) :
    data.foldl crcByte crc = (bitsOf data).foldl (crcBit 0xEDB88320) crc := by
  induction data generalizing crc with
  | nil => rfl
  | cons c data ih => rw [foldl_cons, ih, crcByte_eq, ← foldl_append]; rfl

/-- **The loop computes the CRC-32.** -/
theorem crc32_isCrc (data : Str) : IsCrc 32 0xEDB88320 (bitsOf data) (crc32 data) := by
  have hrun := @isCrc_run 32 0xEDB88320 (by decide) (by decide) (bitsOf data)
  rw [crc32, crcBytes_eq]
  exact hrun

theorem map_get_range' (v : Bytes) : ∀ (n a : Nat), a + n ≤ v.length →
    (List.range' a n).map (fun (i : Nat) => Vec.get v i) = (v.drop a).take n
  | 0, a, _ => rfl
  | n + 1, a, h => by
    have ha : a < v.length := by omega
    rw [range'_succ, map_cons, map_get_range' v n (a + 1) (by omega), Vec.get_of_lt v ha,
      drop_eq_getElem_cons ha, take_succ_cons]

theorem pngCrc32_eq (pre m : Bytes) : pngCrc32 (pre ++ m) pre.length (pre.length + m.length) = crc32 m := by
  have hslice := map_get_range' (pre ++ m) m.length pre.length (by simp)
  rw [drop_left, take_length] at hslice
  rw [pngCrc32, Nat.add_sub_cancel_left, crc32]
  conv_rhs => rw [← hslice, List.foldl_map]

/-! ## 4. Chunks -/

theorem beNat_be32 (x : Nat) : beNat (be32 x) = x % 2 ^ 32 := by
  have hbyte : ∀ k, (UInt8.ofNat ((x >>> k) &&& 0xFF)).toNat = x / 2 ^ k % 256 := fun k => by
    have hand : (x >>> k) &&& 0xFF = (x >>> k) % 2 ^ 8 := and_two_pow_sub_one_eq_mod _ 8
    rw [hand, shiftRight_eq_div_pow]
    exact byte_toNat (mod_lt _ (by decide))
  have hlow := hbyte 0
  rw [Nat.shiftRight_zero, Nat.pow_zero, Nat.div_one] at hlow
  simp only [beNat, be32, foldl_cons, foldl_nil, hbyte, hlow]
  omega

theorem length_be32 (x : Nat) : (be32 x).length = 4 := rfl

/-- A chunk as it stands in a file. -/
def chunkBytes (tag data : Str) : Str :=
  be32 data.length ++ (tag ++ (data ++ be32 (crc32 (tag ++ data))))

theorem pngPushAscii_eq (v : Bytes) (s : Str) : pngPushAscii v s = v ++ s := by
  induction s generalizing v with
  | nil => exact (append_nil v).symm
  | cons c s ih =>
    show pngPushAscii (Vec.push v c) s = _
    rw [ih, Vec.push, append_assoc]
    rfl

/-- **What the encoder writes between opening and closing a chunk is a chunk.** -/
theorem closeChunk_eq (out : Bytes) {tag data : Str} (htag : tag.length = 4) :
    closeChunk (openChunk out data.length tag ++ data) out.length data.length = out ++ chunkBytes tag data := by
  have hout : openChunk out data.length tag ++ data = (out ++ be32 data.length) ++ (tag ++ data) := by
    rw [openChunk, pngPushAscii_eq, pngPushBe32, append_assoc (out ++ be32 data.length)]
  have hstart : (out ++ be32 data.length).length = out.length + 4 := by
    rw [length_append, length_be32]
  have hcrc := pngCrc32_eq (out ++ be32 data.length) (tag ++ data)
  rw [hstart, length_append, htag, ← add_assoc] at hcrc
  rw [closeChunk, hout, hcrc, pngPushBe32, chunkBytes]
  simp only [append_assoc]

/-- The data of the first chunk of a file. -/
def headerBytes (w h : Nat) : Str := be32 w ++ (be32 h ++ [8, 2, 0, 0, 0])

theorem length_headerBytes (w h : Nat) : (headerBytes w h).length = 13 := rfl

theorem drop_pngSignature (s : Str) : (pngSignature ++ s).drop 8 = s := rfl

theorem pngFile_eq (w h : Nat) (s : Scan) : pngFile w h s = pngSignature ++
    (chunkBytes (ascii "IHDR") (headerBytes w h) ++
      (chunkBytes (ascii "IDAT") (zlibOf s) ++ chunkBytes (ascii "IEND") [])) := by
  have hhdr : pngPushBe32 (pngPushBe32 (openChunk pngSignature 13 (ascii "IHDR")) w) h ++ [8, 2, 0, 0, 0] =
      openChunk pngSignature (headerBytes w h).length (ascii "IHDR") ++ headerBytes w h := by
    simp only [pngPushBe32, headerBytes, append_assoc]
    rfl
  have hlen : 13 = (headerBytes w h).length := rfl
  simp only [pngFile]
  rw [hhdr, hlen, closeChunk_eq _ rfl, closeChunk_eq _ rfl]
  have hend := @closeChunk_eq (pngSignature ++ chunkBytes (ascii "IHDR") (headerBytes w h) ++
    chunkBytes (ascii "IDAT") (zlibOf s)) (ascii "IEND") [] rfl
  rw [append_nil] at hend
  refine hend.trans ?_
  simp only [append_assoc]

/-- The length field says how much of the rest is data. -/
theorem readChunk_data {n : Nat} {tag s : Str} (htag : tag.length = 4) {c : Chunk} {r : Str}
    (h : readChunk (be32 n ++ (tag ++ s)) = some (c, r)) : c.data = s.take (n % 2 ^ 32) := by
  have htake : (be32 n ++ (tag ++ s)).take 4 = be32 n := take_left' (length_be32 n)
  have hdrop : (be32 n ++ (tag ++ s)).drop 8 = s := by
    rw [← append_assoc]
    exact drop_left' (by rw [length_append, length_be32, htag])
  rw [readChunk, htake, hdrop, beNat_be32] at h
  split at h
  · cases h
  · obtain ⟨rfl, _⟩ := Prod.mk.inj (Option.some.inj h)
    rfl

/-- **A chunk is read back.** -/
theorem readChunk_chunkBytes {tag data : Str} (htag : tag.length = 4) (hdata : data.length < 2 ^ 32)
    (rest : Str) :
    readChunk (chunkBytes tag data ++ rest) = some (⟨tag, data, crc32 (tag ++ data)⟩, rest) := by
  have hcrc := (crc32_isCrc (tag ++ data)).lt
  have hs : chunkBytes tag data ++ rest =
      be32 data.length ++ (tag ++ (data ++ (be32 (crc32 (tag ++ data)) ++ rest))) := by
    simp only [chunkBytes, append_assoc]
  generalize chunkBytes tag data ++ rest = s at hs ⊢
  have hlen : s.length = 12 + data.length + rest.length := by
    simp only [hs, length_append, length_be32, htag]
    omega
  have h4 : s.take 4 = be32 data.length := by
    rw [hs]
    exact take_left' rfl
  have h8 : s.drop 4 = tag ++ (data ++ (be32 (crc32 (tag ++ data)) ++ rest)) := by
    rw [hs]
    exact drop_left' rfl
  have hd : s.drop 8 = data ++ (be32 (crc32 (tag ++ data)) ++ rest) := by
    rw [show 8 = 4 + 4 from rfl, ← drop_drop, h8]
    exact drop_left' htag
  have hc : s.drop (8 + data.length) = be32 (crc32 (tag ++ data)) ++ rest := by
    rw [← drop_drop, hd]
    exact drop_left
  have hr : s.drop (12 + data.length) = rest := by
    rw [show 12 + data.length = 8 + data.length + 4 by omega, ← drop_drop, hc]
    exact drop_left' rfl
  simp only [readChunk, h4, beNat_be32, mod_eq_of_lt hdata, h8, hd, hc, hr]
  rw [if_neg (by rw [hlen]; omega), take_left' htag, take_left,
    take_left' (length_be32 _), beNat_be32, mod_eq_of_lt hcrc]

/-! ## 5. The Adler checksum -/

variable (data : List UInt8)

theorem adlerA_concat (v : UInt8) : adlerA (data ++ [v]) = adlerA data + v.toNat := by
  simp [adlerA, add_assoc]

theorem adlerB_concat (v : UInt8) :
    adlerB (data ++ [v]) = adlerB data + adlerA (data ++ [v]) := by
  have hinits : (data ++ [v]).inits.tail = data.inits.tail ++ [data ++ [v]] := by
    rw [inits_append]
    cases data <;> rfl
  rw [adlerB, hinits, map_append, List.sum_append, adlerB]
  rfl

/-- The sums modulo 65521, taken in every step or once. -/
theorem adler_eq :
    data.foldl adlerStep (1, 0) = (adlerA data % 65521, adlerB data % 65521) := by
  induction data using reverseRecOn with
  | nil => rfl
  | append_singleton data v ih =>
    rw [foldl_append, ih, adlerB_concat, adlerA_concat]
    show ((adlerA data % 65521 + v.toNat) % 65521, _) = _
    rw [mod_add_mod, add_mod (adlerB data)]

/-! ## 6. Scanlines -/

/-- The sums belong to the scanlines. -/
def Scan.Summed (s : Scan) : Prop := s.ad = s.raw.foldl adlerStep (1, 0)

theorem scanAll_summed (w h : Int) (rgb : Bytes) : (scanAll w h rgb).Summed := by
  refine foldlRecOn (motive := Scan.Summed) _ _ rfl fun s hs y _ => ?_
  refine foldlRecOn (motive := Scan.Summed) _ _ ?_ fun s hs x _ => ?_
  · rw [Scan.Summed] at hs ⊢
    rw [hs, Vec.push, foldl_append]
    rfl
  · rw [Scan.Summed] at hs ⊢
    simp only [scanPixel]
    rw [hs, foldl_append]
    rfl

theorem take_drop_three {rgb : List UInt8} {a x : Nat} (h : a + (3 * x + 3) ≤ rgb.length) :
    (rgb.drop a).take (3 * (x + 1)) = (rgb.drop a).take (3 * x) ++
      [Vec.get rgb ((a + 3 * x : Nat) : Int), Vec.get rgb ((a + 3 * x + 1 : Nat) : Int),
        Vec.get rgb ((a + 3 * x + 2 : Nat) : Int)] := by
  have h0 : a + 3 * x < rgb.length := by omega
  have h1 : a + 3 * x + 1 < rgb.length := by omega
  have h2 : a + 3 * x + 2 < rgb.length := by omega
  rw [show 3 * (x + 1) = 3 * x + 3 by omega, take_add, drop_drop, Vec.get_of_lt rgb h0,
    Vec.get_of_lt rgb h1, Vec.get_of_lt rgb h2, drop_eq_getElem_cons h0, drop_eq_getElem_cons h1,
    drop_eq_getElem_cons h2]
  rfl

variable {rgb : Bytes} {w h : Nat}

/-- Where the size does not wrap around the place of a pixel does not either. -/
theorem scanPixel_raw {y x : Nat} (hy : y < h) (hx : x < w) (hwrap : ∀ n : Nat, n ≤ 3 * w * h → wrap64 n = n)
    (s : Scan) :
    (scanPixel w rgb y s x).raw = s.raw ++ [Vec.get rgb ((3 * w * y + 3 * x : Nat) : Int),
      Vec.get rgb ((3 * w * y + 3 * x + 1 : Nat) : Int), Vec.get rgb ((3 * w * y + 3 * x + 2 : Nat) : Int)] := by
  have hrow : w * y + w ≤ w * h := by
    rw [← mul_succ]
    exact mul_le_mul_left w hy
  have hall : 3 * w * h = 3 * (w * h) := mul_assoc 3 w h
  have hlt : 3 * w * y + 3 * x + 3 ≤ 3 * w * h := by
    rw [hall, mul_assoc]
    omega
  have hle : ∀ k < 3, 3 * w * y + 3 * x + k ≤ 3 * w * h := fun k hk => by omega
  have h1 : wrap64 (y * w) = (w * y : Nat) := by
    rw [← hwrap (w * y) (by omega), cast_mul, mul_comm]
  have h2 : wrap64 ((w * y : Nat) + (x : Int)) = (w * y + x : Nat) := by
    rw [← hwrap (w * y + x) (by omega), cast_add]
  have h3 : wrap64 ((w * y + x : Nat) * 3) = (3 * w * y + 3 * x : Nat) := by
    have hp : ((w * y + x : Nat) : Int) * 3 = (3 * w * y + 3 * x : Nat) := by push_cast; ring
    rw [hp, hwrap (3 * w * y + 3 * x) (hle 0 (by decide))]
  have h4 : wrap64 ((3 * w * y + 3 * x : Nat) + 1) = (3 * w * y + 3 * x + 1 : Nat) := by
    rw [← hwrap (3 * w * y + 3 * x + 1) (hle 1 (by decide)), cast_add _ 1, cast_one]
  have h5 : wrap64 ((3 * w * y + 3 * x : Nat) + 2) = (3 * w * y + 3 * x + 2 : Nat) := by
    rw [← hwrap (3 * w * y + 3 * x + 2) (hle 2 (by decide)), cast_add _ 2, cast_ofNat]
  simp only [scanPixel, h1, h2, h3, h4, h5]

theorem scanRow_raw {y : Nat} (hy : y < h) (hlen : 3 * w * h ≤ rgb.length)
    (hwrap : ∀ n : Nat, n ≤ 3 * w * h → wrap64 n = n) (s : Scan) :
    (scanRow w rgb s y).raw = s.raw ++ scanline w rgb y := by
  have hrow : 3 * w * y + 3 * w ≤ 3 * w * h := by
    rw [← mul_succ]
    exact mul_le_mul_left (3 * w) hy
  -- after `x` pixels the row has its filter byte and `3 * x` bytes
  have hpixels : ∀ x, x ≤ w → ((range x).foldl (scanPixel w rgb y) ⟨Vec.push s.raw 0, adlerStep s.ad 0⟩).raw =
        s.raw ++ 0 :: (rgb.drop (3 * w * y)).take (3 * x) := by
    intro x
    induction x with
    | zero => exact fun _ => rfl
    | succ x ih =>
      intro hx
      rw [range_succ, foldl_append, foldl_cons, foldl_nil,
        scanPixel_raw hy (by omega) hwrap, ih (by omega), take_drop_three (by omega),
        append_assoc]
      rfl
  exact hpixels w (le_refl w)

/-- **The loops over the pixels write the scanlines.** -/
theorem scanAll_raw (hlen : 3 * w * h ≤ rgb.length) (hwrap : ∀ n : Nat, n ≤ 3 * w * h → wrap64 n = n) :
    (scanAll w h rgb).raw = scanlines w h rgb := by
  have hrows : ∀ y, y ≤ h → ((range y).foldl (scanRow w rgb) ⟨[], (1, 0)⟩).raw =
      (range y).flatMap (scanline w rgb) := by
    intro y
    induction y with
    | zero => exact fun _ => rfl
    | succ y ih =>
      intro hy
      rw [range_succ, foldl_append, foldl_cons, foldl_nil,
        scanRow_raw (by omega) hlen hwrap, ih (by omega), flatMap_append, flatMap_singleton]
  exact hrows h (le_refl h)

theorem length_scanlines {rgb : List UInt8} (hlen : 3 * w * h ≤ rgb.length) :
    (scanlines w h rgb).length = h * (1 + 3 * w) := by
  have hrow : ∀ y ∈ range h, (scanline w rgb y).length = 1 + 3 * w := by
    intro y hy
    have hlt : 3 * w * y + 3 * w ≤ 3 * w * h := by
      rw [← mul_succ]
      exact mul_le_mul_left (3 * w) (mem_range.mp hy)
    rw [scanline, length_cons, length_take, length_drop]
    omega
  rw [scanlines, length_flatMap, map_congr_left hrow, map_const', sum_replicate,
    length_range, smul_eq_mul]

/-! ## 7. The stream -/

/-- The head of the one block: final, stored, the number of its bytes and the complement of that. -/
def storedHead (n : Nat) : Str :=
  [0x01, UInt8.ofNat (n &&& 0xFF), UInt8.ofNat ((n >>> 8) &&& 0xFF), UInt8.ofNat ((n ^^^ 0xFFFF) &&& 0xFF),
    UInt8.ofNat (((n ^^^ 0xFFFF) >>> 8) &&& 0xFF)]

theorem zlibOf_eq (s : Scan) :
    zlibOf s = [0x78, 0x01] ++ ((storedHead s.raw.length ++ s.raw) ++ be32 (s.ad.2 * 65536 + s.ad.1)) := by
  simp only [zlibOf, pngPushBe32, storedHead, append_assoc]
  rfl

theorem byteBits_and (n : Nat) :
    byteBits (UInt8.ofNat (n &&& 0xFF)) = (List.range 8).map fun i => n.testBit i := by
  have hand : n &&& 0xFF = n % 2 ^ 8 := and_two_pow_sub_one_eq_mod n 8
  have hbyte : (UInt8.ofNat (n % 2 ^ 8)).toNat = n % 2 ^ 8 := byte_toNat (mod_lt n (by decide))
  rw [byteBits, hand, hbyte]
  refine map_congr_left fun i hi => ?_
  rw [testBit_mod_two_pow]
  simp [mem_range.mp hi]

theorem bitsOf_two (n : Nat) :
    bitsOf [UInt8.ofNat (n &&& 0xFF), UInt8.ofNat ((n >>> 8) &&& 0xFF)] =
      (List.range 16).map fun i => n.testBit i := by
  have hsplit : range 16 = range 8 ++ (range 8).map (8 + ·) := by decide
  rw [bitsOf, flatMap_cons, flatMap_cons, flatMap_nil, append_nil, byteBits_and,
    byteBits_and, hsplit, map_append, map_map]
  exact congrArg _ (map_congr_left fun i _ => testBit_shiftRight n)

theorem bitsOf_storedHead (n : Nat) (rest : Str) :
    bitsOf (storedHead n ++ rest) = true :: false :: false :: ([false, false, false, false, false] ++
      (((List.range 16).map fun i => n.testBit i) ++
        ((((List.range 16).map fun i => n.testBit i).map (! ·)) ++ bitsOf rest))) := by
  have hnot : (range 16).map (fun i => (n ^^^ 0xFFFF).testBit i) =
      ((range 16).map fun i => n.testBit i).map (! ·) := by
    rw [map_map]
    refine map_congr_left fun i hi => ?_
    have hones : testBit 0xFFFF i = true := by
      rw [show 0xFFFF = 2 ^ 16 - 1 from rfl, testBit_two_pow_sub_one]
      simpa using mem_range.mp hi
    rw [testBit_xor, hones, Bool.xor_true]
    rfl
  have hhead : storedHead n = ([0x01] : Str) ++ ([UInt8.ofNat (n &&& 0xFF), UInt8.ofNat ((n >>> 8) &&& 0xFF)] ++
      [UInt8.ofNat ((n ^^^ 0xFFFF) &&& 0xFF), UInt8.ofNat (((n ^^^ 0xFFFF) >>> 8) &&& 0xFF)]) := rfl
  have happend : ∀ a b : Str, bitsOf (a ++ b) = bitsOf a ++ bitsOf b := fun a b => flatMap_append
  rw [happend, hhead, happend, happend, bitsOf_two, bitsOf_two, hnot, append_assoc, append_assoc]
  rfl

/-- **The stream is decoded to the scanlines.** -/
theorem inflate_stored {raw : Str} (h : raw.length ≤ 65535) :
    (inflateDef (storedHead raw.length ++ raw)).Returns (bytesOf raw) := by
  have hlsb : lsb ((range 16).map fun i => raw.length.testBit i) = raw.length := by
    rw [lsb_map_testBit]
    exact mod_eq_of_lt (by omega)
  have hstream : Stream (bitsOf (storedHead raw.length ++ raw)) [] ([] ++ raw) := by
    have hbits := bitsOf_storedHead raw.length raw
    rw [← append_nil (bitsOf raw)] at hbits
    rw [hbits]
    exact Stream.final (Block.stored (by decide) rfl (by simp) hlsb)
  exact inflate_stream hstream (Ahead.start _)

/-- A stream that begins with the byte 1 is one stored block, of at most 65535 bytes. -/
theorem length_inflate_le {src : Str} (hsrc : src = [] ∨ ∃ rest, src = 1 :: rest) {out : Vec Int}
    (h : (inflateDef src).Returns out) : out.length ≤ 65535 := by
  have hfirst : ∀ rest : Str, Ahead (1 :: rest) 0
      (true :: ([false, false] ++ ([false, false, false, false, false] ++ bitsOf rest))) :=
    fun rest => Ahead.start (1 :: rest)
  have htype : valAt src 1 2 = 0 := by
    rcases hsrc with rfl | ⟨rest, rfl⟩
    · rfl
    · exact (hfirst rest).tail.valAt
  have hbody : ∃ out', out'.length ≤ 65535 ∧ (blockBody src ⟨0, []⟩).Returns (.inr out') := by
    simp only [blockBody, zero_add, htype, if_true]
    cases hstored : storedBlock src 3 [] with
    | none => exact ⟨[], by simp, Fueled.returns_pure.mpr rfl⟩
    | some s =>
      have hlen := valAt_lt src 8 16
      have hfinal : valAt src 0 1 = 1 := by
        rcases hsrc with rfl | ⟨rest, rfl⟩
        · cases hstored
        · exact (hfirst rest).head
      rw [hfinal]
      refine ⟨s.out, ?_, Fueled.returns_pure.mpr rfl⟩
      simp only [storedBlock] at hstored
      split at hstored
      · cases hstored
      · cases hstored
        rw [foldl_push, nil_append, length_map, length_range]
        show valAt src 8 16 ≤ 65535
        omega
  obtain ⟨out', hle, hret⟩ := hbody
  rw [h.unique (loop_returns_of_exit hret)]
  exact hle

/-! ## 8. The image -/

/-- What the geometry check lets through. -/
theorem pngEncode_accepted {w h : Int} (hacc : pngEncode w h rgb ≠ []) :
    0 < w ∧ 0 < h ∧ wrap64 (wrap64 (w * h) * 3) ≤ rgb.length ∧
      wrap64 (wrap64 (wrap64 (w * h) * 3) + h) ≤ 65535 ∧
      pngEncode w h rgb = pngFile w.toNat h.toNat (scanAll w h rgb) := by
  rw [pngEncode] at hacc ⊢
  simp only at hacc ⊢
  split at hacc
  · exact absurd rfl hacc
  · split at hacc
    · exact absurd rfl hacc
    · split at hacc
      · exact absurd rfl hacc
      · rename_i hpos hlen hsize
        rw [if_neg hpos, if_neg hlen, if_neg hsize]
        rw [Vec.len] at hlen
        exact ⟨by omega, by omega, by omega, by omega, rfl⟩

/-- A file whose size was worked out without wrapping around. -/
theorem pngFile_decodes (hlen : 3 * w * h ≤ rgb.length) (hsize : 3 * w * h + h ≤ 65535) (hh : 0 < h)
    (hw : 0 < w) : Decodes (pngFile w h (scanAll w h rgb)) w h rgb := by
  have hraw : (scanAll w h rgb).raw = scanlines w h rgb :=
    scanAll_raw hlen fun n hn => wrap64_natCast (lt_of_le_of_lt hn (by omega))
  have hcount : (scanlines w h rgb).length ≤ 65535 := by
    rw [length_scanlines hlen, mul_add, mul_one, mul_comm h]
    omega
  have hsum := scanAll_summed w h rgb
  rw [Scan.Summed, hraw, adler_eq] at hsum
  have hzlib := zlibOf_eq (scanAll w h rgb)
  rw [hraw, hsum] at hzlib
  have hzlen : (zlibOf (scanAll w h rgb)).length < 2 ^ 32 := by
    simp only [hzlib, length_append, length_be32, storedHead, length_cons, length_nil]
    omega
  have hmul : w ≤ 3 * w * h := by
    calc w ≤ w * (3 * h) := Nat.le_mul_of_pos_right w (by omega)
      _ = 3 * w * h := by ring
  have hw32 : w % 2 ^ 32 = w := mod_eq_of_lt (by omega)
  have hh32 : h % 2 ^ 32 = h := mod_eq_of_lt (by omega)
  have hout := pngFile_eq w h (scanAll w h rgb)
  refine ⟨⟨ascii "IHDR", headerBytes w h, crc32 (ascii "IHDR" ++ headerBytes w h)⟩,
    ⟨ascii "IDAT", zlibOf (scanAll w h rgb), crc32 (ascii "IDAT" ++ zlibOf (scanAll w h rgb))⟩,
    ⟨ascii "IEND", [], crc32 (ascii "IEND" ++ [])⟩,
    storedHead (scanlines w h rgb).length ++ scanlines w h rgb, be32 (adler32 (scanlines w h rgb)), ?_⟩
  exact {
    signature := by rw [hout]; exact take_left' rfl
    chunks := by
      refine ⟨chunkBytes (ascii "IDAT") (zlibOf (scanAll w h rgb)) ++ chunkBytes (ascii "IEND") [],
        chunkBytes (ascii "IEND") [], ?_, readChunk_chunkBytes rfl hzlen _, ?_⟩
      · rw [hout, drop_pngSignature]
        exact readChunk_chunkBytes rfl (by rw [length_headerBytes]; decide) _
      · have hend := @readChunk_chunkBytes (ascii "IEND") [] rfl (Nat.two_pow_pos 32) []
        rwa [append_nil] at hend
    tags := ⟨rfl, rfl, rfl⟩
    sound := ⟨crc32_isCrc (ascii "IHDR" ++ headerBytes w h),
      crc32_isCrc (ascii "IDAT" ++ zlibOf (scanAll w h rgb)), crc32_isCrc (ascii "IEND" ++ [])⟩
    size := by
      rw [headerBytes, take_left' (length_be32 w), drop_left' (length_be32 w),
        take_left' (length_be32 h), beNat_be32, beNat_be32]
      exact ⟨hw32, hh32⟩
    kind := rfl
    nothing := rfl
    zlib := hzlib
    pixels := hlen
    inflates := inflate_stored hcount
    four := rfl
    adler := by
      rw [beNat_be32]
      refine mod_eq_of_lt ?_
      rw [adler32]
      omega }

/-- One stored block does not hold more. -/
theorem size_of_decodes {s : Scan} (hdec : Decodes (pngFile w h s) w h rgb) : 3 * w * h + h ≤ 65535 := by
  obtain ⟨ihdr, idat, iend, body, trailer, d⟩ := hdec
  obtain ⟨r₁, r₂, hihdr, hidat, _⟩ := d.chunks
  rw [pngFile_eq, drop_pngSignature, readChunk_chunkBytes rfl (by rw [length_headerBytes]; decide)] at hihdr
  obtain ⟨_, rfl⟩ := Prod.mk.inj (Option.some.inj hihdr)
  -- whatever the length field says, the data begins as the stream does
  rw [chunkBytes, append_assoc, append_assoc] at hidat
  have hdata := readChunk_data rfl hidat
  have hsrc : body = [] ∨ ∃ rest, body = 1 :: rest := by
    cases body with
    | nil => exact .inl rfl
    | cons b rest =>
      obtain ⟨t, ht⟩ := hdata ▸ take_prefix _ _
      rw [d.zlib, zlibOf_eq] at ht
      have hb : b = 1 := (cons.inj (cons.inj (cons.inj ht).2).2).1
      exact .inr ⟨rest, by rw [hb]⟩
  have hle := length_inflate_le hsrc d.inflates
  rw [length_map, length_scanlines d.pixels, mul_add, mul_one, mul_comm h] at hle
  omega

/-- **An image that the encoder accepts is one that decodes, exactly if its size does not wrap around**: each
chunk has its length and its CRC-32, the stream inflates to the scanlines of the pixels, and the Adler
checksum is theirs. -/
theorem png_decodes_iff (w h : Int) (rgb : Bytes) (hacc : pngEncode w h rgb ≠ []) :
    Decodes (pngEncode w h rgb) w.toNat h.toNat rgb ↔ w * h * 3 + h < 2 ^ 63 := by
  obtain ⟨hw, hh, hlen, hsize, hout⟩ := pngEncode_accepted hacc
  obtain ⟨w, rfl⟩ := Int.eq_ofNat_of_zero_le (le_of_lt hw)
  obtain ⟨h, rfl⟩ := Int.eq_ofNat_of_zero_le (le_of_lt hh)
  have hnat : (w : Int) * h * 3 = (3 * w * h : Nat) := by push_cast; ring
  rw [hout, hnat]
  constructor
  · intro hdec
    have := size_of_decodes hdec
    simp only [Int.toNat_natCast] at this
    omega
  · intro hlt
    have hwrap : ∀ n : Nat, n ≤ 3 * w * h + h → wrap64 (n : Int) = n := fun n hn =>
      wrap64_natCast (lt_of_le_of_lt hn (by exact_mod_cast hlt))
    have h1 : wrap64 ((w : Int) * h) = (w * h : Nat) := by
      rw [← hwrap (w * h) (by rw [mul_assoc]; omega), cast_mul]
    have h2 : wrap64 ((w * h : Nat) * 3) = (3 * w * h : Nat) := by
      have hneed : ((w * h : Nat) : Int) * 3 = (3 * w * h : Nat) := by push_cast; ring
      rw [hneed, hwrap (3 * w * h) (le_add_right _ _)]
    have h3 : wrap64 ((3 * w * h : Nat) + (h : Int)) = (3 * w * h + h : Nat) := by
      rw [← hwrap (3 * w * h + h) (le_refl _), cast_add]
    rw [h1, h2] at hlen
    rw [h1, h2, h3] at hsize
    exact pngFile_decodes (by exact_mod_cast hlen) (by exact_mod_cast hsize) (by exact_mod_cast hh)
      (by exact_mod_cast hw)

theorem png_decodes_iff_pixel : pngEncode 1 1 [211, 30, 30] ≠ [] ∧
    Decodes (pngEncode 1 1 [211, 30, 30]) 1 1 [211, 30, 30] := by
  have hacc : pngEncode 1 1 [211, 30, 30] ≠ [] := by decide +kernel
  exact ⟨hacc, (png_decodes_iff 1 1 [211, 30, 30] hacc).mpr (by decide)⟩

/-- Four rows of 2^62 pixels need 3 * 2^64 bytes, which is 0: the image is accepted without a single pixel. -/
theorem png_size_wraps :
    pngEncode (2 ^ 62) 4 [] ≠ [] ∧ ¬ Decodes (pngEncode (2 ^ 62) 4 []) (2 ^ 62) 4 [] := by
  have hneed : wrap64 (wrap64 (2 ^ 62 * 4) * 3) = 0 := by decide +kernel
  have hsize : ¬ wrap64 (0 + 4) > 65535 := by decide +kernel
  have hfile : pngEncode (2 ^ 62) 4 [] = pngFile (2 ^ 62) 4 (scanAll (2 ^ 62) 4 []) := by
    have hpos : ¬ ((2 : Int) ^ 62 ≤ 0 ∨ (4 : Int) ≤ 0) := by decide +kernel
    have hlen : ¬ Vec.len ([] : Bytes) < 0 := by decide
    have hw : ((2 : Int) ^ 62).toNat = 2 ^ 62 := by decide +kernel
    rw [pngEncode, if_neg hpos, hneed, if_neg hlen, if_neg hsize, hw]
    rfl
  rw [hfile]
  refine ⟨?_, fun hdec => ?_⟩
  · rw [pngFile_eq]
    exact cons_ne_nil _ _
  · have hle := size_of_decodes hdec
    revert hle
    decide +kernel

end Vyb.Stdlib
