/-
  Subject:   DEFLATE and gzip decoding (`stdlib/archive/mod.vyb`).

  The bit position is handed on from call to call. Past the end of the input every bit reads as 0, because
  `char_at` does; nothing in the decoder asks where the input ends. The `while` loops of the source are
  `Lib.loop`, so `inflateDef` is a computation that may not end. A position is a `Nat`: the bits of a String
  in memory number fewer than 2^63.

  A value that the source reads out of a table is 0 where the index lies outside (`Vec.get`), and a word that
  is in no table is the symbol -1, which is smaller than 256 and 16 and treated accordingly.
-/
import Vyb.Collections.Vec
import Vyb.Lib.Huffman
import Vyb.Lib.While
import Vyb.Runtime.Str

namespace Vyb.Stdlib

open Lib Collections Vyb.Runtime Str List

/-! ## 1. Bits -/

/-- One round of `val_at`: the bit at position `p`. -/
def bitAt (data : Str) (p : Nat) : Nat := (charAt data (p >>> 3) >>> (p &&& 7)) &&& 1

/-- `val_at(data, pos, n)`: the first bit is the lowest. -/
def valAt (data : Str) (pos n : Nat) : Nat :=
  (range n).foldl (fun val k => val ||| (bitAt data (pos + k) <<< k)) 0

/-! ## 2. Huffman codes -/

structure Huff where
  /-- `count[len]` for `len` from 1 to 15 -/
  count : Vec Nat
  /-- the symbols in the order of their words -/
  symbol : Vec Nat

/-- The first loop of `build_huff`. A length that is not positive has no word. -/
def countLengths (lens : Vec Int) : Vec Nat :=
  lens.foldl (fun count ln => if 0 < ln then Vec.set count ln (Vec.get count ln + 1) else count)
    (replicate 16 0)

def buildHuff (lens : Vec Int) : Huff where
  count := countLengths lens
  symbol := (range 15).flatMap fun (k : Nat) => lens.idxsOf ((k + 1 : Nat) : Int)

structure Decode where
  val : Int
  pos : Nat
  deriving DecidableEq, Repr

/-- The rounds of `decode_symbol` from the length `len` on. -/
def decodeFrom (data : Str) (h : Huff) : Nat → Nat → Nat → Nat → Nat → Nat → Decode
  | 0, _, _, _, _, p => ⟨-1, p⟩
  | rounds + 1, len, code, first, index, p =>
    let code := code ||| valAt data p 1
    let cnt := Vec.get h.count len
    if (code : Int) - first < cnt then
      ⟨(Vec.get h.symbol (index + ((code : Int) - first)) : Nat), p + 1⟩
    else decodeFrom data h rounds (len + 1) (code <<< 1) ((first + cnt) <<< 1) (index + cnt) (p + 1)

def decodeSymbol (data : Str) (pos : Nat) (h : Huff) : Decode := decodeFrom data h 15 1 0 0 0 pos

/-! ## 3. The tables -/

def fixedLitLens : Vec Int :=
  let v := replicate 288 0
  let v := (range' 0 144).foldl (fun v (i : Nat) => Vec.set v i 8) v
  let v := (range' 144 112).foldl (fun v (i : Nat) => Vec.set v i 9) v
  let v := (range' 256 24).foldl (fun v (i : Nat) => Vec.set v i 7) v
  (range' 280 8).foldl (fun v (i : Nat) => Vec.set v i 8) v

def fixedDistLens : Vec Int := replicate 32 5

def lenExtraTbl : Vec Nat :=
  [0, 0, 0, 0, 0, 0, 0, 0, 1, 1, 1, 1, 2, 2, 2, 2, 3, 3, 3, 3, 4, 4, 4, 4, 5, 5, 5, 5, 0]

def lenBaseTbl : Vec Nat :=
  [3, 4, 5, 6, 7, 8, 9, 10, 11, 13, 15, 17, 19, 23, 27, 31, 35, 43, 51, 59, 67, 83, 99, 115, 131, 163,
    195, 227, 258]

def distExtraTbl : Vec Nat :=
  [0, 0, 0, 0, 1, 1, 2, 2, 3, 3, 4, 4, 5, 5, 6, 6, 7, 7, 8, 8, 9, 9, 10, 10, 11, 11, 12, 12, 13, 13]

def distBaseTbl : Vec Nat :=
  [1, 2, 3, 4, 5, 7, 9, 13, 17, 25, 33, 49, 65, 97, 129, 193, 257, 385, 513, 769, 1025, 1537, 2049, 3073,
    4097, 6145, 8193, 12289, 16385, 24577]

def codeOrder : Vec Nat := [16, 17, 18, 0, 8, 7, 9, 6, 10, 5, 11, 4, 12, 3, 13, 2, 14, 1, 15]

/-! ## 4. The text of a block -/

/-- Where a loop stands: the bit position and the vector it fills. -/
structure Filled where
  pos : Nat
  out : Vec Int
  deriving DecidableEq, Repr

/-- `for (k in 0..len - 1) { out.push(out.get(n - dist + k)) }` -/
def copyBack (out : Vec Int) (len dist : Nat) : Vec Int :=
  let n := out.length
  (range len).foldl (fun out (k : Nat) => Vec.push out (Vec.get out ((n : Int) - dist + k))) out

/-- A length symbol: its extra bits, the distance symbol and the extra bits of that. -/
def backReference (dh : Huff) (data : Str) (sym : Int) (p : Nat) (out : Vec Int) : Filled :=
  let li := sym - 257
  let len := Vec.get lenBaseTbl li + valAt data p (Vec.get lenExtraTbl li)
  let p := p + Vec.get lenExtraTbl li
  let ds := decodeSymbol data p dh
  let dist := Vec.get distBaseTbl ds.val + valAt data ds.pos (Vec.get distExtraTbl ds.val)
  ⟨ds.pos + Vec.get distExtraTbl ds.val, copyBack out len dist⟩

/-- One round of `decode_run`; symbol 256 leaves the loop. -/
def runBody (lh dh : Huff) (data : Str) (s : Filled) : Filled ⊕ Filled :=
  let d := decodeSymbol data s.pos lh
  if d.val = 256 then .inr ⟨d.pos, s.out⟩
  else if d.val < 256 then .inl ⟨d.pos, Vec.push s.out d.val⟩
  else .inl (backReference dh data d.val d.pos s.out)

def decodeRun (lh dh : Huff) (data : Str) (pos : Nat) (out : Vec Int) : Fueled Filled :=
  loop (fun s => pure (runBody lh dh data s)) ⟨pos, out⟩

/-! ## 5. The head of a block with codes of its own -/

/-- The lengths for the code of the code lengths. -/
def codeLens (src : Str) (bitpos hc : Nat) : Vec Int :=
  (range hc).foldl
    (fun clens (i : Nat) =>
      Vec.set clens (Vec.get codeOrder i : Nat) (valAt src (bitpos + 3 * i) 3 : Nat))
    (replicate 19 0)

/-- One code length, or a repetition. -/
def lengthStep (src : Str) (ch : Huff) (s : Filled) : Filled :=
  let cd := decodeSymbol src s.pos ch
  if cd.val < 16 then ⟨cd.pos, Vec.push s.out cd.val⟩
  else if cd.val = 16 then
    let prev := if 0 < s.out.length then Vec.get s.out ((s.out.length : Int) - 1) else 0
    ⟨cd.pos + 2, s.out ++ replicate (3 + valAt src cd.pos 2) prev⟩
  else if cd.val = 17 then ⟨cd.pos + 3, s.out ++ replicate (3 + valAt src cd.pos 3) 0⟩
  else ⟨cd.pos + 7, s.out ++ replicate (11 + valAt src cd.pos 7) 0⟩

/-- `while (lens.len() < total)` -/
def lengthBody (src : Str) (ch : Huff) (total : Nat) (s : Filled) : Filled ⊕ Filled :=
  if s.out.length < total then .inl (lengthStep src ch s) else .inr s

def readLengths (src : Str) (ch : Huff) (total bitpos : Nat) : Fueled Filled :=
  loop (fun s => pure (lengthBody src ch total s)) ⟨bitpos, []⟩

/-- The two codes of a block, and where its text begins. -/
structure Tables where
  lit : Huff
  dist : Huff
  pos : Nat

/-- The codes that the lengths `lens` are for. -/
def tablesOf (hl hd : Nat) (s : Filled) : Tables where
  lit := buildHuff ((range hl).map fun (i : Nat) => Vec.get s.out i)
  dist := buildHuff ((range hd).map fun (i : Nat) => Vec.get s.out (hl + i : Nat))
  pos := s.pos

def dynamicTables (src : Str) (bitpos : Nat) : Fueled Tables := do
  let hl := valAt src bitpos 5 + 257
  let hd := valAt src (bitpos + 5) 5 + 1
  let hc := valAt src (bitpos + 10) 4 + 4
  let ch := buildHuff (codeLens src (bitpos + 14) hc)
  let s ← readLengths src ch (hl + hd) (bitpos + 14 + 3 * hc)
  return tablesOf hl hd s

/-! ## 6. Blocks -/

/-- A stored block; nothing if the two lengths do not agree. -/
def storedBlock (src : Str) (bitpos : Nat) (out : Vec Int) : Option Filled :=
  let bitpos := (bitpos + 7) / 8 * 8
  let len := valAt src bitpos 16
  let nlen := valAt src (bitpos + 16) 16
  if len ^^^ 0xFFFF ≠ nlen then none
  else some ⟨bitpos + 32 + 8 * len,
    (range len).foldl (fun out (k : Nat) => Vec.push out (valAt src (bitpos + 32 + 8 * k) 8 : Nat)) out⟩

/-- `if (bfinal == 1) { done = true }` -/
def afterBlock (bfinal : Nat) (s : Filled) : Filled ⊕ Vec Int := if bfinal = 1 then .inr s.out else .inl s

/-- One round of `inflate_def`. -/
def blockBody (src : Str) (s : Filled) : Fueled (Filled ⊕ Vec Int) :=
  let bfinal := valAt src s.pos 1
  let btype := valAt src (s.pos + 1) 2
  let bitpos := s.pos + 3
  if btype = 0 then
    match storedBlock src bitpos s.out with
    | none => pure (.inr s.out)
    | some s' => pure (afterBlock bfinal s')
  else if btype = 1 then do
    let s' ← decodeRun (buildHuff fixedLitLens) (buildHuff fixedDistLens) src bitpos s.out
    return afterBlock bfinal s'
  else if btype = 2 then do
    let t ← dynamicTables src bitpos
    let s' ← decodeRun t.lit t.dist src t.pos s.out
    return afterBlock bfinal s'
  else pure (.inr s.out)

def inflateDef (src : Str) : Fueled (Vec Int) := loop (blockBody src) ⟨0, []⟩

/-! ## 7. gzip -/

/-- `if ((crc & 1) != 0) { crc = (crc >> 1) ^ 0xEDB88320 } else { crc = crc >> 1 }` -/
def crcRound (crc : Nat) : Nat :=
  if crc &&& 1 ≠ 0 then (crc >>> 1) ^^^ 0xEDB88320 else crc >>> 1

/-- A byte of the checksum. -/
def crcByte (crc : Nat) (c : UInt8) : Nat := crcRound^[8] (crc ^^^ c.toNat)

def crc32 (data : Str) : Nat := data.foldl crcByte 0xFFFFFFFF ^^^ 0xFFFFFFFF

/-- A round of `join_pieces`: the pieces in pairs. -/
def joinPairs : List Str → List Str
  | a :: b :: p => (a ++ b) :: joinPairs p
  | p => p

theorem length_joinPairs_le : ∀ p, (joinPairs p).length ≤ p.length
  | [] | [_] => le_refl _
  | a :: b :: p => by
    have ih := length_joinPairs_le p
    simp only [joinPairs, length_cons]
    omega

def joinPieces : List Str → Str
  | [] => []
  | [a] => a
  | a :: b :: p => joinPieces (joinPairs (a :: b :: p))
termination_by p => p.length
decreasing_by
  have := length_joinPairs_le p
  simp only [joinPairs, length_cons]
  omega

/-- The pieces of `flat_bytes`, of 64 bytes each but the last. -/
def pieces (buf : Vec Int) : List Str :=
  if buf = [] then []
  else (buf.take 64).flatMap fromByteInt :: pieces (buf.drop 64)
termination_by buf.length
decreasing_by
  have : 0 < buf.length := length_pos_iff.mpr ‹_›
  rw [length_drop]
  omega

def flatBytes (buf : Vec Int) : Str := joinPieces (pieces buf)

/-- `while (pos < n && gz.char_at(pos) != 0) { pos = pos + 1 }; pos = pos + 1` -/
def skipText (gz : Str) (pos : Nat) : Nat :=
  if pos < gz.length ∧ charAt gz pos ≠ 0 then skipText gz (pos + 1) else pos + 1
termination_by gz.length - pos

/-- Four bytes, the lowest first. -/
def littleEndian (gz : Str) (pos : Nat) : Nat :=
  charAt gz pos ||| charAt gz (pos + 1) <<< 8 ||| charAt gz (pos + 2) <<< 16 ||| charAt gz (pos + 3) <<< 24

/-- Where the fields that the flags announce end. -/
def gzipHeader (gz : Str) : Nat :=
  let flg := charAt gz 3
  let pos := 10
  let pos := if flg &&& 4 ≠ 0 then pos + 2 + (charAt gz pos ||| charAt gz (pos + 1) <<< 8) else pos
  let pos := if flg &&& 8 ≠ 0 then skipText gz pos else pos
  let pos := if flg &&& 16 ≠ 0 then skipText gz pos else pos
  if flg &&& 2 ≠ 0 then pos + 2 else pos

/-- The DEFLATE stream inside a gzip file; nothing if the file is refused before it is decoded. -/
def gzipBody (gz : Str) : Option Str :=
  if gz.length < 18 then none
  else if charAt gz 0 ≠ 0x1f ∨ charAt gz 1 ≠ 0x8b then none
  else if charAt gz 2 ≠ 8 then none
  else if gzipHeader gz > gz.length - 8 then none
  else some (gz.substring (gzipHeader gz) ((gz.length : Int) - 8))

def inflateGzip (gz : Str) : Fueled (Option Str) :=
  match gzipBody gz with
  | none => pure none
  | some src => do
    let buf ← inflateDef src
    let out := flatBytes buf
    if crc32 out ≠ littleEndian gz (gz.length - 8) then return none
    else if out.length &&& 0xFFFFFFFF ≠ littleEndian gz (gz.length - 4) then return none
    else return some out

end Vyb.Stdlib
