/-
  Subject:   The signature layer over hash chains (`stdlib/chain/mod.vyb`, `signed_*`), with the Ed25519
             functions of the runtime (`runtime/vyb_runtime.c`).

  Keys and signatures cross the runtime as hexadecimal texts; what is no such text of the right length is
  refused before the primitives see it. `Ed25519` is these primitives, on bytes.

  * `Signs E seed` -- what is assumed of a seed: its signatures verify under its public key. For 64
    hexadecimal digits this is the law of the primitives (`signs_of_isSeed`);
  * `append_verifies` -- an append keeps a chain that verifies;
  * `Signed` -- the invariant of a signed chain, with the seed that is current; `Signed.append` -- an append
    keeps it, with the same key or with another one that the current seed authorises;
  * **`built_chains_verify`** -- every history of appends and rotations verifies.
-/
import Vyb.Collections.Vec
import Vyb.Stdlib.Chain

namespace Vyb.Stdlib

open Lib Vyb.Runtime Str Collections List Vec Option

/-! ## 1. Ed25519 -/

/-- The primitives, on a seed of 32 bytes, a public key of 32 bytes and a signature of 64 bytes. -/
structure Ed25519 where
  publicKey : Str → Str
  sign : Str → Str → Str
  verify : Str → Str → Str → Bool

/-- `vyb_hex_nibble` -/
def hexNibble (c : UInt8) : Option Nat :=
  if 48 ≤ c ∧ c ≤ 57 then some (c.toNat - 48)
  else if 97 ≤ c ∧ c ≤ 102 then some (c.toNat - 97 + 10)
  else if 65 ≤ c ∧ c ≤ 70 then some (c.toNat - 65 + 10)
  else none

/-- `vyb_hex_decode` -/
def hexDecode : Str → Option Str
  | [] => some []
  | [_] => none
  | h :: l :: rest => do
    let hi ← hexNibble h
    let lo ← hexNibble l
    let out ← hexDecode rest
    some (UInt8.ofNat (hi * 16 + lo) :: out)

/-- The digits of `vyb_hex_encode`. -/
def hexDigit (n : Nat) : UInt8 := UInt8.ofNat (if n < 10 then 48 + n else 87 + n)

def hexEncode (data : Str) : Str := data.flatMap fun b => [hexDigit (b.toNat / 16), hexDigit (b.toNat % 16)]

section Runtime

variable (E : Ed25519)

/-- The empty String stands for a failure. -/
def ed25519Publickey (seed : Str) : Str :=
  if seed.length ≠ 64 then []
  else match hexDecode seed with
    | some raw => hexEncode (E.publicKey raw)
    | none => []

def ed25519Sign (seed message : Str) : Str :=
  if seed.length ≠ 64 then []
  else match hexDecode seed with
    | some raw => hexEncode (E.sign raw message)
    | none => []

def ed25519Verify (publicKey message signature : Str) : Bool :=
  if publicKey.length ≠ 64 ∨ signature.length ≠ 128 then false
  else match hexDecode publicKey, hexDecode signature with
    | some key, some sig => E.verify key message sig
    | _, _ => false

end Runtime

/-- A signature that is made with the seed verifies under its public key. -/
def Signs (E : Ed25519) (seed : Str) : Prop :=
  ∀ message, ed25519Verify E (ed25519Publickey E seed) message (ed25519Sign E seed message) = true

/-- The laws of the primitives. -/
structure Ed25519.Lawful (E : Ed25519) : Prop where
  publicKey_length : ∀ seed, (E.publicKey seed).length = 32
  sign_length : ∀ seed message, (E.sign seed message).length = 64
  verify_sign : ∀ seed message, seed.length = 32 →
    E.verify (E.publicKey seed) message (E.sign seed message) = true

/-- 64 hexadecimal digits. -/
def IsSeed (seed : Str) : Prop := seed.length = 64 ∧ ∀ c ∈ seed, (hexNibble c).isSome

theorem hexNibble_hexDigit : ∀ n < 16, hexNibble (hexDigit n) = some n := by decide +kernel

theorem hexEncode_cons (b : UInt8) (data : Str) :
    hexEncode (b :: data) = hexDigit (b.toNat / 16) :: hexDigit (b.toNat % 16) :: hexEncode data := rfl

theorem length_hexEncode (data : Str) : (hexEncode data).length = 2 * data.length := by
  induction data with
  | nil => rfl
  | cons b data ih =>
    rw [hexEncode_cons, length_cons, length_cons, length_cons, ih]
    omega

theorem hexDecode_hexEncode (data : Str) : hexDecode (hexEncode data) = some data := by
  induction data with
  | nil => rfl
  | cons b data ih =>
    have hb := b.toNat_lt
    have hsum : b.toNat / 16 * 16 + b.toNat % 16 = b.toNat := by omega
    rw [hexEncode_cons, hexDecode, hexNibble_hexDigit _ (by omega), hexNibble_hexDigit _ (by omega), ih]
    simp only [bind_eq_bind, bind_some, hsum, UInt8.ofNat_toNat]

theorem hexDecode_isSome : ∀ {s : Str}, s.length % 2 = 0 → (∀ c ∈ s, (hexNibble c).isSome) →
    ∃ raw, hexDecode s = some raw ∧ 2 * raw.length = s.length
  | [], _, _ => ⟨[], rfl, rfl⟩
  | [_], heven, _ => by simp at heven
  | h :: l :: rest, heven, hhex => by
    obtain ⟨hi, hhi⟩ := isSome_iff_exists.mp (hhex h (by simp))
    obtain ⟨lo, hlo⟩ := isSome_iff_exists.mp (hhex l (by simp))
    obtain ⟨out, hout, hlen⟩ := @hexDecode_isSome rest (by simp only [length_cons] at heven; omega)
      (fun c hc => hhex c (by simp [hc]))
    refine ⟨UInt8.ofNat (hi * 16 + lo) :: out, ?_, by simp only [length_cons]; omega⟩
    simp [hexDecode, hhi, hlo, hout]

/-- **What is assumed of a seed holds for every 64 hexadecimal digits**, whatever their case. -/
theorem signs_of_isSeed {E : Ed25519} (L : E.Lawful) {seed : Str} (h : IsSeed seed) : Signs E seed := by
  obtain ⟨raw, hraw, hlen⟩ := hexDecode_isSome (by rw [h.1]) h.2
  rw [h.1] at hlen
  intro message
  have hkey : ed25519Publickey E seed = hexEncode (E.publicKey raw) := by
    rw [ed25519Publickey, if_neg (not_not.mpr h.1), hraw]
  have hsig : ed25519Sign E seed message = hexEncode (E.sign raw message) := by
    rw [ed25519Sign, if_neg (not_not.mpr h.1), hraw]
  have hlens : ¬ ((hexEncode (E.publicKey raw)).length ≠ 64 ∨
      (hexEncode (E.sign raw message)).length ≠ 128) := by
    rw [length_hexEncode, length_hexEncode, L.publicKey_length, L.sign_length]
    omega
  rw [hkey, hsig, ed25519Verify, if_neg hlens, hexDecode_hexEncode, hexDecode_hexEncode]
  exact L.verify_sign raw message (by omega)

/-! ## 2. Signed chains -/

structure SignedChain where
  chain : Chain
  signers : Vec Str
  sigs : Vec Str
  rotations : Vec Str
  deriving DecidableEq, Repr

instance instInhabitedChainBlock : Inhabited ChainBlock := ⟨⟨0, [], [], [], []⟩⟩

section Code

variable (sha : Str → Str) (E : Ed25519)

def signedGenesis (origin : Str) (records : List Record) (seed : Str) : SignedChain :=
  let c := newChain sha origin records
  let h := (Vec.get c.blocks 0).hash
  { chain := c
    signers := [ed25519Publickey E seed]
    sigs := [ed25519Sign E seed (h ++ ascii "|")]
    rotations := [[]] }

def signedAppend (sc : SignedChain) (records : List Record) (seed oldSeed : Str) : SignedChain :=
  let c := sc.chain
  let idx := Vec.len c.blocks
  let prev := if idx > 0 then (Vec.get c.blocks (idx - 1)).hash else c.origin
  let b := sealBlock sha idx prev records
  let prevSigner := if idx > 0 then sc.signers.get (idx - 1) else []
  let signer := ed25519Publickey E seed
  let sig := ed25519Sign E seed (b.hash ++ ascii "|" ++ prevSigner)
  let rotation := if idx > 0 ∧ signer ≠ prevSigner then ed25519Sign E oldSeed (ascii "rotate:" ++ signer)
    else []
  { chain := { c with blocks := Vec.push c.blocks b }
    signers := sc.signers.push signer
    sigs := sc.sigs.push sig
    rotations := sc.rotations.push rotation }

/-- One round of the loop of `signed_verify`. -/
def signedAt (sc : SignedChain) (i : Int) : Bool :=
  let b := Vec.get sc.chain.blocks i
  let prevSigner := if i > 0 then sc.signers.get (i - 1) else []
  if !ed25519Verify E (sc.signers.get i) (b.hash ++ ascii "|" ++ prevSigner) (sc.sigs.get i) then false
  else if i > 0 ∧ sc.signers.get i ≠ sc.signers.get (i - 1) then
    let rot := sc.rotations.get i
    if rot.length ≠ 128 then false
    else ed25519Verify E (sc.signers.get (i - 1)) (ascii "rotate:" ++ sc.signers.get i) rot
  else sc.rotations.get i == []

def signedVerify (sc : SignedChain) (registryPub : Str) : Bool :=
  if !verify sha sc.chain then false
  else
    let n := sc.chain.blocks.length
    if sc.signers.length ≠ n ∨ sc.sigs.length ≠ n ∨ sc.rotations.length ≠ n then false
    else if n = 0 then false
    else if sc.signers.get 0 ≠ registryPub then false
    else (List.range n).all fun i => signedAt E sc i

end Code

/-! ## 3. The chain below -/

section Built

variable {sha : Str → Str}

theorem newChain_verifies (origin : Str) (records : List Record) :
    verify sha (newChain sha origin records) = true :=
  (verify_iff sha _).mpr ⟨⟨rfl, rfl, rfl⟩, rfl, trivial⟩

/-- An append seals its block behind the last one. -/
theorem append_verifies {c : Chain} (h : verify sha c = true) (records : List Record) :
    verify sha (append sha c records) = true := by
  rw [verify_iff] at h ⊢
  refine linked_concat.mpr ⟨h, ⟨?_, rfl, rfl⟩, ?_⟩
  · simp [sealBlock]
  · cases hlast : c.blocks.getLast? with
    | none | some b => rfl

theorem signedAppend_chain (E : Ed25519) (sc : SignedChain) (records : List Record) (seed oldSeed : Str) :
    (signedAppend sha E sc records seed oldSeed).chain = append sha sc.chain records := by
  obtain ⟨⟨origin, blocks⟩, _, _, _⟩ := sc
  rcases eq_nil_or_concat blocks with rfl | ⟨bs, b, rfl⟩
  · rfl
  · have hidx : len (bs ++ [b]) - 1 = (bs.length : Int) := by simp [len]
    have hget : get (bs ++ [b]) (bs.length : Int) = b := get_push_self bs b
    have hpos : len (bs ++ [b]) > 0 := by
      omega
    simp only [concat_eq_append]
    simp only [signedAppend, append, hpos, ↓reduceIte, hidx, hget, getLast?_concat]
    rfl

end Built

/-! ## 4. Signatures -/

section Signed

variable {sha : Str → Str} {E : Ed25519}

theorem length_of_verify {key message sig : Str} (h : ed25519Verify E key message sig = true) :
    sig.length = 128 := by
  by_contra hne
  rw [ed25519Verify, if_pos (.inr hne)] at h
  cases h

/-- The invariant of a signed chain whose current seed is `seed`. -/
structure Signed (sha : Str → Str) (E : Ed25519) (registryPub seed : Str) (sc : SignedChain) : Prop where
  verified : verify sha sc.chain = true
  nonempty : 0 < sc.chain.blocks.length
  signers : sc.signers.length = sc.chain.blocks.length
  sigs : sc.sigs.length = sc.chain.blocks.length
  rotations : sc.rotations.length = sc.chain.blocks.length
  first : sc.signers.get 0 = registryPub
  current : sc.signers.get ((sc.chain.blocks.length - 1 : Nat) : Int) = ed25519Publickey E seed
  signed : ∀ i : Nat, i < sc.chain.blocks.length → signedAt E sc i = true

variable {registryPub seed : Str} {sc : SignedChain}

theorem Signed.signedVerify (S : Signed sha E registryPub seed sc) :
    signedVerify sha E sc registryPub = true := by
  have hne : ¬ (sc.signers.length ≠ sc.chain.blocks.length ∨ sc.sigs.length ≠ sc.chain.blocks.length ∨
      sc.rotations.length ≠ sc.chain.blocks.length) := by
    simp [S.signers, S.sigs, S.rotations]
  have hpos := S.nonempty
  simp only [Stdlib.signedVerify, S.verified, Bool.not_true, Bool.false_eq_true, ↓reduceIte]
  rw [if_neg hne, if_neg (by omega), if_neg (not_not.mpr S.first)]
  simpa using S.signed

/-- What one round asks for: a signature, and a rotation that the signer before has made, or none. -/
theorem signedAt_intro {i : Int}
    (hsig : ed25519Verify E (sc.signers.get i) ((Vec.get sc.chain.blocks i).hash ++ ascii "|" ++
      if i > 0 then sc.signers.get (i - 1) else []) (sc.sigs.get i) = true)
    (hrotated : i > 0 ∧ sc.signers.get i ≠ sc.signers.get (i - 1) →
      ed25519Verify E (sc.signers.get (i - 1)) (ascii "rotate:" ++ sc.signers.get i) (sc.rotations.get i) =
        true) (hkept : ¬ (i > 0 ∧ sc.signers.get i ≠ sc.signers.get (i - 1)) → sc.rotations.get i = []) :
    signedAt E sc i = true := by
  simp only [signedAt, hsig, Bool.not_true, Bool.false_eq_true, ↓reduceIte]
  by_cases h : i > 0 ∧ sc.signers.get i ≠ sc.signers.get (i - 1)
  · rw [if_pos h, if_neg (not_not.mpr (length_of_verify (hrotated h)))]
    exact hrotated h
  · rw [if_neg h, hkept h]
    rfl

theorem signed_genesis (hseed : Signs E seed) (origin : Str) (records : List Record) :
    Signed sha E (ed25519Publickey E seed) seed (signedGenesis sha E origin records seed) where
  verified := newChain_verifies origin records
  nonempty := Nat.one_pos
  signers := rfl
  sigs := rfl
  rotations := rfl
  first := rfl
  current := rfl
  signed i hi := by
    obtain rfl : i = 0 := Nat.lt_one_iff.mp hi
    refine signedAt_intro ?_ (fun h => absurd h.1 (by simp)) (fun _ => rfl)
    rw [if_neg (by simp), append_nil]
    exact hseed _

variable (S : Signed sha E registryPub seed sc)
include S

variable (records : List Record)

/-- The rounds of the blocks that were there before. -/
theorem signedAt_append (seed' oldSeed : Str)
    {i : Nat} (hi : i < sc.chain.blocks.length) :
    signedAt E (signedAppend sha E sc records seed' oldSeed) i = signedAt E sc i := by
  have hblock := fun b => get_push_lt sc.chain.blocks b hi
  have hsigner := fun s => get_push_lt sc.signers s (n := i) (by rw [S.signers]; exact hi)
  have hsig := fun s => get_push_lt sc.sigs s (n := i) (by rw [S.sigs]; exact hi)
  have hrot := fun s => get_push_lt sc.rotations s (n := i) (by rw [S.rotations]; exact hi)
  have hbefore : (i : Int) > 0 → ∀ s, get (push sc.signers s) ((i : Int) - 1) =
      get sc.signers ((i : Int) - 1) := by
    intro hpos s
    have hpred : (i : Int) - 1 = ((i - 1 : Nat) : Int) := by omega
    rw [hpred]
    exact get_push_lt sc.signers s (by rw [S.signers]; omega)
  simp only [signedAt, signedAppend, hblock, hsigner, hsig, hrot]
  by_cases hpos : (i : Int) > 0
  · simp only [hpos, hbefore hpos]
  · simp only [hpos, ↓reduceIte, false_and]

variable {seed' oldSeed : Str} (hseed : Signs E seed) (hseed' : Signs E seed')
  (hold : ed25519Publickey E seed' ≠ ed25519Publickey E seed → oldSeed = seed)
include hseed hseed' hold

theorem signedAt_last : signedAt E (signedAppend sha E sc records seed' oldSeed) sc.chain.blocks.length = true := by
  have hpos : (sc.chain.blocks.length : Int) > 0 := by
    have := S.nonempty
    omega
  have hpred : (sc.chain.blocks.length : Int) - 1 = ((sc.chain.blocks.length - 1 : Nat) : Int) := by omega
  -- what stands at the last place and at the one before it
  have hblock := fun b => get_push_self sc.chain.blocks b
  have hsigner := fun s => get_push_self sc.signers s
  have hsig := fun s => get_push_self sc.sigs s
  have hrot := fun s => get_push_self sc.rotations s
  rw [S.signers] at hsigner
  rw [S.sigs] at hsig
  rw [S.rotations] at hrot
  have hbefore : ∀ s, get (push sc.signers s) ((sc.chain.blocks.length - 1 : Nat) : Int) =
      ed25519Publickey E seed := fun s =>
    (get_push_lt sc.signers s (by rw [S.signers]; omega)).trans S.current
  apply signedAt_intro
  · simp only [signedAppend, len, hblock, hsigner, hsig, if_pos hpos, hpred, hbefore, S.current]
    exact hseed' _
  · simp only [signedAppend, len, hsigner, hrot, hpos, hpred, hbefore, S.current, true_and, ↓reduceIte]
    intro hne
    rw [if_pos hne, hold hne]
    exact hseed _
  · simp only [signedAppend, len, hsigner, hrot, hpos, hpred, hbefore, S.current, true_and, ↓reduceIte]
    intro heq
    rw [if_neg heq]

attribute [local simp] signedAppend Vec.push

/-- **An append**, with the current key or with one that the current seed authorises. -/
theorem Signed.append : Signed sha E registryPub seed' (signedAppend sha E sc records seed' oldSeed) := by
  have hpos := S.nonempty
  have hlen : (signedAppend sha E sc records seed' oldSeed).chain.blocks.length =
      sc.chain.blocks.length + 1 := by simp
  refine ⟨?_, by omega, ?_, ?_, ?_, ?_, ?_, ?_⟩
  · rw [signedAppend_chain]
    exact append_verifies S.verified records
  · rw [hlen, ← S.signers]
    simp
  · rw [hlen, ← S.sigs]
    simp
  · rw [hlen, ← S.rotations]
    simp
  · exact (get_push_lt sc.signers _ (n := 0) (by rw [S.signers]; exact hpos)).trans S.first
  · rw [hlen, Nat.add_sub_cancel, ← S.signers]
    exact get_push_self _ _
  · intro i hi
    rw [hlen] at hi
    rcases Nat.lt_succ_iff_lt_or_eq.mp hi with hi | rfl
    · rw [signedAt_append S records seed' oldSeed hi]
      exact S.signed i hi
    · exact signedAt_last S records hseed hseed' hold

end Signed

/-! ## 5. Histories -/

/-- The arguments of one `signed_append`. -/
structure SignedStep where
  records : List Record
  seed : Str
  oldSeed : Str
  deriving DecidableEq, Repr

/-- Every seed signs, and where the key changes the current seed authorises it. -/
def Authorised (E : Ed25519) : Str → List SignedStep → Prop
  | _, [] => True
  | seed, s :: steps =>
    Signs E s.seed ∧ (ed25519Publickey E s.seed ≠ ed25519Publickey E seed → s.oldSeed = seed) ∧
      Authorised E s.seed steps

section Histories

variable (sha : Str → Str) (E : Ed25519)

/-- A chain from its genesis on. -/
def build (origin : Str) (records : List Record) (history : List (List Record)) : Chain :=
  history.foldl (append sha) (newChain sha origin records)

def signedBuild (origin : Str) (records : List Record) (seed : Str) (history : List SignedStep) :
    SignedChain :=
  history.foldl (fun sc s => signedAppend sha E sc s.records s.seed s.oldSeed)
    (signedGenesis sha E origin records seed)

variable {sha E}

theorem foldl_append_verifies : ∀ (history : List (List Record)) {c : Chain}, verify sha c = true →
    verify sha (history.foldl (append sha) c) = true
  | [], _, h => h
  | records :: history, _, h => foldl_append_verifies history (append_verifies h records)

theorem Signed.foldl {registryPub : Str} : ∀ (history : List SignedStep) {seed : Str} {sc : SignedChain},
    Signed sha E registryPub seed sc → Signs E seed → Authorised E seed history →
    ∃ last, Signed sha E registryPub last
      (history.foldl (fun sc s => signedAppend sha E sc s.records s.seed s.oldSeed) sc)
  | [], seed, _, S, _, _ => ⟨seed, S⟩
  | s :: history, _, _, S, hseed, ⟨hs, hold, hrest⟩ =>
    Signed.foldl history (S.append s.records hseed hs hold) hs hrest

/-- **Built chains verify**: every sequence of appends, and every history of signed appends and rotations
in which each rotation is authorised with the seed that is current. -/
theorem built_chains_verify (sha : Str → Str) (E : Ed25519) :
    (∀ origin records history, verify sha (build sha origin records history) = true) ∧
    ∀ origin records seed history, Signs E seed → Authorised E seed history →
      signedVerify sha E (signedBuild sha E origin records seed history) (ed25519Publickey E seed) = true := by
  refine ⟨fun origin records history => ?_, fun origin records seed history hseed hauth => ?_⟩
  · exact foldl_append_verifies history (newChain_verifies origin records)
  · obtain ⟨last, S⟩ := Signed.foldl history (@signed_genesis sha E seed hseed origin records) hseed hauth
    exact S.signedVerify

end Histories

/-- Primitives that take everything for a signature. -/
def lenient : Ed25519 := ⟨id, fun _ _ => List.replicate 64 0, fun _ _ _ => true⟩

theorem signs_lenient {seed : Str} (hlen : seed.length = 64) (h : (hexDecode seed).map hexEncode = some seed) :
    Signs lenient seed := by
  obtain ⟨raw, hraw, hback⟩ := map_eq_some_iff.mp h
  intro message
  simp only [ed25519Publickey, ed25519Sign, lenient, hlen, ne_eq, not_true_eq_false, ↓reduceIte, hraw, id_eq,
    hback, ed25519Verify, false_or, length_hexEncode, length_replicate, hexDecode_hexEncode]

/-- Two seeds: `00…0` and `11…1`. -/
def zeroSeed : Str := List.replicate 64 48

def oneSeed : Str := List.replicate 64 49

/-- An append, a rotation and an append with the new key. -/
theorem built_chains_verify_rotated :
    signedVerify id lenient (signedBuild id lenient (ascii "o") [] zeroSeed
      [⟨[⟨ascii "a", ascii "1"⟩], zeroSeed, []⟩, ⟨[], oneSeed, zeroSeed⟩, ⟨[], oneSeed, []⟩])
      (ed25519Publickey lenient zeroSeed) = true :=
  have hzero : Signs lenient zeroSeed := signs_lenient rfl (by decide +kernel)
  have hone : Signs lenient oneSeed := signs_lenient rfl (by decide +kernel)
  (built_chains_verify id lenient).2 _ _ _ _ hzero
    ⟨hzero, fun h => absurd rfl h, hone, fun _ => rfl, hone, fun h => absurd rfl h, trivial⟩

/-! ## 6. Checkpoints -/

section Checkpoints

variable (E : Ed25519)

def checkpointText (tip : Str) (seq : Int) : Str := ascii "checkpoint:" ++ ofInt seq ++ ascii ":" ++ tip

def signCheckpoint (tip : Str) (seq : Int) (seed : Str) : Str := ed25519Sign E seed (checkpointText tip seq)

def verifyCheckpoint (tip : Str) (seq : Int) (registryPub sig : Str) : Bool :=
  ed25519Verify E registryPub (checkpointText tip seq) sig

/-- The current tip, with the number of blocks. -/
def chainCheckpoint (sc : SignedChain) (seed : Str) : Str :=
  signCheckpoint E (tipHash sc.chain) (Vec.len sc.chain.blocks) seed

end Checkpoints

end Vyb.Stdlib
