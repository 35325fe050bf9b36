/-
  Subject:   Hash chains (`stdlib/chain/mod.vyb`): `new_chain`, `append`, `verify`.

  `sha` stands for `sha256`, which yields 64 hexadecimal digits. No function with such values is injective
  on all texts; what is assumed is that it does not collide on the texts that the chains at hand hash.

  * `verify_iff` -- `verify` is that every block is sealed and linked;
  * `blockText_inj`, `rootText_inj` -- the texts that are hashed for a block determine what they are made of;
    the text of a record does not, if there is a `=` in it;
  * **`tamper_evident_iff`** -- the last hash of a chain determines its blocks exactly if no label and no
    value has a `=`;
  * `equals_sign_moves` -- two chains with one last hash.
-/
import Vyb.Lib.HashChain
import Vyb.Lib.Search
import Vyb.Runtime.Sha

namespace Vyb.Stdlib

open Lib Vyb.Runtime Str List

/-! ## 1. The code -/

structure Record where
  label : Str
  value : Str
  deriving DecidableEq, Repr

structure ChainBlock where
  index : Int
  prevHash : Str
  root : Str
  hash : Str
  records : List Record
  deriving DecidableEq, Repr

structure Chain where
  origin : Str
  blocks : List ChainBlock
  deriving DecidableEq, Repr

/-- What is hashed for a record, -/
def recordText (r : Record) : Str := r.label ++ ascii "=" ++ r.value

/-- and for a block. -/
def blockText (index : Int) (prev root : Str) : Str :=
  ofInt index ++ ascii "|" ++ prev ++ ascii "|" ++ root

section Hashed

variable (sha : Str → Str)

def recordDigest (r : Record) : Str := sha (recordText r)

/-- The loop of `block_root`, before its result is hashed. -/
def rootText (records : List Record) : Str :=
  records.foldl (fun acc r => acc ++ recordDigest sha r) (sha [])

def blockRoot (records : List Record) : Str := sha (rootText sha records)

def blockHash (index : Int) (prev root : Str) : Str := sha (blockText index prev root)

/-- The block that seals `records` at a place behind `prev`. -/
def sealBlock (index : Int) (prev : Str) (records : List Record) : ChainBlock :=
  let root := blockRoot sha records
  { index, prevHash := prev, root, hash := blockHash sha index prev root, records }

def newChain (origin : Str) (records : List Record) : Chain := ⟨origin, [sealBlock sha 0 origin records]⟩

def tipHash (chain : Chain) : Str :=
  match chain.blocks.getLast? with
  | none => ascii "EMPTY"
  | some b => b.hash

def append (chain : Chain) (records : List Record) : Chain :=
  let prev := match chain.blocks.getLast? with
    | none => chain.origin
    | some b => b.hash
  { chain with blocks := chain.blocks ++ [sealBlock sha chain.blocks.length prev records] }

/-- The loop of `verify`, from place `i` on; `expPrev` is the hash before it, or the origin. -/
def verifyFrom : Str → Int → List ChainBlock → Bool
  | _, _, [] => true
  | expPrev, i, b :: blocks =>
    if b.prevHash ≠ expPrev then false
    else if b.index ≠ i then false
    else if b.root ≠ blockRoot sha b.records then false
    else if b.hash ≠ blockHash sha b.index b.prevHash b.root then false
    else verifyFrom b.hash (i + 1) blocks

def verify (chain : Chain) : Bool := verifyFrom sha chain.origin 0 chain.blocks

/-! ## 2. What `verify` checks -/

/-- The block at place `n` has its index, its root and its hash. -/
structure Sealed (n : Nat) (b : ChainBlock) : Prop where
  index : b.index = n
  root : b.root = blockRoot sha b.records
  hash : b.hash = blockHash sha b.index b.prevHash b.root

theorem verifyFrom_iff : ∀ (bs : List ChainBlock) (p : Str) (n : Nat),
    verifyFrom sha p n bs = true ↔ Linked (Sealed sha) ChainBlock.prevHash ChainBlock.hash p n bs
  | [], _, _ => by simp [verifyFrom, Linked]
  | b :: bs, p, n => by
    have ih := verifyFrom_iff bs b.hash (n + 1)
    rw [Nat.cast_succ] at ih
    rw [verifyFrom, Linked, ← ih]
    split_ifs with hprev hindex hroot hhash
    · exact iff_of_false id fun h => hprev h.2.1
    · exact iff_of_false id fun h => hindex h.1.index
    · exact iff_of_false id fun h => hroot h.1.root
    · exact iff_of_false id fun h => hhash h.1.hash
    · simp only [ne_eq, not_not] at hprev hindex hroot hhash
      exact ⟨fun h => ⟨⟨hindex, hroot, hhash⟩, hprev, h⟩, fun h => h.2.2⟩

/-- **`verify`**: every block is sealed at its place, and linked to the one before it. -/
theorem verify_iff (c : Chain) :
    verify sha c = true ↔ Linked (Sealed sha) ChainBlock.prevHash ChainBlock.hash c.origin 0 c.blocks :=
  verifyFrom_iff sha c.blocks c.origin 0

end Hashed

/-! ## 3. The texts that are hashed -/

/-- `sha256`: 64 lower-case hexadecimal digits. -/
structure Digest (sha : Str → Str) : Prop where
  length : ∀ s, (sha s).length = 64
  hex : ∀ s, ∀ c ∈ sha s, 48 ≤ c ∧ c ≤ 57 ∨ 97 ≤ c ∧ c ≤ 102

/-- The hash of the runtime is such a function, as long as there is memory for its text. -/
theorem digest_sha256Hex (A : Allocator) {digest : List UInt8} (hdigest : digest.length = 32)
    (hA : (A.malloc 65).isSome = true) : Digest fun s => (sha256Hex A s digest).getD [] := by
  obtain ⟨m, hm⟩ := Option.isSome_iff_exists.mp hA
  have hsome : ∀ s, sha256Hex A s digest = some ((sha256Hex A s digest).getD []) := fun s => by
    simp [sha256Hex, hm]
  exact ⟨fun s => (sha256Hex_spec hdigest (hsome s)).1, fun s => (sha256Hex_spec hdigest (hsome s)).2⟩

section Texts

variable {sha : Str → Str} (D : Digest sha)

theorem blockText_inj {n : Int} {prev prev' root root' : Str} (hlen : root.length = root'.length)
    (h : blockText n prev root = blockText n prev' root') : prev = prev' ∧ root = root' := by
  obtain ⟨hfront, rfl⟩ := append_inj' h hlen
  have hprev := (append_left_injective _ hfront)
  simp only [append_assoc, append_cancel_left_eq] at hprev
  exact ⟨hprev, rfl⟩

theorem rootText_eq (records : List Record) :
    rootText sha records = sha [] ++ (records.map (recordDigest sha)).flatten := by
  have hfold : ∀ (rs : List Record) (acc : Str), rs.foldl (fun acc r => acc ++ recordDigest sha r) acc =
      acc ++ (rs.map (recordDigest sha)).flatten := by
    intro rs
    induction rs with
    | nil => intro acc; simp
    | cons r rs ih => intro acc; simp [ih]
  exact hfold records (sha [])

/-- Pieces of one length, put one behind the other, can be told apart. -/
theorem flatten_inj {k : Nat} (hk : 0 < k) : ∀ {as bs : List Str}, (∀ a ∈ as, a.length = k) →
    (∀ b ∈ bs, b.length = k) → as.flatten = bs.flatten → as = bs
  | [], [], _, _, _ => rfl
  | [], b :: bs, _, hbs, h => by
    have hb := hbs b mem_cons_self
    have hlen := congrArg length h
    simp only [flatten_cons, flatten_nil, length_append, length_nil] at hlen
    omega
  | a :: as, [], has, _, h => by
    have ha := has a mem_cons_self
    have hlen := congrArg length h
    simp only [flatten_cons, flatten_nil, length_append, length_nil] at hlen
    omega
  | a :: as, b :: bs, has, hbs, h => by
    have hlen : a.length = b.length := by
      rw [has a mem_cons_self, hbs b mem_cons_self]
    obtain ⟨rfl, htail⟩ := append_inj h hlen
    rw [flatten_inj hk (fun x hx => has x (mem_cons_of_mem a hx))
      (fun x hx => hbs x (mem_cons_of_mem a hx)) htail]

include D in
theorem rootText_inj {rs rs' : List Record} (h : rootText sha rs = rootText sha rs') :
    rs.map (recordDigest sha) = rs'.map (recordDigest sha) := by
  rw [rootText_eq, rootText_eq, append_cancel_left_eq] at h
  refine flatten_inj (k := 64) (by omega) ?_ ?_ h
  all_goals
    intro d hd
    obtain ⟨r, -, rfl⟩ := mem_map.mp hd
    exact D.length _

end Texts

/-- The byte `=`. -/
abbrev equalsSign : UInt8 := 61

/-- No `=` in a record. -/
def Record.Plain (r : Record) : Prop := equalsSign ∉ r.label ∧ equalsSign ∉ r.value

instance decPlain (r : Record) : Decidable r.Plain := inferInstanceAs (Decidable (_ ∧ _))

theorem recordText_inj {r r' : Record} (hplain : r.Plain) (h : recordText r' = recordText r) : r' = r := by
  obtain ⟨label, value⟩ := r
  obtain ⟨label', value'⟩ := r'
  obtain ⟨hlabel, hvalue⟩ := hplain
  simp only [recordText, append_assoc] at h
  rcases append_eq_append_iff.mp h with ⟨a, ha, hrest⟩ | ⟨a, ha, hrest⟩
  · -- the other label is shorter: the sign behind it is in the label
    cases a with
    | nil =>
      rw [append_nil] at ha
      obtain rfl : value' = value := by simpa [ascii] using hrest
      rw [ha]
    | cons c a =>
      have hc : equalsSign = c := (cons.inj hrest).1
      rw [show label = label' ++ c :: a from ha, hc] at hlabel
      simp at hlabel
  · -- it is longer: the sign behind it is in the value
    cases a with
    | nil =>
      rw [append_nil] at ha
      obtain rfl : value = value' := by simpa [ascii] using hrest
      rw [ha]
    | cons c a =>
      have hv : value = a ++ (ascii "=" ++ value') := (cons.inj hrest).2
      exact absurd (show equalsSign ∈ value by rw [hv]; simp [ascii]) hvalue

/-! ## 4. The last hash -/

/-- The texts that `verify` hashes for a chain. -/
def hashed (sha : Str → Str) (c : Chain) : Set Str :=
  { s | ∃ b ∈ c.blocks, s = blockText b.index b.prevHash b.root ∨ s = rootText sha b.records ∨
    ∃ r ∈ b.records, s = recordText r }

section Tip

variable {sha : Str → Str} (D : Digest sha) {c c' : Chain}

include D in
/-- Two blocks at one place, one of them without a `=`, that have one hash. -/
theorem sealed_inj {n : Nat} {a b : ChainBlock} (ha : a ∈ c.blocks) (hb : b ∈ c'.blocks)
    (hsa : Sealed sha n a) (hsb : Sealed sha n b) (hinj : Set.InjOn sha (hashed sha c ∪ hashed sha c'))
    (hplain : ∀ r ∈ a.records, r.Plain) (h : a.hash = b.hash) : a = b := by
  have hroots : a.root.length = b.root.length := by
    rw [hsa.root, hsb.root, blockRoot, blockRoot, D.length, D.length]
  have hindex : a.index = b.index := by rw [hsa.index, hsb.index]
  -- the two texts of the blocks
  have htext : blockText a.index a.prevHash a.root = blockText b.index b.prevHash b.root :=
    hinj (.inl ⟨a, ha, .inl rfl⟩) (.inr ⟨b, hb, .inl rfl⟩)
      (by rw [hsa.hash, hsb.hash] at h; exact h)
  rw [hindex] at htext
  obtain ⟨hprev, hroot⟩ := blockText_inj hroots htext
  -- the two texts of the roots
  have hrootText : rootText sha a.records = rootText sha b.records :=
    hinj (.inl ⟨a, ha, .inr (.inl rfl)⟩) (.inr ⟨b, hb, .inr (.inl rfl)⟩)
      (by rw [hsa.root, hsb.root] at hroot; exact hroot)
  have hdigests := rootText_inj D hrootText
  -- and those of the records, one by one
  have hrecords : a.records = b.records := by
    have hlen : a.records.length = b.records.length := by simpa using congrArg List.length hdigests
    refine ext_getElem hlen fun i h1 h2 => ?_
    have hi : sha (recordText a.records[i]) = sha (recordText b.records[i]) := by
      have hget := congrArg (·[i]?) hdigests
      simpa [h1, h2, recordDigest] using hget
    have htexts := hinj (.inl ⟨a, ha, .inr (.inr ⟨_, getElem_mem h1, rfl⟩)⟩)
      (.inr ⟨b, hb, .inr (.inr ⟨_, getElem_mem h2, rfl⟩)⟩) hi
    exact (recordText_inj (hplain _ (getElem_mem h1)) htexts.symm).symm
  obtain ⟨_, _, _, _, _⟩ := a
  obtain ⟨_, _, _, _, _⟩ := b
  simp_all

theorem tipHash_getLast? (hlen : c.blocks.length = c'.blocks.length) (h : tipHash c = tipHash c') :
    c.blocks.getLast?.map ChainBlock.hash = c'.blocks.getLast?.map ChainBlock.hash := by
  unfold tipHash at h
  cases hc : c.blocks.getLast? with
  | none =>
    have hnil : c'.blocks = [] := eq_nil_of_length_eq_zero
      (by rw [← hlen, getLast?_eq_none_iff.mp hc]; rfl)
    rw [hnil]
    rfl
  | some b =>
    cases hc' : c'.blocks.getLast? with
    | none =>
      have hnil : c.blocks = [] := eq_nil_of_length_eq_zero
        (by rw [hlen, getLast?_eq_none_iff.mp hc']; rfl)
      rw [hnil] at hc
      cases hc
    | some b' =>
      rw [hc, hc'] at h
      exact congrArg some h

include D in
/-- **Tamper evidence** for a chain without a `=`. -/
theorem blocks_eq_of_plain (hv : verify sha c = true) (hv' : verify sha c' = true)
    (hlen : c'.blocks.length = c.blocks.length) (htip : tipHash c' = tipHash c)
    (hinj : Set.InjOn sha (hashed sha c ∪ hashed sha c')) (hplain : ∀ b ∈ c.blocks, ∀ r ∈ b.records, r.Plain) :
    c'.blocks = c.blocks :=
  (Linked.commit
    (fun k a ha _ hb hsa hsb h => sealed_inj (n := k) D ha hb hsa hsb hinj (hplain a ha) h)
    ((verify_iff sha c).mp hv) ((verify_iff sha c').mp hv') hlen.symm
    (tipHash_getLast? hlen.symm htip.symm)).symm

end Tip

/-! ## 5. A sign that moves -/

/-- The same text, cut at another `=`. -/
def Record.shift (r : Record) : Record :=
  match cutAt equalsSign r.label with
  | some (a, b) => ⟨a, b ++ ascii "=" ++ r.value⟩
  | none =>
    match cutAt equalsSign r.value with
    | some (a, b) => ⟨r.label ++ ascii "=" ++ a, b⟩
    | none => r

theorem recordText_shift (r : Record) : recordText r.shift = recordText r := by
  unfold Record.shift
  split
  · rename_i a b h
    rw [recordText, recordText, cutAt_eq h]
    simp [ascii]
  · split
    · rename_i a b h
      rw [recordText, recordText, cutAt_eq h]
      simp [ascii]
    · rfl

theorem shift_eq_iff (r : Record) : r.shift = r ↔ r.Plain := by
  have hnone : ∀ {s : Str}, cutAt equalsSign s = none ↔ equalsSign ∉ s := by
    intro s
    simp [cutAt]
  unfold Record.shift
  cases hlabel : cutAt equalsSign r.label with
  | some ab =>
    obtain ⟨a, b⟩ := ab
    have hl := cutAt_eq hlabel
    refine iff_of_false (fun h => ?_) (fun h => h.1 (by rw [hl]; simp))
    have hlen := congrArg (fun r : Record => r.label.length) h
    simp [hl] at hlen
  | none =>
    cases hvalue : cutAt equalsSign r.value with
    | some ab =>
      obtain ⟨a, b⟩ := ab
      refine iff_of_false (fun h => ?_) (fun h => h.2 (by rw [cutAt_eq hvalue]; simp))
      have hlen := congrArg (fun r : Record => r.label.length) h
      simp [ascii] at hlen
    | none => exact iff_of_true rfl ⟨hnone.mp hlabel, hnone.mp hvalue⟩

def ChainBlock.shift (b : ChainBlock) : ChainBlock := { b with records := b.records.map Record.shift }

def Chain.shift (c : Chain) : Chain := { c with blocks := c.blocks.map ChainBlock.shift }

section Shift

variable (sha : Str → Str)

theorem rootText_shift (rs : List Record) : rootText sha (rs.map Record.shift) = rootText sha rs := by
  have hdigest : recordDigest sha ∘ Record.shift = recordDigest sha := by
    funext r
    exact congrArg sha (recordText_shift r)
  rw [rootText_eq, rootText_eq, map_map, hdigest]

theorem verifyFrom_shift : ∀ (bs : List ChainBlock) (p : Str) (i : Int),
    verifyFrom sha p i (bs.map ChainBlock.shift) = verifyFrom sha p i bs
  | [], _, _ => rfl
  | b :: bs, p, i => by
    have hroot : blockRoot sha b.shift.records = blockRoot sha b.records :=
      congrArg sha (rootText_shift sha b.records)
    rw [map_cons, verifyFrom, verifyFrom, hroot, verifyFrom_shift bs b.shift.hash (i + 1)]
    rfl

theorem tipHash_shift (c : Chain) : tipHash c.shift = tipHash c := by
  rw [tipHash, tipHash, Chain.shift, getLast?_map]
  cases c.blocks.getLast? <;> rfl

theorem hashed_shift (c : Chain) : hashed sha c.shift = hashed sha c := by
  ext s
  simp only [hashed, Chain.shift, mem_map, exists_exists_and_eq_and, Set.mem_ofPred_eq]
  refine exists_congr fun b => and_congr_right fun _ => or_congr Iff.rfl (or_congr ?_ ?_)
  · rw [ChainBlock.shift, rootText_shift]
  · simp [ChainBlock.shift, recordText_shift]

end Shift

/-- **Chains and their last hash.** Let `sha` be a digest that does not collide on the texts of a chain that
verifies. Every other chain that verifies, with as many blocks and the same last hash, and without a
collision between the two, has the same blocks, exactly if no label and no value of the chain has a `=`. -/
theorem tamper_evident_iff {sha : Str → Str} (D : Digest sha) {c : Chain} (hv : verify sha c = true)
    (hinj : Set.InjOn sha (hashed sha c)) :
    (∀ c', verify sha c' = true → c'.blocks.length = c.blocks.length → tipHash c' = tipHash c →
      Set.InjOn sha (hashed sha c ∪ hashed sha c') → c'.blocks = c.blocks) ↔
    ∀ b ∈ c.blocks, ∀ r ∈ b.records, r.Plain := by
  constructor
  · intro h b hb r hr
    have hblocks : c.shift.blocks = c.blocks := h c.shift
      ((verifyFrom_shift sha c.blocks c.origin 0).trans hv) (length_map _) (tipHash_shift c)
      (by rwa [hashed_shift, Set.union_self])
    have hb' : b.shift = b := map_inj_left.mp (hblocks.trans (map_id _).symm) b hb
    have hrecords : b.records.map Record.shift = b.records := congrArg ChainBlock.records hb'
    exact (shift_eq_iff r).mp (map_inj_left.mp (hrecords.trans (map_id _).symm) r hr)
  · exact fun hplain c' hv' hlen htip hinj' => blocks_eq_of_plain D hv hv' hlen htip hinj' hplain

/-- A digest that tells a few lengths apart. -/
def lengthDigest (s : Str) : Str := List.replicate 63 48 ++ [UInt8.ofNat (48 + s.length % 8)]

theorem lengthDigest_digest : Digest lengthDigest where
  length _ := rfl
  hex s c hc := by
    have hmod : s.length % 8 < 8 := Nat.mod_lt _ (by omega)
    rcases mem_append.mp hc with hc | hc
    · rw [eq_of_mem_replicate hc]
      decide
    · rw [mem_singleton.mp hc]
      generalize s.length % 8 = k at hmod
      revert k
      decide

/-- No collision, where the texts are those of a list. -/
theorem injOn_of_list {sha : Str → Str} {S : Set Str} (texts : List Str) (hS : ∀ s ∈ S, s ∈ texts)
    (h : ∀ s ∈ texts, ∀ t ∈ texts, sha s = sha t → s = t) : Set.InjOn sha S :=
  fun _ hs _ ht => h _ (hS _ hs) _ (hS _ ht)

theorem hashed_newChain {sha : Str → Str} {origin : Str} {records : List Record} {s : Str}
    (h : s ∈ hashed sha (newChain sha origin records)) :
    s ∈ blockText 0 origin (blockRoot sha records) :: rootText sha records :: records.map recordText := by
  obtain ⟨b, hb, hs⟩ := h
  obtain rfl : b = sealBlock sha 0 origin records := mem_singleton.mp hb
  rcases hs with rfl | rfl | ⟨r, hr, rfl⟩
  · exact mem_cons_self
  · exact mem_cons_of_mem _ mem_cons_self
  · exact mem_cons_of_mem _ (mem_cons_of_mem _ (mem_map_of_mem hr))

/-- A chain of one block with two records. -/
def pairChain : Chain :=
  newChain lengthDigest (ascii "o") [⟨ascii "ab", ascii "cd"⟩, ⟨ascii "abc", ascii "de"⟩]

theorem tamper_evident_iff_pair : verify lengthDigest pairChain = true ∧
    ∀ c', verify lengthDigest c' = true → c'.blocks.length = 1 → tipHash c' = tipHash pairChain →
      Set.InjOn lengthDigest (hashed lengthDigest pairChain ∪ hashed lengthDigest c') →
      c'.blocks = pairChain.blocks :=
  have hv : verify lengthDigest pairChain = true := by decide +kernel
  ⟨hv, (tamper_evident_iff lengthDigest_digest hv
    (injOn_of_list _ (fun _ => hashed_newChain) (by decide +kernel))).mpr (by decide +kernel)⟩

/-- The records `a=b`, `c` and `a`, `b=c`: the chains of them verify, hash the same texts without a
collision and have one last hash. -/
theorem equals_sign_moves :
    verify lengthDigest (newChain lengthDigest (ascii "o") [⟨ascii "a=b", ascii "c"⟩]) = true ∧
    verify lengthDigest (newChain lengthDigest (ascii "o") [⟨ascii "a", ascii "b=c"⟩]) = true ∧
    tipHash (newChain lengthDigest (ascii "o") [⟨ascii "a=b", ascii "c"⟩]) =
      tipHash (newChain lengthDigest (ascii "o") [⟨ascii "a", ascii "b=c"⟩]) ∧
    Set.InjOn lengthDigest (hashed lengthDigest (newChain lengthDigest (ascii "o") [⟨ascii "a=b", ascii "c"⟩]) ∪
      hashed lengthDigest (newChain lengthDigest (ascii "o") [⟨ascii "a", ascii "b=c"⟩])) ∧
    (newChain lengthDigest (ascii "o") [⟨ascii "a=b", ascii "c"⟩]).blocks ≠
      (newChain lengthDigest (ascii "o") [⟨ascii "a", ascii "b=c"⟩]).blocks := by
  refine ⟨by decide +kernel, by decide +kernel, by decide +kernel, ?_, by decide +kernel⟩
  exact injOn_of_list _ (fun s hs => mem_append.mpr (hs.imp hashed_newChain hashed_newChain))
    (by decide +kernel)

end Vyb.Stdlib
