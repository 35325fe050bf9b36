/-
  Subject:   `HashMap<K, V>` of stdlib/collections/mod.vyb: the operations as the module writes
             them, and what each of them does to the bucket chains.

  Keys and values live in the parallel vectors `keys` / `vals`; `head[b]` is the index of the
  first key of bucket `b` (or -1) and `next[i]` the index of the next key of the same bucket.

  * `put`, `get`, `containsKey`, `size` and the constructors are the source's, over the built-in
    `Vec`. The `while (i != -1)` walk is written three times in the source with the same text;
    it is `probe` here. It has no bound in the source, so `probe` takes fuel and answers `none`
    when the fuel runs out.
  * The constructor's doubling loop runs on 64-bit `Int`s (`wrap64`): for a capacity above 2^62
    it never ends, for every other capacity it does (`constructor_returns_iff`). Vector lengths are not wrapped: no vector holds 2^62 elements.
  * `Indexed n` is the invariant: the chain of every bucket is the list of the bucket's indices
    below `n`, newest first. `indexed_push` carries it over an insertion, `grow_indexed` over
    the re-hash.
-/
import Vyb.Lib.Loop
import Vyb.Lib.KeyedMap
import Vyb.Collections.Vec

namespace Vyb.Collections

open Lib List Vec Nat Int

universe u v

/-- A key type with its `Hashable` and `Equatable` binds: `equals` is an equivalence and equal
    keys hash alike. Hash values are arbitrary, negative ones included. -/
structure KeyType (K : Type u) where
  hash : K → Int
  equals : K → K → Bool
  equals_refl : ∀ a, equals a a = true
  equals_symm : ∀ a b, equals a b = true → equals b a = true
  equals_trans : ∀ a b c, equals a b = true → equals b c = true → equals a c = true
  hash_equals : ∀ a b, equals a b = true → hash a = hash b

namespace KeyType

variable {K : Type u} (A : KeyType K)

def setoid : Setoid K where
  r a b := A.equals a b = true
  iseqv := ⟨A.equals_refl, fun {a b} h => A.equals_symm a b h, fun {a b c} h h' =>
    A.equals_trans a b c h h'⟩

/-- A key up to `equals`: what a map is indexed by. -/
def Class : Type u := Quotient A.setoid

def cls (k : K) : A.Class := Quotient.mk A.setoid k

theorem cls_eq {a b : K} : A.cls a = A.cls b ↔ A.equals a b = true :=
  ⟨fun h => Quotient.exact h, fun h => Quotient.sound h⟩

instance decClass : DecidableEq A.Class :=
  @Quotient.decidableEq K A.setoid
    fun a b => inferInstanceAs (Decidable (A.equals a b = true))

end KeyType

/-- 64-bit two's complement reading of an integer. -/
def wrap64 (x : Int) : Int := x.bmod (2 ^ 64)

theorem wrap64_of_lt {x : Int} (h0 : 0 ≤ x) (h : x < 2 ^ 63) : wrap64 x = x := bmod_eq_of_le (by omega) (by omega)

variable {n : Nat}

theorem wrap64_natCast (h : n < 2 ^ 63) : wrap64 (n : Int) = n :=
  wrap64_of_lt (natCast_nonneg n) (by exact_mod_cast h)

/-- Map an arbitrary (possibly negative) hash onto a bucket index in `[0, nb)`; `%` is `srem`. -/
def bucketFor (h nb : Int) : Int :=
  let b := h.tmod nb
  if b < 0 then b + nb else b

theorem bucketFor_range (h : Int) {nb : Int} (hnb : 0 < nb) : 0 ≤ bucketFor h nb ∧ bucketFor h nb < nb := by
  have h1 : h.tmod nb < nb := tmod_lt_of_pos h hnb
  have h2 : -nb < h.tmod nb := by
    have := tmod_lt_of_pos (-h) hnb
    rw [neg_tmod] at this
    omega
  unfold bucketFor
  simp only
  split <;> omega

structure HashMap (K : Type u) (V : Type v) where
  keys : Vec K
  vals : Vec V
  head : Vec Int
  next : Vec Int
  cap : Int
  fixed : Bool

namespace HashMap

variable {K : Type u} {V : Type v}

/-! ## 1. The operations -/

/-- `while (two < cap) { nb = nb * 2; two = two * 2 }` of the constructor. -/
def sizeLoop (cap : Int) : Nat → Int → Int → Option Int
  | 0, _, _ => none
  | fuel + 1, nb, two =>
    if two < cap then sizeLoop cap fuel (wrap64 (nb * 2)) (wrap64 (two * 2)) else some nb

/-- `constructor(cap, fixed)`. -/
def ofCapFixed (fuel : Nat) (cap : Int) (fixed : Bool) : Option (HashMap K V) :=
  (sizeLoop cap fuel 16 32).map fun nb =>
    { keys := [], vals := [], head := countLoop 0 nb (fun _ head => Vec.push head (-1)) [],
      next := [], cap := cap, fixed := fixed }

/-- `constructor(cap)`. -/
def ofCap (fuel : Nat) (cap : Int) : Option (HashMap K V) := ofCapFixed fuel cap false

/-- `constructor()`. -/
def empty (fuel : Nat) : Option (HashMap K V) := ofCap fuel 0

variable [Inhabited K] (A : KeyType K)

/-- The walk down one chain: the index of the first key equal to `key`. -/
def probe (m : HashMap K V) (key : K) : Nat → Int → Option (Option Int)
  | 0, _ => none
  | fuel + 1, i =>
    if i ≠ -1 then
      if A.equals (m.keys.get i) key then some (some i) else probe m key fuel (m.next.get i)
    else some none

/-- The bucket `key` hashes to. -/
def bucketOf (m : HashMap K V) (key : K) : Int := bucketFor (A.hash key) m.head.len

/-- Append a new key and link it in front of its bucket's chain. -/
def insertNew (m : HashMap K V) (b : Int) (key : K) (val : V) : HashMap K V :=
  let keys := m.keys.push key
  let vals := m.vals.push val
  let idx := keys.len - 1
  let next := m.next.push (m.head.get b)
  let head := m.head.set b idx
  { m with keys := keys, vals := vals, next := next, head := head }

/-- One round of the loop that rebuilds the chains. -/
def relink (keys : Vec K) (newNb : Int) (reb : Int) (s : Vec Int × Vec Int) : Vec Int × Vec Int :=
  let bb := bucketFor (A.hash (keys.get reb)) newNb
  let next := s.2.set reb (s.1.get bb)
  let head := s.1.set bb reb
  (head, next)

/-- Double the bucket count and rebuild every chain from the full key list. -/
def grow (m : HashMap K V) : HashMap K V :=
  let newNb := m.head.len * 2
  let head := countLoop m.head.len newNb (fun _ head => Vec.push head (-1)) m.head
  let head := countLoop 0 newNb (fun clear head => Vec.set head clear (-1)) head
  let nk := m.keys.len
  let next := countLoop 0 nk (fun clr next => Vec.set next clr (-1)) m.next
  let s := countLoop 0 nk (relink A m.keys newNb) (head, next)
  { m with head := s.1, next := s.2 }

def put (fuel : Nat) (m : HashMap K V) (key : K) (val : V) : Option (HashMap K V × Bool) :=
  let b := bucketOf A m key
  match probe A m key fuel (m.head.get b) with
  | none => none
  | some (some i) => some ({ m with vals := m.vals.set i val }, true)
  | some none =>
    -- Fixed maps never auto-grow: refuse a new key at full capacity.
    if m.fixed && decide (m.cap ≤ m.keys.len) then some (m, false)
    else
      let m := insertNew m b key val
      if !m.fixed && decide (m.head.len * 2 < m.keys.len) then some (grow A m, true)
      else some (m, true)

def get [Inhabited V] (fuel : Nat) (m : HashMap K V) (key : K) : Option (Option V) :=
  (probe A m key fuel (m.head.get (bucketOf A m key))).map fun r => r.map fun i => m.vals.get i

def containsKey (fuel : Nat) (m : HashMap K V) (key : K) : Option Bool :=
  (probe A m key fuel (m.head.get (bucketOf A m key))).map fun r => r.isSome

omit [Inhabited K] in
def size (m : HashMap K V) : Int := m.keys.len

/-! ## 2. Chains -/

/-- The chain that starts at `i`: the indices met by following `next` until `-1`. -/
inductive Chain (next : Vec Int) : Int → List Nat → Prop where
  | stop : Chain next (-1) []
  | link (n : Nat) (l : List Nat) (hn : n < next.length) (h : Chain next (Vec.get next n) l) :
      Chain next n (n :: l)

variable {next : Vec Int}

theorem chain_push {i : Int} {l : List Nat} (h : Chain next i l) (x : Int) : Chain (next.push x) i l := by
  induction h with
  | stop => exact .stop
  | link n l hn _ ih =>
    refine .link n l (by simp only [push, length_append]; omega) ?_
    rw [get_push_lt next x hn]
    exact ih

/-- A chain does not see a write at an index it does not visit. -/
theorem chain_set {i : Int} {l : List Nat} (h : Chain next i l) (hn : n ∉ l) (x : Int) :
    Chain (next.set n x) i l := by
  induction h with
  | stop => exact .stop
  | link k l hk _ ih =>
    have hkn : n ≠ k := fun e => hn (e ▸ mem_cons_self)
    refine .link k l (by simpa using hk) ?_
    rw [get_set_ne next x hkn]
    exact ih fun hm => hn (mem_cons_of_mem _ hm)

/-- **A chain walk finds the first equal key, given one round per link and one to stop.** -/
theorem probe_chain (m : HashMap K V) (key : K) :
    ∀ {i : Int} {l : List Nat}, Chain m.next i l → ∀ {fuel : Nat}, l.length < fuel →
      probe A m key fuel i =
        some ((l.find? fun j : Nat => A.equals (m.keys.get j) key).map fun j : Nat => (j : Int)) := by
  intro i l h
  induction h with
  | stop =>
    intro fuel hf
    cases fuel with
    | zero => simp at hf
    | succ fuel => simp [probe]
  | link n l hn _ ih =>
    intro fuel hf
    cases fuel with
    | zero => simp at hf
    | succ fuel =>
      unfold probe
      by_cases he : A.equals (m.keys.get (n : Int)) key = true
      · simp [he]
      · have he' : A.equals (m.keys.get (n : Int)) key = false := by simpa using he
        simp only [he', Bool.false_eq_true, ↓reduceIte, find?_cons]
        exact ih (by simpa using hf)

/-! ## 3. The invariant -/

/-- The indices below `n` whose key falls into bucket `b`, newest first. -/
def bucketList (keys : Vec K) (nb : Int) (n : Nat) (b : Int) : List Nat :=
  ((List.range n).filter fun i : Nat => decide (bucketFor (A.hash (keys.get (i : Int))) nb = b)).reverse

variable {keys : Vec K}

theorem mem_bucketList {nb : Int} {b : Int} {i : Nat} :
    i ∈ bucketList A keys nb n b ↔ i < n ∧ bucketFor (A.hash (keys.get (i : Int))) nb = b := by
  simp [bucketList]

section

variable (keys : Vec K) (nb : Int) (n : Nat) (b : Int)

theorem bucketList_nodup : (bucketList A keys nb n b).Nodup := by
  unfold bucketList
  rw [nodup_reverse]
  exact Nodup.filter _ nodup_range

theorem bucketList_length : (bucketList A keys nb n b).length ≤ n := by
  unfold bucketList
  rw [length_reverse]
  exact (length_filter_le _ _).trans (by simp)

theorem bucketList_succ : bucketList A keys nb (n + 1) b =
      if bucketFor (A.hash (keys.get (n : Int))) nb = b then n :: bucketList A keys nb n b
      else bucketList A keys nb n b := by
  unfold bucketList
  rw [range_succ, filter_append, reverse_append]
  split <;> simp_all

end

/-- The buckets of the keys below `n` do not see a key pushed behind them. -/
theorem bucketList_push (keys : Vec K) (key : K) (nb : Int) (hn : n ≤ keys.length) (b : Int) :
    bucketList A (keys.push key) nb n b = bucketList A keys nb n b := by
  unfold bucketList
  congr 1
  apply filter_congr
  intro i hi
  have hi' : i < keys.length := lt_of_lt_of_le (mem_range.mp hi) hn
  rw [get_push_lt keys key hi']

/-- **Every bucket's chain is the list of the bucket's indices below `n`.** -/
def Indexed (keys : Vec K) (head next : Vec Int) (n : Nat) : Prop :=
  ∀ b : Nat, b < head.length → Chain next (head.get (b : Int)) (bucketList A keys head.len n b)

variable {head : Vec Int}

attribute [local simp] Vec.len Vec.push

/-- Linking index `n` in front of its bucket's chain indexes one key more. -/
theorem indexed_link (h : Indexed A keys head next n) (hn : n < next.length) (hb : 0 < head.length)
    (hnext : ∀ b : Nat, b < head.length → bucketFor (A.hash (keys.get (n : Int))) head.len = b →
      next.get (n : Int) = head.get (b : Int)) :
    Indexed A keys (head.set (bucketFor (A.hash (keys.get (n : Int))) head.len) n) next (n + 1) := by
  have hnb : 0 < head.len := by
    simp only [len]
    omega
  have hr := bucketFor_range (A.hash (keys.get (n : Int))) hnb
  obtain ⟨bb, hbb⟩ := eq_ofNat_of_zero_le hr.1
  have hlt : bb < head.length := by
    have := hr.2
    rw [hbb] at this
    simpa using this
  intro b hbl
  rw [len_set, bucketList_succ, hbb]
  rw [hbb, set_natCast, List.length_set] at hbl
  by_cases e : bb = b
  · subst e
    rw [get_set_self head n hlt]
    simp only [↓reduceIte]
    refine .link n _ hn ?_
    rw [hnext bb hlt hbb]
    exact h bb hlt
  · have e' : ¬ ((bb : Nat) : Int) = (b : Int) := by omega
    rw [get_set_ne head n e]
    simp only [e', ↓reduceIte]
    exact h b hbl

/-- The entries of a map, in insertion order. -/
def entries (m : HashMap K V) : List (K × V) := m.keys.zip m.vals

/-- **The invariant of a map.** -/
structure Inv (m : HashMap K V) : Prop where
  valsLen : m.vals.length = m.keys.length
  nextLen : m.next.length = m.keys.length
  headPos : 0 < m.head.length
  indexed : Indexed A m.keys m.head m.next m.keys.length
  distinct : Distinct A.cls m.entries

/-- What the invariant says about buckets, without naming the order inside a chain: the chain of
    every bucket ends, visits no index twice, and visits exactly the stored indices of the
    keys that hash to the bucket. -/
def WellChained (m : HashMap K V) : Prop :=
  ∀ b : Nat, b < m.head.length → ∃ l, Chain m.next (m.head.get (b : Int)) l ∧ l.Nodup ∧
    ∀ i : Nat, i ∈ l ↔ i < m.keys.length ∧ bucketOf A m (m.keys.get (i : Int)) = b

variable {m : HashMap K V}

theorem Inv.wellChained (h : Inv A m) : WellChained A m := by
  intro b hb
  exact ⟨_, h.indexed b hb, bucketList_nodup A _ _ _ _, fun i => mem_bucketList A⟩

/-! ## 4. Insertion and re-hash -/

theorem indexed_push (h : Indexed A keys head next keys.length) (key : K) (x : Int) :
    Indexed A (keys.push key) head (next.push x) keys.length := by
  intro b hb
  rw [bucketList_push A keys key head.len (le_refl _)]
  exact chain_push (h b hb) x

theorem insertNew_indexed (h : Inv A m) (key : K) (val : V) :
    Indexed A (insertNew m (bucketOf A m key) key val).keys
      (insertNew m (bucketOf A m key) key val).head
      (insertNew m (bucketOf A m key) key val).next (m.keys.length + 1) := by
  have hkey : Vec.get (m.keys.push key) (m.keys.length : Int) = key := get_push_self _ _
  have hidx : (m.keys.push key).len - 1 = (m.keys.length : Int) := by simp
  have hnext : Vec.get (m.next.push (m.head.get (bucketOf A m key))) (m.keys.length : Int) =
      m.head.get (bucketOf A m key) := by
    rw [← h.nextLen]
    exact get_push_self _ _
  have hlink := indexed_link A (indexed_push A h.indexed key (m.head.get (bucketOf A m key)))
    (by simp only [push, length_append, length_singleton, h.nextLen]; omega) h.headPos
    (fun b _ hb => by
      rw [hkey] at hb
      rw [hnext, bucketOf, hb])
  rw [hkey] at hlink
  simp only [insertNew, hidx]
  exact hlink

theorem distinct_push {vals : Vec V} (hlen : vals.length = keys.length) {key : K}
    (hnew : ∀ i : Nat, i < keys.length → A.equals (keys.get (i : Int)) key = false)
    (h : Distinct A.cls (keys.zip vals)) (val : V) :
    Distinct A.cls ((keys.push key).zip (vals.push val)) := by
  unfold Distinct at h ⊢
  simp only [push]
  rw [zip_append hlen.symm, pairwise_append]
  refine ⟨h, pairwise_singleton _ _, ?_⟩
  intro e he e' he'
  simp only [zip_cons_cons, zip_nil_right, mem_singleton] at he'
  subst he'
  intro hc
  obtain ⟨i, hi, hik⟩ := mem_iff_getElem.mp (of_mem_zip he).1
  have := hnew i hi
  rw [get_of_lt keys hi, hik, (A.cls_eq).mp hc] at this
  cases this

/-- **Insertion of a new key keeps the invariant.** -/
theorem insertNew_inv (h : Inv A m) {key : K}
    (hnew : ∀ i : Nat, i < m.keys.length → A.equals (m.keys.get (i : Int)) key = false) (val : V) :
    Inv A (insertNew m (bucketOf A m key) key val) where
  valsLen := by simp [insertNew, h.valsLen]
  nextLen := by simp [insertNew, h.nextLen]
  headPos := by
    simp only [insertNew]
    rw [Vec.length_set]
    exact h.headPos
  indexed := by
    have hl : (insertNew m (bucketOf A m key) key val).keys.length = m.keys.length + 1 := by
      simp [insertNew]
    rw [hl]
    exact insertNew_indexed A h key val
  distinct := distinct_push A h.valsLen hnew h.distinct val

/-- The head vector the re-hash starts from: `n` empty buckets. -/
theorem cleared_head (head : Vec Int) (n : Nat) (hn : head.length ≤ n) :
    let grown := countLoop head.len n (fun _ h => Vec.push h (-1)) head
    let cleared := countLoop 0 n (fun i h => Vec.set h i (-1)) grown
    cleared.length = n ∧ ∀ b : Nat, b < n → cleared.get (b : Int) = -1 := by
  intro grown cleared
  have hg : len grown = n := countLoop_inv (fun j (h : Vec Int) => h.len = j) (by simp; omega) rfl
      (fun j h _ _ hP => by rw [len_push, hP])
  have hc : len cleared = n ∧ ∀ b : Nat, (b : Int) < n → cleared.get (b : Int) = -1 := by
    refine countLoop_inv
      (fun j (h : Vec Int) => h.len = n ∧ ∀ b : Nat, (b : Int) < j → h.get (b : Int) = -1)
      (natCast_nonneg n) ⟨hg, fun b hb => by omega⟩ ?_
    intro j h hj hjn hP
    obtain ⟨i, rfl⟩ := eq_ofNat_of_zero_le hj
    refine ⟨by rw [len_set]; exact hP.1, fun b hb => ?_⟩
    by_cases e : i = b
    · subst e
      have hil : i < h.length := by
        have := hP.1
        simp only [len] at this
        omega
      exact get_set_self h (-1) hil
    · rw [get_set_ne h (-1) e]
      exact hP.2 b (by omega)
  refine ⟨by simpa using hc.1, fun b hb => hc.2 b (by omega)⟩

/-- One round of the rebuild loop indexes one key more. -/
theorem relink_indexed (h : Indexed A keys head next n) (hn : n < next.length) (hb : 0 < head.length) :
    Indexed A keys (relink A keys head.len n (head, next)).1 (relink A keys head.len n (head, next)).2
      (n + 1) := by
  simp only [relink]
  refine indexed_link A (fun b hbl => ?_) (by simpa using hn) hb (fun b _ hbb => ?_)
  · exact chain_set (h b hbl) (fun hm => absurd ((mem_bucketList A).mp hm).1 (lt_irrefl n)) _
  · rw [get_set_self next _ hn, hbb]

/-- The rebuild loop, started on empty buckets, indexes every key. -/
theorem rebuild_indexed {nb : Nat} (hnb : 0 < nb) (hl : head.length = nb)
    (hempty : ∀ b : Nat, b < nb → head.get (b : Int) = -1) (hnl : next.length = keys.length) :
    let s := countLoop 0 keys.len (relink A keys nb) (head, next)
    Indexed A keys s.1 s.2 keys.length ∧ s.1.length = nb ∧ s.2.length = keys.length := by
  intro s
  have h : ∃ n : Nat, keys.len = n ∧ Indexed A keys s.1 s.2 n ∧ s.1.length = nb ∧
      s.2.length = keys.length := by
    refine countLoop_inv
      (fun j (s : Vec Int × Vec Int) => ∃ n : Nat, j = n ∧ Indexed A keys s.1 s.2 n ∧
        s.1.length = nb ∧ s.2.length = keys.length)
      (len_nonneg keys) ⟨0, rfl, fun b hb => ?_, hl, hnl⟩ ?_
    · rw [hempty b (by rw [hl] at hb; exact hb)]
      exact .stop
    · rintro j s hj hjn ⟨n, rfl, hI, h1, h2⟩
      refine ⟨n + 1, rfl, ?_, ?_, by simpa [relink] using h2⟩
      · have hlen : s.1.len = (nb : Int) := by simp [h1]
        have hr := relink_indexed A hI (by rw [h2]; simpa using hjn) (by omega)
        rw [hlen] at hr
        exact hr
      · simp only [relink]
        rw [Vec.length_set, h1]
  obtain ⟨n, hn, hI, h1, h2⟩ := h
  have hn' : keys.length = n := by simpa using hn
  subst hn'
  exact ⟨hI, h1, h2⟩

/-- **The re-hash rebuilds every chain.** -/
theorem grow_indexed (hnl : m.next.length = m.keys.length) (hb : 0 < m.head.length) :
    Indexed A m.keys (grow A m).head (grow A m).next m.keys.length ∧
      (grow A m).head.length = m.head.length * 2 ∧ (grow A m).next.length = m.keys.length := by
  have e : m.head.len * 2 = ((m.head.length * 2 : Nat) : Int) := by simp
  obtain ⟨hcl, hcg⟩ := cleared_head m.head (m.head.length * 2) (by omega)
  have hnx : (countLoop 0 m.keys.len (fun clr next => set next clr (-1)) m.next).length = m.keys.length :=
    countLoop_inv (fun _ (nx : Vec Int) => nx.length = m.keys.length) (len_nonneg _) hnl
      (fun j nx hj _ hP => by
        obtain ⟨i, rfl⟩ := eq_ofNat_of_zero_le hj
        simpa using hP)
  simp only [grow, e]
  exact rebuild_indexed A (by omega) hcl hcg hnx

/-- **The re-hash keeps the invariant and the entries.** -/
theorem grow_inv (h : Inv A m) : Inv A (grow A m) where
  valsLen := h.valsLen
  nextLen := (grow_indexed A h.nextLen h.headPos).2.2
  headPos := by
    rw [(grow_indexed A h.nextLen h.headPos).2.1]
    have := h.headPos
    omega
  indexed := (grow_indexed A h.nextLen h.headPos).1
  distinct := h.distinct

/-! ## 5. The constructors -/

/-- Once the doubling has wrapped, `two` never reaches a positive capacity again. -/
theorem sizeLoop_wrapped {cap : Int} (hcap : 0 < cap) :
    ∀ (fuel : Nat) (nb two : Int), two = 0 ∨ two = -2 ^ 63 → sizeLoop cap fuel nb two = none
  | 0, _, _, _ => rfl
  | fuel + 1, nb, two, h => by
    unfold sizeLoop
    have hlt : two < cap := by rcases h with rfl | rfl <;> omega
    simp only [hlt, ↓reduceIte]
    refine sizeLoop_wrapped hcap fuel _ _ (.inl ?_)
    rcases h with rfl | rfl <;> decide

theorem wrap64_double {k : Nat} (hk : k < 62) : wrap64 ((2 : Int) ^ k * 2) = 2 ^ (k + 1) := by
  have e : (2 : Int) ^ k * 2 = 2 ^ (k + 1) := by rw [pow_succ]
  have hpos : (0 : Int) < 2 ^ (k + 1) := by positivity
  have hlt : (2 : Int) ^ (k + 1) < 2 ^ 63 := pow_lt_pow_right₀ (by norm_num) (by omega)
  rw [e, wrap64, bmod_def]
  have hm : (2 : Int) ^ (k + 1) % ((2 ^ 64 : Nat) : Int) = 2 ^ (k + 1) :=
    emod_eq_of_lt hpos.le (by norm_num at hlt ⊢; omega)
  rw [hm, if_pos (by norm_num at hlt ⊢; omega)]

/-- **A constructor that returns has made a power of two of buckets.** -/
theorem sizeLoop_result {cap : Int} :
    ∀ (fuel k : Nat) (nb : Int), k ≤ 57 →
      sizeLoop cap fuel (2 ^ (k + 4)) (2 ^ (k + 5)) = some nb → ∃ j, nb = 2 ^ (j + 4)
  | 0, _, _, _, h => by cases h
  | fuel + 1, k, nb, hk, h => by
    unfold sizeLoop at h
    by_cases hlt : (2 : Int) ^ (k + 5) < cap
    · simp only [hlt, ↓reduceIte] at h
      have hcap : 0 < cap := lt_trans (by positivity) hlt
      rcases lt_or_ge k 57 with hk' | hk'
      · rw [wrap64_double (by omega), wrap64_double (by omega)] at h
        exact sizeLoop_result fuel (k + 1) nb (by omega) h
      · have e : k = 57 := by omega
        subst e
        rw [sizeLoop_wrapped hcap fuel _ _ (.inr (by decide))] at h
        cases h
    · simp only [hlt, ↓reduceIte, Option.some.injEq] at h
      exact ⟨k, h.symm⟩

variable {cap : Int}

/-- The loop ends exactly for the capacities up to 2^62, and then within 58 rounds. -/
theorem sizeLoop_isSome_iff : ∀ fuel k : Nat, k ≤ 57 → 57 < fuel + k →
    ((sizeLoop cap fuel (2 ^ (k + 4)) (2 ^ (k + 5))).isSome ↔ cap ≤ 2 ^ 62)
  | 0, _, _, _ => by omega
  | fuel + 1, k, hk, hf => by
    have hle : (2 : Int) ^ (k + 5) ≤ 2 ^ 62 := pow_le_pow_right₀ (by norm_num) (by omega)
    unfold sizeLoop
    by_cases hlt : (2 : Int) ^ (k + 5) < cap
    · rw [if_pos hlt]
      rcases lt_or_ge k 57 with hk' | hk'
      · rw [wrap64_double (by omega), wrap64_double (by omega)]
        exact sizeLoop_isSome_iff fuel (k + 1) (by omega) (by omega)
      · -- doubling 2^62 wraps
        obtain rfl : k = 57 := by omega
        rw [sizeLoop_wrapped (lt_trans (by norm_num) hlt) fuel _ _ (.inr (by decide))]
        exact iff_of_false nofun hlt.not_ge
    · rw [if_neg hlt]
      exact iff_of_true rfl ((not_lt.mp hlt).trans hle)

/-- **A map fresh from a constructor is well formed and empty.** -/
theorem constructor_inv {fuel : Nat} {fixed : Bool} (h : ofCapFixed fuel cap fixed = some m) :
    Inv A m ∧ m.entries = [] ∧ m.cap = cap ∧ m.fixed = fixed := by
  unfold ofCapFixed at h
  rw [Option.map_eq_some_iff] at h
  obtain ⟨nb, hnb, rfl⟩ := h
  obtain ⟨j, hj⟩ := sizeLoop_result fuel 0 nb (by omega) (by simpa using hnb)
  have hpos : (0 : Int) < nb := by rw [hj]; positivity
  -- every bucket the filling loop makes is empty
  have hhead : (countLoop 0 nb (fun _ head => push head (-1)) ([] : Vec Int)).len = nb ∧
      ∀ b ∈ countLoop 0 nb (fun _ head => push head (-1)) ([] : Vec Int), b = -1 := by
    refine countLoop_inv (fun j (h : Vec Int) => h.len = j ∧ ∀ b ∈ h, b = -1) hpos.le
      ⟨rfl, by simp⟩ ?_
    intro j h _ _ hP
    refine ⟨by rw [len_push, hP.1], fun b hb => ?_⟩
    rcases mem_append.mp hb with hb | hb
    · exact hP.2 b hb
    · exact mem_singleton.mp hb
  refine ⟨⟨rfl, rfl, ?_, fun b hb => ?_, Pairwise.nil⟩, rfl, rfl, rfl⟩
  · have := hhead.1
    simp only [len] at this
    dsimp only
    omega
  · have hget := get_of_lt _ hb
    rw [hget, hhead.2 _ (getElem_mem hb)]
    exact .stop

/-- **The capacities that get a map**, well formed and empty, are those up to 2^62. For every other one the loop
    does not end. -/
theorem constructor_returns_iff (fixed : Bool) (fuel : Nat) :
    (∃ m : HashMap K V, ofCapFixed (fuel + 58) cap fixed = some m ∧ Inv A m ∧ m.entries = []) ↔ cap ≤ 2 ^ 62 := by
  rw [← sizeLoop_isSome_iff (fuel + 58) 0 (by omega) (by omega), Option.isSome_iff_exists]
  constructor
  · rintro ⟨m, hm, -⟩
    obtain ⟨nb, hnb, -⟩ := Option.map_eq_some_iff.mp hm
    exact ⟨nb, by simpa using hnb⟩
  · rintro ⟨nb, hnb⟩
    obtain ⟨m, hm⟩ : ∃ m : HashMap K V, ofCapFixed (fuel + 58) cap fixed = some m :=
      ⟨_, Option.map_eq_some_iff.mpr ⟨nb, by simpa using hnb, rfl⟩⟩
    obtain ⟨hinv, hempty, -⟩ := constructor_inv A hm
    exact ⟨m, hm, hinv, hempty⟩

end HashMap

end Vyb.Collections
