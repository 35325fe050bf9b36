/-
  Subject:   Counted loops and binary search, over arbitrary states.

  * `countLoop lo hi body s` is `while (i < hi) { body; i = i + 1 }` started at `i = lo`;
    `countLoop_inv` is its invariant rule, and `foldl_sim` the simulation rule of a fold.
  * `advanceTo p n i` is `while (i < n) { if (p(i)) { i = i + 1 } else { break } }`, with
    `advanceTo_spec` where it stops; `advanceTo_eq` says that there is one such place.
  * `lowerBound n p` is the halving search `while (lo < hi) { mid = lo + (hi - lo) / 2; … }` for
    the first position where `p` fails; `lowerBound_spec` says what it finds when `p` is true on
    a prefix.
  * `bubble l lo` moves the last element of `l` down to position `lo` by adjacent swaps;
    `bubble_append` says that this is an insertion.
-/
import Mathlib.Tactic

namespace Vyb.Lib

open List

universe u

/-! ## 1. Counted loops -/

/-- `n` rounds of `body`, the counter starting at `i`. -/
def forUp {σ : Type u} (body : Int → σ → σ) : Nat → Int → σ → σ
  | 0, _, s => s
  | n + 1, i, s => forUp body n (i + 1) (body i s)

/-- The loop `while (i < hi) { s = body(i, s); i = i + 1 }` from `i = lo`. -/
def countLoop {σ : Type u} (lo hi : Int) (body : Int → σ → σ) (s : σ) : σ :=
  forUp body (hi - lo).toNat lo s

theorem forUp_inv {σ : Type u} (P : Int → σ → Prop) (body : Int → σ → σ) :
    ∀ (n : Nat) (i : Int) (s : σ), P i s →
      (∀ j s, i ≤ j → j < i + n → P j s → P (j + 1) (body j s)) →
      P (i + n) (forUp body n i s)
  | 0, i, s, h0, _ => by simpa [forUp] using h0
  | n + 1, i, s, h0, hstep => by
    have h1 : P (i + 1) (body i s) := hstep i s (le_refl i) (by omega) h0
    have ih := forUp_inv P body n (i + 1) (body i s) h1
      (fun j s hj hj' hP => hstep j s (by omega) (by omega) hP)
    have e : i + ((n + 1 : Nat) : Int) = i + 1 + n := by omega
    rw [e]
    exact ih

/-- **The invariant rule of a counted loop.** -/
theorem countLoop_inv {σ : Type u} (P : Int → σ → Prop) {lo hi : Int} {body : Int → σ → σ} {s : σ}
    (hle : lo ≤ hi) (h0 : P lo s) (hstep : ∀ j s, lo ≤ j → j < hi → P j s → P (j + 1) (body j s)) :
    P hi (countLoop lo hi body s) := by
  have h := forUp_inv P body (hi - lo).toNat lo s h0
    (fun j s hj hj' hP => hstep j s hj (by omega) hP)
  have e : lo + ((hi - lo).toNat : Int) = hi := by omega
  rw [e] at h
  exact h

/-- **The simulation rule of a fold**: `φ` carries the one body to the other, entry by entry. -/
theorem foldl_sim {σ τ : Type*} {ι : Type*} (φ : σ → τ) {f : σ → ι → σ} {g : τ → ι → τ} :
    ∀ (l : List ι), (∀ i ∈ l, ∀ s, φ (f s i) = g (φ s) i) → ∀ s, φ (l.foldl f s) = l.foldl g (φ s)
  | [], _, _ => rfl
  | i :: l, h, s => by
    rw [foldl_cons, foldl_cons, ← h i mem_cons_self]
    exact foldl_sim φ l (fun j hj => h j (mem_cons_of_mem i hj)) (f s i)

/-! ## 2. Advancing while a condition holds -/

/-- At most `k` steps. -/
def advance (p : Nat → Bool) : Nat → Nat → Nat
  | 0, i => i
  | k + 1, i => if p i then advance p k (i + 1) else i

/-- The loop `while (i < n) { if (p(i)) { i = i + 1 } else { break } }`. -/
def advanceTo (p : Nat → Bool) (n i : Nat) : Nat := advance p (n - i) i

theorem advance_spec {p : Nat → Bool} : ∀ k i : Nat, i ≤ advance p k i ∧ advance p k i ≤ i + k ∧
    (∀ q, i ≤ q → q < advance p k i → p q = true) ∧ (advance p k i < i + k → p (advance p k i) = false)
  | 0, i => ⟨le_refl i, le_refl i, fun q h h' => absurd h' (Nat.not_lt.mpr h), fun h => absurd h (lt_irrefl i)⟩
  | k + 1, i => by
    rw [advance]
    split
    · rename_i hp
      obtain ⟨hle, hbound, hall, hstop⟩ := advance_spec (p := p) k (i + 1)
      refine ⟨by omega, by omega, fun q hq hq' => ?_, fun h => hstop (by omega)⟩
      rcases Nat.eq_or_lt_of_le hq with rfl | hlt
      · exact hp
      · exact hall q hlt hq'
    · rename_i hp
      exact ⟨le_refl i, by omega, fun q h h' => absurd h' (Nat.not_lt.mpr h), fun _ => by simpa using hp⟩

variable {p : Nat → Bool} {n i : Nat}

/-- **Where the loop stops.** -/
theorem advanceTo_spec (hi : i ≤ n) :
    i ≤ advanceTo p n i ∧ advanceTo p n i ≤ n ∧ (∀ q, i ≤ q → q < advanceTo p n i → p q = true) ∧
      (advanceTo p n i < n → p (advanceTo p n i) = false) := by
  obtain ⟨hle, hbound, hall, hstop⟩ := advance_spec (p := p) (n - i) i
  exact ⟨hle, by rw [advanceTo]; omega, hall, fun h => hstop (by rw [advanceTo] at h; omega)⟩

theorem advanceTo_eq {j : Nat} (hij : i ≤ j) (hj : j ≤ n) (hall : ∀ q, i ≤ q → q < j → p q = true)
    (hstop : j < n → p j = false) : advanceTo p n i = j := by
  obtain ⟨hle, hbound, hall', hstop'⟩ := advanceTo_spec (p := p) (hij.trans hj)
  rcases Nat.lt_trichotomy (advanceTo p n i) j with hlt | heq | hlt
  · rw [hall _ hle hlt] at hstop'
    cases hstop' (by omega)
  · exact heq
  · rw [hall' j hij hlt] at hstop
    cases hstop (by omega)

theorem lt_advanceTo (hi : i < n) (hp : p i = true) : i < advanceTo p n i := by
  obtain ⟨hle, -, -, hstop⟩ := advanceTo_spec (p := p) hi.le
  rcases Nat.eq_or_lt_of_le hle with heq | hlt
  · rw [← heq] at hstop
    rw [hstop hi] at hp
    cases hp
  · exact hlt

/-! ## 3. Binary search -/

/-- The halving loop. `fuel` bounds the rounds; `hi - lo` of them always suffice. -/
def searchLoop (p : Nat → Bool) : Nat → Nat → Nat → Nat
  | 0, lo, _ => lo
  | fuel + 1, lo, hi =>
    if lo < hi then
      let mid := lo + (hi - lo) / 2
      if p mid then searchLoop p fuel (mid + 1) hi else searchLoop p fuel lo mid
    else lo

/-- The first position in `0 … n` at which `p` fails. -/
def lowerBound (n : Nat) (p : Nat → Bool) : Nat := searchLoop p n 0 n

theorem searchLoop_spec {p : Nat → Bool} {n : Nat} (hmono : ∀ i j, i < j → j < n → p j = true → p i = true) :
    ∀ (fuel lo hi : Nat), hi - lo ≤ fuel → lo ≤ hi → hi ≤ n →
      (∀ i, i < lo → p i = true) → (∀ i, hi ≤ i → i < n → p i = false) →
      searchLoop p fuel lo hi ≤ n ∧ (∀ i, i < searchLoop p fuel lo hi → p i = true) ∧
        (∀ i, searchLoop p fuel lo hi ≤ i → i < n → p i = false)
  | 0, lo, hi, hf, hle, hn, hlow, hhigh => by
    have e : lo = hi := by omega
    subst e
    exact ⟨hn, hlow, hhigh⟩
  | fuel + 1, lo, hi, hf, hle, hn, hlow, hhigh => by
    unfold searchLoop
    by_cases h : lo < hi
    · simp only [h, ↓reduceIte]
      by_cases hp : p (lo + (hi - lo) / 2) = true
      · simp only [hp, ↓reduceIte]
        refine searchLoop_spec hmono fuel _ hi (by omega) (by omega) hn (fun i hi' => ?_) hhigh
        rcases lt_or_ge i (lo + (hi - lo) / 2) with h1 | h1
        · exact hmono i _ h1 (by omega) hp
        · have e : i = lo + (hi - lo) / 2 := by omega
          rw [e]
          exact hp
      · have hp' : p (lo + (hi - lo) / 2) = false := by simpa using hp
        simp only [hp', Bool.false_eq_true, ↓reduceIte]
        refine searchLoop_spec hmono fuel lo _ (by omega) (by omega) (by omega) hlow
          (fun i h1 h2 => ?_)
        -- a later success would, by monotonicity, make the probe at `mid` succeed
        by_contra hc
        have hi' : p i = true := by simpa using hc
        rcases lt_or_ge (lo + (hi - lo) / 2) i with h3 | h3
        · have := hmono _ i h3 h2 hi'
          rw [hp'] at this
          cases this
        · have e : i = lo + (hi - lo) / 2 := by omega
          rw [e, hp'] at hi'
          cases hi'
    · simp only [h, ↓reduceIte]
      have e : lo = hi := by omega
      subst e
      exact ⟨hn, hlow, hhigh⟩

/-- **Binary search finds the boundary** of a predicate that is true exactly on a prefix. -/
theorem lowerBound_spec (hmono : ∀ i j, i < j → j < n → p j = true → p i = true) :
    lowerBound n p ≤ n ∧ (∀ i, i < lowerBound n p → p i = true) ∧
      (∀ i, lowerBound n p ≤ i → i < n → p i = false) :=
  searchLoop_spec hmono n 0 n (by omega) (Nat.zero_le n) (le_refl n)
    (fun i h => nomatch h) (fun i h1 h2 => absurd h2 (Nat.not_lt_of_le h1))

/-- The search asks only for positions below the upper end. -/
theorem searchLoop_congr {p q : Nat → Bool} : ∀ {fuel lo hi : Nat}, (∀ i, i < hi → p i = q i) →
    searchLoop p fuel lo hi = searchLoop q fuel lo hi
  | 0, _, _, _ => rfl
  | fuel + 1, lo, hi, h => by
    unfold searchLoop
    by_cases hlt : lo < hi
    · have hmid : lo + (hi - lo) / 2 < hi := by omega
      have hlow : ∀ i, i < lo + (hi - lo) / 2 → p i = q i := fun i hi' => h i (by omega)
      simp only [hlt, ↓reduceIte, h _ hmid, searchLoop_congr h, searchLoop_congr hlow]
    · simp only [hlt, ↓reduceIte]

/-! ## 4. Insertion by adjacent swaps -/

/-- Exchange the entries at `p` and `p - 1`. -/
def swapDown {α : Type u} (l : List α) (p : Nat) : List α :=
  match l[p]?, l[p - 1]? with
  | some x, some y => (l.set p y).set (p - 1) x
  | _, _ => l

/-- `while (p > lo) { swap(l[p], l[p-1]); p = p - 1 }`, `n` rounds from `p`. -/
def bubbleFrom {α : Type u} : Nat → Nat → List α → List α
  | 0, _, l => l
  | n + 1, p, l => bubbleFrom n (p - 1) (swapDown l p)

/-- Move the last entry of `l` down to position `lo`. -/
def bubble {α : Type u} (l : List α) (lo : Nat) : List α :=
  bubbleFrom (l.length - 1 - lo) (l.length - 1) l

variable {α : Type u}

theorem swapDown_mid (pre post : List α) (y x : α) :
    swapDown (pre ++ y :: x :: post) (pre.length + 1) = pre ++ x :: y :: post := by
  unfold swapDown
  simp

theorem bubbleFrom_mid (pre : List α) (x : α) :
    ∀ (mid post : List α),
      bubbleFrom mid.length (pre.length + mid.length) (pre ++ mid ++ x :: post) =
        pre ++ x :: (mid ++ post) := by
  intro mid
  -- the induction peels the entry just before `x`, which the first round moves behind it
  induction mid using List.reverseRecOn with
  | nil => intro post; simp [bubbleFrom]
  | append_singleton mid y ih =>
    intro post
    have hl : (mid ++ [y]).length = mid.length + 1 := by simp
    rw [hl]
    unfold bubbleFrom
    have hs := swapDown_mid (pre ++ mid) post y x
    have e1 : pre ++ (mid ++ [y]) ++ x :: post = (pre ++ mid) ++ y :: x :: post := by simp
    have e2 : pre.length + (mid.length + 1) = (pre ++ mid).length + 1 := by simp; omega
    rw [e1, e2, hs]
    have e3 : (pre ++ mid).length + 1 - 1 = pre.length + mid.length := by simp
    rw [e3, ih (y :: post)]
    simp

/-- **Pushing `x` and moving it down to `lo` inserts it there.** -/
theorem bubble_append (l : List α) (x : α) (lo : Nat) (h : lo ≤ l.length) :
    bubble (l ++ [x]) lo = l.take lo ++ x :: l.drop lo := by
  have h1 := bubbleFrom_mid (l.take lo) x (l.drop lo) []
  have e1 : (l.take lo).length = lo := by simp; omega
  have e2 : (l.drop lo).length = l.length - lo := by simp
  rw [take_append_drop, e1, e2, append_nil] at h1
  unfold bubble
  have e3 : (l ++ [x]).length - 1 = l.length := by simp
  rw [e3]
  have e4 : lo + (l.length - lo) = l.length := by omega
  rw [e4] at h1
  exact h1

end Vyb.Lib
