/-
  Subject:   Marking by rounds: a list of items is gone through in order, again and again, and an
             item is marked as soon as something it depends on is marked.

  Marks made earlier in a round count in the rest of it, so what a bounded number of rounds reaches
  depends on the order of the items.

  * `Within r x` -- `x` is reached in round `r`: a dependency costs a round unless the one depended
    on stands earlier in the list;
  * `mem_markLoop` -- the loop, with its early exit, marks exactly what its number of rounds reaches.
-/
import Mathlib.Tactic

namespace Vyb.Lib

open List

section Loop

variable {ι α : Type} [DecidableEq α] (key : ι → α) (test : Finset α → ι → Bool)

/-- One item of a round: the marks, and whether the round has made one. -/
def markItem (s : Finset α × Bool) (a : ι) : Finset α × Bool :=
  if key a ∉ s.1 ∧ test s.1 a = true then (insert (key a) s.1, true) else s

def markRound (items : List ι) (marks : Finset α) : Finset α × Bool :=
  items.foldl (markItem key test) (marks, false)

/-- At most `n` rounds, until one makes no mark. -/
def markLoop (items : List ι) : Nat → Finset α → Finset α
  | 0, marks => marks
  | n + 1, marks =>
    let r := markRound key test items marks
    if r.2 then markLoop items n r.1 else r.1

end Loop

section Reach

variable {ι α : Type} (key : ι → α) (items : List ι) (dep : ι → α → Prop) (start : α → Prop)

/-- The item `a` is in the list and `y` is the key of one before it. -/
def Before (y : α) (a : ι) : Prop := ∃ pre post, items = pre ++ a :: post ∧ y ∈ pre.map key

/-- Reached in round `r`. -/
inductive Within : Nat → α → Prop
  | start {x : α} : start x → Within 0 x
  /-- one round after what it depends on -/
  | next {r : Nat} {y : α} {a : ι} : Within r y → a ∈ items → dep a y → Within (r + 1) (key a)
  /-- in the same round, if that comes first in the list -/
  | same {r : Nat} {y : α} {a : ι} : Within r y → 1 ≤ r → Before key items y a → dep a y →
      Within r (key a)

/-- Reached in at most `k` rounds. -/
def WithinAtMost (k : Nat) (x : α) : Prop := ∃ r ≤ k, Within key items dep start r x

/-- The marks in round `k + 1` after the items `pre`. -/
def MarksAfter (k : Nat) (pre : List ι) (m : Finset α) : Prop :=
  ∀ x, x ∈ m ↔ WithinAtMost key items dep start k x ∨
    (x ∈ pre.map key ∧ WithinAtMost key items dep start (k + 1) x)

variable {key items dep start} {k : Nat} {x : α}

theorem WithinAtMost.mono {l : Nat} (h : WithinAtMost key items dep start k x) (hkl : k ≤ l) :
    WithinAtMost key items dep start l x := by
  obtain ⟨r, hr, hw⟩ := h
  exact ⟨r, hr.trans hkl, hw⟩

/-- Whatever is reached after the start is an item. -/
theorem within_item {r : Nat} (h : Within key items dep start r x) (hr : r ≠ 0) : x ∈ items.map key := by
  cases h with
  | start _ => exact absurd rfl hr
  | next _ ha _ => exact mem_map_of_mem ha
  | same _ _ hb _ =>
    obtain ⟨pre, post, hitems, _⟩ := hb
    rw [hitems]
    simp

variable {pre post : List ι} {a : ι}

theorem before_split (hnd : (items.map key).Nodup) {b : ι} {y : α} (hitems : items = pre ++ a :: post)
    (hab : key b = key a) (hb : Before key items y b) : b = a ∧ y ∈ pre.map key := by
  obtain ⟨pre', post', hitems', hy⟩ := hb
  rw [hitems, map_append, map_cons] at hnd
  have hpre : key b ∉ pre.map key := by
    rw [hab]
    exact fun h => (nodup_append.mp hnd).2.2 _ h _ mem_cons_self rfl
  have hpost : key b ∉ post.map key := by
    rw [hab]
    exact (nodup_cons.mp (nodup_append.mp hnd).2.1).1
  have heq := (append_cons_inj_of_notMem (fun h => hpre (mem_map_of_mem h))
    (fun h => hpost (mem_map_of_mem h))).mp (hitems.symm.trans hitems')
  exact ⟨heq.2.1.symm, heq.1 ▸ hy⟩

/-- What a round can reach through its next item. -/
theorem within_item_iff (hnd : (items.map key).Nodup) {m : Finset α} (hitems : items = pre ++ a :: post)
    (hm : MarksAfter key items dep start k pre m) :
    WithinAtMost key items dep start (k + 1) (key a) ↔ key a ∈ m ∨ ∃ y ∈ m, dep a y := by
  have hmem : a ∈ items := by simp [hitems]
  constructor
  · intro ⟨r, hr, hw⟩
    generalize hx : key a = x at hw
    cases hw with
    | start hs =>
      exact .inl ((hm _).mpr (Or.inl ⟨0, Nat.zero_le k, .start hs⟩))
    | @next r' y b hy hb hdep =>
      obtain rfl : b = a := inj_on_of_nodup_map hnd hb hmem hx.symm
      exact .inr ⟨y, (hm y).mpr (.inl ⟨r', by omega, hy⟩), hdep⟩
    | @same r' y b hy h1 hbefore hdep =>
      obtain ⟨rfl, hpre⟩ := before_split hnd hitems hx.symm hbefore
      exact .inr ⟨y, (hm y).mpr (Or.inr ⟨hpre, r, hr, hy⟩), hdep⟩
  · intro h
    rcases h with h | ⟨y, hy, hdep⟩
    · rcases (hm _).mp h with h | h
      · exact h.mono (Nat.le_succ k)
      · exact h.2
    · rcases (hm y).mp hy with ⟨r, hr, hw⟩ | ⟨hpre, r, hr, hw⟩
      · exact ⟨r + 1, by omega, .next hw hmem hdep⟩
      · -- a dependency that stands earlier costs no round, but the start counts as round 0
        rcases Nat.eq_zero_or_pos r with rfl | hpos
        · exact ⟨1, by omega, .next hw hmem hdep⟩
        · exact ⟨r, hr, .same hw hpos ⟨pre, post, hitems, hpre⟩ hdep⟩

section Rounds

variable [DecidableEq α] {test : Finset α → ι → Bool} (hnd : (items.map key).Nodup)
  (htest : ∀ m a, test m a = true ↔ ∃ y ∈ m, dep a y)

theorem mem_markItem {s : Finset α × Bool} :
    x ∈ (markItem key test s a).1 ↔ x ∈ s.1 ∨ (x = key a ∧ test s.1 a = true) := by
  unfold markItem
  split
  · rename_i h
    simp only [Finset.mem_insert, h.2, and_true]
    exact or_comm
  · rename_i h
    constructor
    · exact .inl
    · intro hx
      rcases hx with hx | ⟨rfl, ht⟩
      · exact hx
      · by_contra hc
        exact h ⟨hc, ht⟩

include hnd htest

/-- **One item** of a round. -/
theorem markItem_after {s : Finset α × Bool} (hitems : items = pre ++ a :: post)
    (hm : MarksAfter key items dep start k pre s.1) :
    MarksAfter key items dep start k (pre ++ [a]) (markItem key test s a).1 := by
  intro x
  have ha := within_item_iff hnd hitems hm
  rw [mem_markItem, htest, hm x]
  simp only [map_append, map_cons, map_nil, mem_append, mem_singleton]
  by_cases hx : x = key a
  · subst hx
    have hmono : WithinAtMost key items dep start k (key a) →
        WithinAtMost key items dep start (k + 1) (key a) := fun h => h.mono (Nat.le_succ k)
    rw [← hm (key a), eq_self, true_and, or_true, true_and, ← ha]
    exact ⟨.inr, fun h => h.elim hmono id⟩
  · simp [hx]

/-- **A round**, from any place in it. -/
theorem foldl_markItem_after {k : Nat} : ∀ (post pre : List ι) (s : Finset α × Bool),
    items = pre ++ post → MarksAfter key items dep start k pre s.1 →
    MarksAfter key items dep start k items (post.foldl (markItem key test) s).1
  | [], pre, s, hitems, hm => by
    rw [append_nil] at hitems
    exact hitems ▸ hm
  | a :: post, pre, s, hitems, hm => by
    exact foldl_markItem_after post (pre ++ [a]) _ (by simp [hitems])
      (markItem_after hnd htest hitems hm)

/-- A round takes the marks from `k` rounds to `k + 1`. -/
theorem mem_markRound {m : Finset α} (hm : ∀ x, x ∈ m ↔ WithinAtMost key items dep start k x) (x : α) :
    x ∈ (markRound key test items m).1 ↔ WithinAtMost key items dep start (k + 1) x := by
  have hstart : MarksAfter key items dep start k [] m := fun y => by simp [hm y]
  rw [markRound, foldl_markItem_after hnd htest items [] (m, false) rfl hstart x]
  constructor
  · intro h
    rcases h with h | h
    · exact h.mono (Nat.le_succ k)
    · exact h.2
  · intro ⟨r, hr, hw⟩
    rcases Nat.eq_zero_or_pos r with rfl | hpos
    · exact .inl ⟨0, Nat.zero_le k, hw⟩
    · exact .inr ⟨within_item hw (by omega), r, hr, hw⟩

end Rounds

end Reach

section Exit

variable {ι α : Type} [DecidableEq α] {key : ι → α} {test : Finset α → ι → Bool}

theorem foldl_markItem_unchanged : ∀ (items : List ι) (s : Finset α × Bool),
    (items.foldl (markItem key test) s).2 = false →
    s.2 = false ∧ (items.foldl (markItem key test) s).1 = s.1
  | [], s, h => ⟨h, rfl⟩
  | a :: items, s, h => by
    rw [foldl_cons] at h ⊢
    obtain ⟨h2, h1⟩ := foldl_markItem_unchanged items _ h
    rw [h1]
    unfold markItem at h2 ⊢
    split at h2
    · simp at h2
    · rename_i hc
      exact ⟨h2, by rw [if_neg hc]⟩

variable {items : List ι} {dep : ι → α → Prop} {start : α → Prop}
  (hnd : (items.map key).Nodup) (htest : ∀ m a, test m a = true ↔ ∃ y ∈ m, dep a y)

include hnd htest

/-- Once a round makes no mark, no later one does. -/
theorem withinAtMost_of_fixed {m : Finset α} (hfix : (markRound key test items m).1 = m) :
    ∀ (n k : Nat), (∀ x, x ∈ m ↔ WithinAtMost key items dep start k x) →
    ∀ x, x ∈ m ↔ WithinAtMost key items dep start (k + n) x
  | 0, _, hm => hm
  | n + 1, k, hm => by
    have hnext : ∀ x, x ∈ m ↔ WithinAtMost key items dep start (k + 1) x := fun x => by
      rw [← mem_markRound hnd htest hm x, hfix]
    have h := withinAtMost_of_fixed hfix n (k + 1) hnext
    rwa [show k + 1 + n = k + (n + 1) by omega] at h

/-- **The loop** marks what its rounds reach. -/
theorem mem_markLoop : ∀ (n k : Nat) (m : Finset α),
    (∀ x, x ∈ m ↔ WithinAtMost key items dep start k x) →
    ∀ x, x ∈ markLoop key test items n m ↔ WithinAtMost key items dep start (k + n) x
  | 0, _, _, hm => hm
  | n + 1, k, m, hm => by
    unfold markLoop
    have hround := mem_markRound hnd htest hm
    cases hc : (markRound key test items m).2 with
    | true =>
      have h := mem_markLoop n (k + 1) _ hround
      rw [show k + 1 + n = k + (n + 1) by omega] at h
      simpa [hc] using h
    | false =>
      have hfix : (markRound key test items m).1 = m := (foldl_markItem_unchanged items _ hc).2
      simpa [hc, hfix] using withinAtMost_of_fixed hnd htest hfix (n + 1) k hm

end Exit

end Vyb.Lib
