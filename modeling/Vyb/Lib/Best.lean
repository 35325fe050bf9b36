/-
  Subject:   A loop that keeps the best element so far.

  Each element has a key, or none; one with a key above that of the element kept replaces it. What is
  kept in the end stands at the top of the list, and of several that do so it is the first.

  * `Tops` -- no element has a greater key; it speaks of the members of the list only;
  * `best_tops`, `best_of_tops` -- what is kept tops the list, and something is kept if something does;
  * **`best_perm_iff`** -- the order of the list does not matter exactly if one element at most tops it.
-/
import Mathlib.Tactic

namespace Vyb.Lib

open List Option

universe u v

variable {α : Type u} {κ : Type v} [LinearOrder κ]

/-- One round: the element kept and the key to beat. -/
def better (key : α → Option κ) (s : Option α × κ) (a : α) : Option α × κ :=
  match key a with
  | some k => if s.2 < k then (some a, k) else s
  | none => s

/-- What is kept in the end. -/
def best (key : α → Option κ) (bound : κ) (l : List α) : Option α := (l.foldl (better key) (none, bound)).1

/-- `a` has a key above the bound, and no element has a greater one. -/
def Tops (key : α → Option κ) (bound : κ) (l : List α) (a : α) : Prop :=
  a ∈ l ∧ ∃ k, key a = some k ∧ bound < k ∧ ∀ b ∈ l, ∀ k', key b = some k' → k' ≤ k

variable {key : α → Option κ} {bound : κ} {l l' : List α} {a : α}

theorem Tops.perm (h : l.Perm l') (ha : Tops key bound l a) : Tops key bound l' a := by
  obtain ⟨hmem, k, hk, hbound, htop⟩ := ha
  exact ⟨h.mem_iff.mp hmem, k, hk, hbound, fun b hb => htop b (h.mem_iff.mpr hb)⟩

theorem better_cases (s : Option α × κ) (a : α) :
    (∃ k, key a = some k ∧ s.2 < k ∧ better key s a = (some a, k)) ∨
      ((∀ k, key a = some k → k ≤ s.2) ∧ better key s a = s) := by
  cases hk : key a with
  | none => exact .inr ⟨fun k hk' => absurd hk' (by simp), by rw [better, hk]⟩
  | some k =>
    by_cases hlt : s.2 < k
    · exact .inl ⟨k, rfl, hlt, by rw [better, hk]; exact if_pos hlt⟩
    · refine .inr ⟨fun k' hk' => ?_, by rw [better, hk]; exact if_neg hlt⟩
      rw [← some_inj.mp hk']
      exact not_lt.mp hlt

/-- A run from any state: the key to beat bounds all, and what is kept is the old element or has that key. -/
theorem foldl_better (key : α → Option κ) : ∀ (l : List α) (s : Option α × κ),
    s.2 ≤ (l.foldl (better key) s).2 ∧
      (∀ b ∈ l, ∀ k, key b = some k → k ≤ (l.foldl (better key) s).2) ∧
      (l.foldl (better key) s = s ∨ ∃ a ∈ l, s.2 < (l.foldl (better key) s).2 ∧
        (l.foldl (better key) s).1 = some a ∧ key a = some (l.foldl (better key) s).2)
  | [], s => ⟨le_refl _, fun b hb => by simp at hb, .inl rfl⟩
  | a :: l, s => by
    obtain ⟨hle, hall, hkept⟩ := foldl_better key l (better key s a)
    rw [foldl_cons]
    rcases better_cases s a with ⟨k, hk, hlt, heq⟩ | ⟨hno, heq⟩
    · rw [heq] at hle hall hkept ⊢
      refine ⟨hlt.le.trans hle, fun b hb k' hk' => ?_, .inr ?_⟩
      · rcases mem_cons.mp hb with rfl | hb
        · rw [hk, some_inj] at hk'
          exact hk' ▸ hle
        · exact hall b hb k' hk'
      · rcases hkept with hsame | ⟨c, hc, hlt', hres⟩
        · exact ⟨a, mem_cons_self, by rw [hsame]; exact hlt, by rw [hsame], by rw [hsame]; exact hk⟩
        · exact ⟨c, mem_cons_of_mem _ hc, hlt.trans hlt', hres⟩
    · rw [heq] at hle hall hkept ⊢
      refine ⟨hle, fun b hb k' hk' => ?_, hkept.imp_right ?_⟩
      · rcases mem_cons.mp hb with rfl | hb
        · exact (hno k' hk').trans hle
        · exact hall b hb k' hk'
      · rintro ⟨c, hc, hres⟩
        exact ⟨c, mem_cons_of_mem _ hc, hres⟩

/-- **What is kept tops the list.** -/
theorem best_tops (h : best key bound l = some a) : Tops key bound l a := by
  obtain ⟨-, hall, hsame | ⟨b, hb, hlt, hkept, hk⟩⟩ := foldl_better key l (none, bound)
  · rw [best, hsame] at h
    cases h
  · rw [best, hkept, some_inj] at h
    subst h
    exact ⟨hb, _, hk, hlt, hall⟩

/-- If something tops the list, something is kept. -/
theorem best_of_tops (h : Tops key bound l a) : ∃ b, best key bound l = some b := by
  obtain ⟨hmem, k, hk, hbound, -⟩ := h
  obtain ⟨-, hall, hsame | ⟨b, -, -, hkept, -⟩⟩ := foldl_better key l (none, bound)
  · have hle := hall a hmem k hk
    rw [hsame] at hle
    exact absurd hbound (not_lt.mpr hle)
  · exact ⟨b, hkept⟩

/-- At the head of the list, an element that tops it is kept. -/
theorem best_cons_of_tops (h : Tops key bound (a :: l) a) : best key bound (a :: l) = some a := by
  obtain ⟨-, k, hk, hbound, htop⟩ := h
  have hfirst : better key (none, bound) a = (some a, k) := by
    rw [better, hk]
    exact if_pos hbound
  obtain ⟨-, -, hsame | ⟨b, hb, hlt, -, hkb⟩⟩ := foldl_better key l (some a, k)
  · rw [best, foldl_cons, hfirst, hsame]
  · exact absurd hlt (not_lt.mpr (htop b (mem_cons_of_mem _ hb) _ hkb))

/-- Where one element at most tops the list, that one is kept. -/
theorem best_eq_some_iff (hone : ∀ b c, Tops key bound l b → Tops key bound l c → b = c) :
    best key bound l = some a ↔ Tops key bound l a := by
  refine ⟨best_tops, fun h => ?_⟩
  obtain ⟨b, hb⟩ := best_of_tops h
  rw [hb, hone b a (best_tops hb) h]

/-- **The order of the list** does not matter exactly if one element at most tops it. -/
theorem best_perm_iff : (∀ l' : List α, l'.Perm l → best key bound l' = best key bound l) ↔
    ∀ b c, Tops key bound l b → Tops key bound l c → b = c := by
  constructor
  · intro hperm
    -- moved to the front, each of them is kept
    have hfront : ∀ {b}, Tops key bound l b → best key bound l = some b := fun {b} hb => by
      obtain ⟨s, t, hst⟩ := append_of_mem hb.1
      have hmoved : (b :: (s ++ t)).Perm l := hst ▸ perm_middle.symm
      rw [← hperm _ hmoved]
      exact best_cons_of_tops (hb.perm hmoved.symm)
    intro b c hb hc
    exact some_inj.mp ((hfront hb).symm.trans (hfront hc))
  · intro hone l' hl'
    have hone' : ∀ b c, Tops key bound l' b → Tops key bound l' c → b = c := fun b c hb hc =>
      hone b c (hb.perm hl') (hc.perm hl')
    refine Option.ext fun b => ?_
    rw [best_eq_some_iff hone', best_eq_some_iff hone]
    exact ⟨fun h => h.perm hl', fun h => h.perm hl'.symm⟩

end Vyb.Lib
