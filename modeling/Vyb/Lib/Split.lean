/-
  Subject:   Cutting a list at a separator.

  * `splitSep x l` -- the pieces of `l` between the occurrences of `x`;
  * `splitSep_append` -- a separator between two lists separates their pieces;
  * `splitSep_injective` -- the pieces determine the list;
  * `splitSep_lines` -- the lines of a text that ends each of them;
  * `flatMap_eq_iff_of_length` -- pieces that are only made longer come to the same exactly if they stay.
-/
import Mathlib.Tactic

namespace Vyb.Lib

open List

universe u

variable {α : Type u} [DecidableEq α] (x : α)

/-- The pieces of a list between the occurrences of `x`; never empty. -/
def splitSep : List α → List (List α)
  | [] => [[]]
  | c :: cs =>
    if c = x then [] :: splitSep cs
    else
      match splitSep cs with
      | [] => [[c]]
      | w :: ws => (c :: w) :: ws

/-- The pieces put together again. -/
def joinSep : List (List α) → List α
  | [] => []
  | [w] => w
  | w :: v :: ws => w ++ x :: joinSep (v :: ws)

theorem splitSep_ne_nil : ∀ l : List α, splitSep x l ≠ []
  | [] => by simp [splitSep]
  | c :: cs => by
    unfold splitSep
    split
    · simp
    · split <;> simp

/-- **A separator separates the pieces.** -/
theorem splitSep_append (b : List α) : ∀ a : List α,
    splitSep x (a ++ x :: b) = splitSep x a ++ splitSep x b
  | [] => by simp [splitSep]
  | c :: a => by
    have ih := splitSep_append b a
    rw [cons_append, splitSep, splitSep, ih]
    by_cases hc : c = x
    · simp only [hc, ↓reduceIte, cons_append]
    · simp only [hc, ↓reduceIte]
      cases ha : splitSep x a with
      | nil => exact absurd ha (splitSep_ne_nil x a)
      | cons w ws => rfl

theorem joinSep_splitSep : ∀ l : List α, joinSep x (splitSep x l) = l
  | [] => rfl
  | c :: cs => by
    have ih := joinSep_splitSep cs
    rw [splitSep]
    cases hs : splitSep x cs with
    | nil => exact absurd hs (splitSep_ne_nil x cs)
    | cons w ws =>
      rw [hs] at ih
      by_cases hc : c = x
      · simp only [hc, ↓reduceIte, joinSep, nil_append, ih]
      · simp only [hc, ↓reduceIte]
        cases ws with
        | nil | cons v ws => rw [← ih]; rfl

/-- **The pieces determine the list.** -/
theorem splitSep_injective : Function.Injective (splitSep x) :=
  Function.LeftInverse.injective (joinSep_splitSep x)

theorem splitSep_of_notMem : ∀ {l : List α}, x ∉ l → splitSep x l = [l]
  | [], _ => rfl
  | c :: cs, h => by
    have hc : c ≠ x := fun he => h (he ▸ mem_cons_self)
    rw [splitSep, splitSep_of_notMem fun hm => h (mem_cons_of_mem _ hm), if_neg hc]

theorem notMem_of_mem_splitSep : ∀ {l w : List α}, w ∈ splitSep x l → x ∉ w
  | [], w, h => by
    rw [mem_singleton.mp h]
    exact not_mem_nil
  | c :: cs, w, h => by
    rw [splitSep] at h
    split at h
    · rcases mem_cons.mp h with rfl | h
      · exact not_mem_nil
      · exact notMem_of_mem_splitSep h
    · rename_i hc
      cases hs : splitSep x cs with
      | nil => exact absurd hs (splitSep_ne_nil x cs)
      | cons v ws =>
        rw [hs] at h
        have hall : ∀ u ∈ v :: ws, x ∉ u := fun u hu => notMem_of_mem_splitSep (hs ▸ hu)
        rcases mem_cons.mp h with rfl | h
        · exact fun hm => (mem_cons.mp hm).elim (fun he => hc he.symm) (hall v mem_cons_self)
        · exact hall w (mem_cons_of_mem v h)

/-- The lines of a text in which every line is ended. -/
theorem splitSep_lines : ∀ {ls : List (List α)}, (∀ l ∈ ls, x ∉ l) →
    splitSep x (ls.flatMap (· ++ [x])) = ls ++ [[]]
  | [], _ => rfl
  | l :: ls, h => by
    have ih := splitSep_lines fun k hk => h k (mem_cons_of_mem l hk)
    rw [flatMap_cons, append_assoc, singleton_append, splitSep_append, ih,
      splitSep_of_notMem x (h l mem_cons_self)]
    rfl

/-- **Two readings of the same pieces**, one never longer than the other, come to the same list exactly if they
    agree on every piece. -/
theorem flatMap_eq_iff_of_length {β : Type*} {γ : Type*} {f g : β → List γ}
    (h : ∀ b, (f b).length ≤ (g b).length) : ∀ {l : List β}, l.flatMap f = l.flatMap g ↔ ∀ b ∈ l, f b = g b
  | [] => by simp
  | b :: l => by
    have hrest : (l.flatMap f).length ≤ (l.flatMap g).length := by
      rw [length_flatMap, length_flatMap]
      exact sum_le_sum fun c _ => h c
    have hb := h b
    rw [flatMap_cons, flatMap_cons, forall_mem_cons, ← flatMap_eq_iff_of_length h]
    constructor
    · intro heq
      have hlen := congrArg List.length heq
      rw [length_append, length_append] at hlen
      exact append_inj heq (by omega)
    · intro heq
      rw [heq.1, heq.2]

end Vyb.Lib
