/-
  Subject:   Lists that go through a graph in order, every node behind those it leads to.

  * `InOrder next l` -- no node twice, and each behind all its successors;
  * `InOrder.snoc` -- the next node, when its successors are there;
  * `InOrder.mem_of_reach`, `InOrder.not_cyclic` -- the list has all that its nodes reach, and no cycle
    goes through one of them;
  * `reaches_last` -- along a chain every node reaches the last one.
-/
import Mathlib.Tactic

namespace Vyb.Lib

open Relation List

universe u

variable {α : Type u} {next : α → α → Prop}

/-- The nodes of the list are distinct, and each stands behind its successors. -/
structure InOrder (next : α → α → Prop) (l : List α) : Prop where
  nodup : l.Nodup
  before : ∀ {pre k post}, l = pre ++ k :: post → ∀ j, next k j → j ∈ pre

namespace InOrder

variable {l : List α} {k j : α}

theorem nil : InOrder next [] where
  nodup := nodup_nil
  before h := absurd h.symm (append_ne_nil_of_right_ne_nil _ (cons_ne_nil _ _))

variable (h : InOrder next l)
include h

theorem snoc (hk : k ∉ l) (hnext : ∀ j, next k j → j ∈ l) :
    InOrder next (l ++ [k]) where
  nodup := h.nodup.append (nodup_singleton k) (by simpa using hk)
  before := by
    intro pre k' post heq j hj
    rcases eq_nil_or_concat post with rfl | ⟨post, x, rfl⟩
    · obtain ⟨rfl, hlast⟩ := append_inj' heq rfl
      obtain rfl := singleton_inj.mp hlast
      exact hnext j hj
    · rw [concat_eq_append, ← cons_append, ← append_assoc] at heq
      exact h.before (append_inj_left' heq rfl) j hj

theorem mem_of_next (hk : k ∈ l) (hj : next k j) : j ∈ l := by
  obtain ⟨pre, post, rfl⟩ := append_of_mem hk
  exact mem_append_left _ (h.before rfl j hj)

/-- The list has everything that its nodes reach. -/
theorem mem_of_reach (hk : k ∈ l) (hj : ReflTransGen next k j) : j ∈ l := by
  induction hj with
  | refl => exact hk
  | tail _ hnext ih => exact h.mem_of_next ih hnext

/-- What a node reaches in one step or more stands before it. -/
theorem before_of_trans (hj : TransGen next k j) :
    ∀ {pre post}, l = pre ++ k :: post → j ∈ pre := by
  induction hj using TransGen.head_induction_on with
  | single hnext => exact fun heq => h.before heq _ hnext
  | head hnext _ ih =>
    intro pre post heq
    obtain ⟨pre', post', rfl⟩ := append_of_mem (h.before heq _ hnext)
    exact mem_append_left _ (ih (by rw [heq, append_assoc, cons_append]))

/-- **No cycle** goes through a node of the list. -/
theorem not_cyclic (hk : k ∈ l) : ¬TransGen next k k := by
  intro hcycle
  obtain ⟨pre, post, rfl⟩ := append_of_mem hk
  have hmem := h.before_of_trans hcycle rfl
  exact disjoint_of_nodup_append h.nodup hmem mem_cons_self

end InOrder

/-- Along a chain every node reaches the last one. -/
theorem reaches_last {l : List α} {x : α} (h : (l ++ [x]).IsChain next) :
    ∀ k ∈ l ++ [x], ReflTransGen next k x := by
  induction l with
  | nil =>
    intro k hk
    obtain rfl := mem_singleton.mp hk
    exact .refl
  | cons a l ih =>
    intro k hk
    have htail := h.tail
    rcases mem_cons.mp hk with rfl | hk
    · obtain ⟨b, l', hl⟩ := exists_cons_of_ne_nil (append_ne_nil_of_right_ne_nil l
        (cons_ne_nil x []))
      rw [cons_append, hl, isChain_cons_cons] at h
      exact .head h.1 (ih htail b (hl ▸ mem_cons_self))
    · exact ih htail k hk

end Vyb.Lib
