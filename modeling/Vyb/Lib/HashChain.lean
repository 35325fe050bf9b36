/-
  Subject:   Chains of blocks, each of which names the hash of the one before it.

  * `Linked ok prev hash p n bs` -- the blocks `bs`, the first at place `n`, each `ok` at its place, each
    with the hash of the one before it, the first with `p`;
  * `linked_concat` -- what a further block has to meet;
  * **`Linked.commit`** -- if a hash determines the block that has it, the last hash determines the chain.
-/
import Mathlib.Tactic

namespace Vyb.Lib

open List

universe u v

variable {β : Type u} {η : Type v} (ok : Nat → β → Prop) (prev hash : β → η)

def Linked : η → Nat → List β → Prop
  | _, _, [] => True
  | p, n, b :: bs => ok n b ∧ prev b = p ∧ Linked (hash b) (n + 1) bs

variable {ok prev hash}

theorem Linked.mem : ∀ {bs : List β} {p : η} {n : Nat}, Linked ok prev hash p n bs → ∀ b ∈ bs, ∃ k, ok k b
  | b :: _, _, n, h, c, hc => by
    rcases mem_cons.mp hc with rfl | hc
    · exact ⟨n, h.1⟩
    · exact Linked.mem h.2.2 c hc

theorem linked_concat : ∀ {bs : List β} {b : β} {p : η} {n : Nat}, Linked ok prev hash p n (bs ++ [b]) ↔
    Linked ok prev hash p n bs ∧ ok (n + bs.length) b ∧ prev b = (bs.getLast?.map hash).getD p
  | [], b, p, n => by simp [Linked]
  | a :: bs, b, p, n => by
    have ih := @linked_concat bs b (hash a) (n + 1)
    have hlast : ((a :: bs).getLast?.map hash).getD p = (bs.getLast?.map hash).getD (hash a) := by
      cases bs with
      | nil => rfl
      | cons c bs => simp [getLast?_cons]
    have hlen : n + 1 + bs.length = n + (a :: bs).length := by rw [length_cons]; omega
    rw [cons_append, Linked, Linked, ih, hlast, hlen]
    simp only [and_assoc]

/-- Two chains whose blocks are determined by their hashes, with as many blocks and the same last hash:
the step from the end to the front goes over the links. -/
theorem Linked.commit : ∀ {as bs : List β} {p q : η} {n : Nat},
    (∀ k, ∀ a ∈ as, ∀ b ∈ bs, ok k a → ok k b → hash a = hash b → a = b) →
    Linked ok prev hash p n as → Linked ok prev hash q n bs → as.length = bs.length →
    as.getLast?.map hash = bs.getLast?.map hash → as = bs
  | [], bs, p, q, n, _, _, _, hlen, _ => (eq_nil_of_length_eq_zero hlen.symm).symm
  | a :: as, [], p, q, n, _, _, _, hlen, _ => by simp at hlen
  | a :: as, b :: bs, p, q, n, hbind, ⟨hoka, hpa, ha⟩, ⟨hokb, hpb, hb⟩, hlen, hlast => by
    have hlen' : as.length = bs.length := by simpa using hlen
    have hheads : hash a = hash b ∧ as = bs := by
      cases as with
      | nil =>
        obtain rfl : bs = [] := eq_nil_of_length_eq_zero hlen'.symm
        exact ⟨by simpa using hlast, rfl⟩
      | cons a₁ as =>
        cases bs with
        | nil => simp at hlen'
        | cons b₁ bs =>
          have htail : a₁ :: as = b₁ :: bs := Linked.commit
            (fun k x hx y hy => hbind k x (mem_cons_of_mem a hx) y (mem_cons_of_mem b hy))
            ha hb hlen' (by simpa [getLast?_cons_cons] using hlast)
          -- the first blocks of the tails name the two hashes
          have hfirst : a₁ = b₁ := (List.cons.inj htail).1
          exact ⟨by rw [← ha.2.1, ← hb.2.1, hfirst], htail⟩
    obtain ⟨hhash, rfl⟩ := hheads
    rw [hbind n a mem_cons_self b mem_cons_self hoka hokb hhash]

end Vyb.Lib
