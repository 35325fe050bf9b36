/-
  Subject:   Depth-first search that marks nothing.

  * `dfs hit next` -- does a hit lie below a node? The successors are searched in order, up to the first
    one with a hit below it. On a cycle this need not end, so it takes fuel.
  * `dfs_eq_some` -- an answer is right; **`dfs_ends_iff`** -- the search ends exactly if there is no endless
    chain of nodes, each asked for at the one before.
-/
import Mathlib.Order.Filter.AtTopBot.Basic
import Mathlib.Order.Filter.Finite

namespace Vyb.Lib

open List Relation Filter

variable {α : Type*}

/-- `b` stands in the list, and nothing before it has `P`. -/
def AskedIn (P : α → Prop) (b : α) : List α → Prop
  | [] => False
  | c :: l => b = c ∨ ¬ P c ∧ AskedIn P b l

variable {P : α → Prop}

theorem AskedIn.mem {b : α} : ∀ {l : List α}, AskedIn P b l → b ∈ l
  | _ :: _, .inl h => h ▸ mem_cons_self
  | _ :: _, .inr h => mem_cons_of_mem _ h.2.mem

section AnyM

variable {f : α → Option Bool} (hf : ∀ {c b}, f c = some b → (b = true ↔ P c))
include hf

theorem anyM_eq_some : ∀ {l : List α} {b : Bool}, l.anyM f = some b → (b = true ↔ ∃ c ∈ l, P c)
  | [], b, h => by cases h; simp
  | c :: l, b, h => by
    rcases hc : f c with _ | _ | _
    · simp [hc] at h
    · simp [hc] at h
      simp [anyM_eq_some h, ← hf hc]
    · simp [hc] at h
      simp [← h, ← hf hc]

theorem anyM_isSome_iff : ∀ {l : List α},
    (l.anyM f).isSome = true ↔ ∀ b, AskedIn P b l → (f b).isSome = true
  | [] => by simp [AskedIn]
  | c :: l => by
    rcases hc : f c with _ | _ | _
    · simp [AskedIn, hc, or_imp, forall_and]
    · simp [AskedIn, hc, or_imp, forall_and, ← hf hc, anyM_isSome_iff]
    · simp [AskedIn, hc, ← hf hc]

end AnyM

variable (hit : α → Bool) (next : α → List α)

/-- Does a hit lie below a node? -/
def dfs : Nat → α → Option Bool
  | 0, _ => none
  | n + 1, a => if hit a then some true else (next a).anyM (dfs n)

/-- The node or something below it is a hit. -/
def LeadsTo (a : α) : Prop := ∃ d, ReflTransGen (fun a b => b ∈ next a) a d ∧ hit d = true

/-- The search at `a` goes on to `b`: `a` is no hit, and no successor before `b` leads to one. -/
def AskedAt (b a : α) : Prop := hit a = false ∧ AskedIn (LeadsTo hit next) b (next a)

variable {hit next} {a : α}

/-- **An answer is right.** -/
theorem dfs_eq_some : ∀ {n : Nat} {a : α} {b : Bool}, dfs hit next n a = some b →
    (b = true ↔ LeadsTo hit next a)
  | n + 1, a, b, h => by
    rw [dfs] at h
    split at h
    · next ha =>
      cases h
      exact iff_of_true rfl ⟨a, .refl, ha⟩
    · next ha =>
      rw [anyM_eq_some dfs_eq_some h]
      constructor
      · rintro ⟨c, hc, d, hcd, hd⟩
        exact ⟨d, .head hc hcd, hd⟩
      · rintro ⟨d, had, hd⟩
        obtain rfl | ⟨c, hc, hcd⟩ := had.cases_head
        · exact absurd hd ha
        · exact ⟨c, hc, d, hcd, hd⟩

theorem acc_of_dfs : ∀ {n : Nat} {a : α}, (dfs hit next n a).isSome = true → Acc (AskedAt hit next) a
  | n + 1, a, h => by
    refine ⟨a, fun b ⟨ha, hb⟩ => acc_of_dfs (n := n) ?_⟩
    rw [dfs, ha, if_neg Bool.false_ne_true, anyM_isSome_iff dfs_eq_some] at h
    exact h b hb

theorem dfs_of_acc (h : Acc (AskedAt hit next) a) : ∀ᶠ n in atTop, (dfs hit next n a).isSome = true := by
  induction h with
  | intro a _ ih =>
    have hnext : ∀ᶠ n in atTop, ∀ b ∈ {b | b ∈ next a}, AskedAt hit next b a → (dfs hit next n b).isSome = true :=
      (eventually_all_finite (finite_toSet _)).mpr fun b _ => eventually_imp_distrib_left.mpr (ih b)
    obtain ⟨N, hN⟩ := eventually_atTop.mp hnext
    refine eventually_atTop.mpr ⟨N + 1, fun n hn => ?_⟩
    obtain ⟨k, rfl⟩ : ∃ k, n = k + 1 := ⟨n - 1, by omega⟩
    rw [dfs]
    split
    · rfl
    · next ha =>
      rw [anyM_isSome_iff dfs_eq_some]
      exact fun b hb => hN k (by omega) b hb.mem ⟨by simpa using ha, hb⟩

/-- **Where the search ends.** -/
theorem dfs_ends_iff : (∃ n, (dfs hit next n a).isSome = true) ↔ Acc (AskedAt hit next) a :=
  ⟨fun ⟨_, h⟩ => acc_of_dfs h, fun h => (dfs_of_acc h).exists⟩

end Vyb.Lib
