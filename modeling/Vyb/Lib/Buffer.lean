/-
  Subject:   A buffer of fixed length that loops write.

  * `copyInto m k src` -- `memcpy(m + k, src, n)`;
  * `writeUp m s f n`, `writeDown m e f n` -- `for (i = 0; i < n; i++) m[s + i] = f(i)`, and the same down
    from the place below `e`;
  * **`writeUp_eq`**, **`writeDown_eq`** -- what such a loop leaves behind: the places in front of and behind
    those it wrote are as they were.
-/
import Mathlib.Tactic

namespace Vyb.Lib

open List

universe u

variable {α : Type u}

/-- `memcpy(m + k, src, n)` with `n` the length of `src`. -/
def copyInto (m : List α) (k : Nat) (src : List α) : List α :=
  m.take k ++ src ++ m.drop (k + src.length)

theorem length_copyInto {m src : List α} {k : Nat} (h : k + src.length ≤ m.length) :
    (copyInto m k src).length = m.length := by
  simp only [copyInto, length_append, length_take, length_drop]
  omega

theorem copyInto_append (front m src : List α) :
    copyInto (front ++ m) front.length src = front ++ (src ++ m.drop src.length) := by
  rw [copyInto, take_left, drop_append, append_assoc]
  simp

/-- `for (i = 0; i < n; i++) m[s + i] = f(i)`. -/
def writeUp (m : List α) (s : Nat) (f : Nat → α) (n : Nat) : List α :=
  (List.range n).foldl (fun m i => m.set (s + i) (f i)) m

/-- `for (i = 0; i < n; i++) m[e - 1 - i] = f(i)`. -/
def writeDown (m : List α) (e : Nat) (f : Nat → α) (n : Nat) : List α :=
  (List.range n).foldl (fun m i => m.set (e - 1 - i) (f i)) m

attribute [local simp] copyInto range_succ

/-- **A loop that writes upwards.** -/
theorem writeUp_eq {m : List α} {s : Nat} (f : Nat → α) : ∀ {n : Nat}, s + n ≤ m.length →
    writeUp m s f n = copyInto m s ((List.range n).map f)
  | 0, _ => by simp [writeUp]
  | n + 1, h => by
    have ih : writeUp m s f n = copyInto m s ((range n).map f) := writeUp_eq f (by omega)
    have hfront : (m.take s ++ (range n).map f).length = s + n := by
      simp only [length_append, length_take, length_map, length_range]
      omega
    have hnext : m.drop (s + n) = m[s + n] :: m.drop (s + n + 1) := drop_eq_getElem_cons (by omega)
    calc writeUp m s f (n + 1) = (writeUp m s f n).set (s + n) (f n) := by
          simp [writeUp]
      _ = (m.take s ++ (range n).map f ++ m.drop (s + n)).set (s + n) (f n) := by
          rw [ih, copyInto, length_map, length_range]
      _ = m.take s ++ (range n).map f ++ (f n :: m.drop (s + n + 1)) := by
          rw [set_append_right _ _ (by omega), hfront, hnext, Nat.sub_self, set_cons_zero]
      _ = copyInto m s ((range (n + 1)).map f) := by
          simp [Nat.add_assoc]

/-- **A loop that writes downwards.** -/
theorem writeDown_eq {m : List α} {e : Nat} (f : Nat → α) (he : e ≤ m.length) : ∀ {n : Nat}, n ≤ e →
    writeDown m e f n = copyInto m (e - n) ((List.range n).map fun i => f (n - 1 - i))
  | 0, _ => by simp [writeDown]
  | n + 1, h => by
    have ih := writeDown_eq (n := n) f he (by omega)
    have hlast : m.take (e - n) = m.take (e - (n + 1)) ++ [m[e - (n + 1)]] := by
      rw [show e - n = e - (n + 1) + 1 by omega, take_succ_eq_append_getElem (by omega)]
    have hend : e - n + n = e ∧ e - (n + 1) + (n + 1) = e := by omega
    have hvals : (range (n + 1)).map (fun i => f (n + 1 - 1 - i)) =
        f n :: (range n).map fun i => f (n - 1 - i) := by
      rw [range_succ_eq_map, map_cons, map_map]
      congr 1
      exact map_congr_left fun i _ => congrArg f (by simp only [Nat.succ_eq_add_one]; omega)
    calc writeDown m e f (n + 1) = (writeDown m e f n).set (e - 1 - n) (f n) := by
          simp [writeDown]
      _ = (m.take (e - (n + 1)) ++ (m[e - (n + 1)] :: ((range n).map (fun i => f (n - 1 - i)) ++
            m.drop e))).set (e - (n + 1)) (f n) := by
          rw [ih, copyInto, hlast, length_map, length_range, hend.1,
            show e - 1 - n = e - (n + 1) by omega]
          simp only [append_assoc, cons_append, nil_append]
      _ = m.take (e - (n + 1)) ++ (f n :: ((range n).map (fun i => f (n - 1 - i)) ++ m.drop e)) := by
          have hlen : (m.take (e - (n + 1))).length = e - (n + 1) := by
            rw [length_take]
            omega
          rw [set_append_right _ _ (by omega), hlen, Nat.sub_self, set_cons_zero]
      _ = copyInto m (e - (n + 1)) ((range (n + 1)).map fun i => f (n + 1 - 1 - i)) := by
          rw [copyInto, hvals, length_cons, length_map, length_range, hend.2]
          simp only [append_assoc, cons_append]

end Vyb.Lib
