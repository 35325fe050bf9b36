/-
  Subject:   Connections that are read piece by piece.

  * `Transport` -- something that can be asked for at most `n` elements, with what is still ahead; `Live n`
    says that asking for `n` yields something as long as there is something;
  * `Segments` -- the bytes of a connection as they arrive; one read takes from one segment only.
    `segmented` is the transport, **`segmented_live`** says that its reads do not come back empty before
    the end;
  * `Realises f g` -- a reader `f` does on every connection what `g` does on the elements ahead, however they
    are cut; `Consumes f` -- it ends, and what is ahead of it afterwards was so before.
-/
import Vyb.Lib.Chunks
import Vyb.Lib.While

namespace Vyb.Lib

open Fueled List

universe u

/-! ## 1. Transports -/

/-- A connection in state `s` can be asked for at most `n` elements. -/
structure Transport (σ α : Type u) where
  recv : Nat → σ → List α × σ
  ahead : σ → List α
  recv_append : ∀ n s, (recv n s).1 ++ ahead (recv n s).2 = ahead s
  length_recv : ∀ n s, (recv n s).1.length ≤ n

namespace Transport

variable {σ α : Type u} (T : Transport σ α)

/-- A read of at most `n` elements is empty only at the end. -/
def Live (n : Nat) : Prop := ∀ s, T.ahead s ≠ [] → (T.recv n s).1 ≠ []

variable {T}

theorem ahead_recv (n : Nat) (s : σ) : T.ahead (T.recv n s).2 = (T.ahead s).drop (T.recv n s).1.length := by
  have h := T.recv_append n s
  rw [← h, drop_left]

theorem recv_eq_take (n : Nat) (s : σ) : (T.recv n s).1 = (T.ahead s).take (T.recv n s).1.length := by
  have h := T.recv_append n s
  rw [← h, take_left]

end Transport

/-! ## 2. Segments -/

/-- What arrives on a connection, in the pieces in which it arrives. -/
structure Segments (α : Type u) where
  pieces : Chunks α
  solid : ∀ c ∈ pieces, c ≠ []

namespace Segments

variable {α : Type u}

/-- What is left of the segments when `n` elements were taken from the first. -/
def dropPiece (n : Nat) (c : List α) (cs : Chunks α) : Chunks α := if c.length ≤ n then cs else c.drop n :: cs

/-- One read. -/
def recv (n : Nat) (s : Segments α) : List α × Segments α :=
  match s with
  | ⟨[], h⟩ => ([], ⟨[], h⟩)
  | ⟨c :: cs, h⟩ => (c.take n, ⟨dropPiece n c cs, by
      unfold dropPiece
      split
      · exact fun d hd => h d (mem_cons_of_mem c hd)
      · intro d hd
        rcases mem_cons.mp hd with rfl | hd
        · simpa using (by omega : n < c.length)
        · exact h d (mem_cons_of_mem c hd)⟩)

def ahead (s : Segments α) : List α := s.pieces.flatten

end Segments

/-- The transport of a connection. -/
def segmented (α : Type u) : Transport (Segments α) α where
  recv := Segments.recv
  ahead := Segments.ahead
  recv_append n s := by
    obtain ⟨cs, h⟩ := s
    cases cs with
    | nil => rfl
    | cons c cs =>
      simp only [Segments.recv, Segments.ahead, Segments.dropPiece, flatten_cons]
      split
      · rename_i hle
        rw [take_of_length_le hle]
      · rw [flatten_cons, ← append_assoc, take_append_drop]
  length_recv n s := by
    obtain ⟨cs, h⟩ := s
    cases cs with
    | nil => exact Nat.zero_le n
    | cons c cs => exact length_take_le n c

/-- **Reads do not come back empty** before the end. -/
theorem segmented_live (α : Type u) {n : Nat} (hn : 0 < n) : (segmented α).Live n := by
  rintro ⟨cs, h⟩ hne
  cases cs with
  | nil => exact absurd rfl hne
  | cons c cs =>
    have hc := h c mem_cons_self
    simp only [segmented, Segments.recv, ne_eq, take_eq_nil_iff, not_or]
    exact ⟨by omega, hc⟩

/-! ## 3. Readers -/

section Readers

variable {σ α β : Type u} {T : Transport σ α}

/-- `f` reads on every connection what `g` reads off the elements ahead. -/
def Realises (T : Transport σ α) (f : σ → Fueled (β × σ)) (g : List α → β × List α) : Prop :=
  ∀ s, ∃ s', (f s).Returns ((g (T.ahead s)).1, s') ∧ T.ahead s' = (g (T.ahead s)).2

/-- A reader ends, and leaves an end of what was ahead. -/
def Consumes (T : Transport σ α) (f : σ → Fueled (β × σ)) : Prop :=
  ∀ s, ∃ b s', (f s).Returns (b, s') ∧ T.ahead s' <:+ T.ahead s

/-- A reader on a connection of which it is known what is ahead. -/
theorem Realises.apply {f : σ → Fueled (β × σ)} {g : List α → β × List α} (h : Realises T f g) {s : σ}
    {l r : List α} {b : β} (hs : T.ahead s = l) (hg : g l = (b, r)) :
    ∃ s', (f s).Returns (b, s') ∧ T.ahead s' = r := by
  obtain ⟨s', hf, hs'⟩ := h s
  rw [hs, hg] at hf hs'
  exact ⟨s', hf, hs'⟩

end Readers

end Vyb.Lib
