/-
  Subject:   A stream that arrives in chunks, read through a buffer.

  * `fill n buf chunks` takes chunks until the buffer has `n` entries; an empty chunk is the end;
  * `Cursor start chunks pos buf rest` -- of the stream that begins with `start` and goes on with
    `chunks`, `pos` entries have been used; `buf` holds what has been read beyond them, `rest` is still to
    come, and no chunk was taken before it was needed;
  * **`Cursor.fill`** -- however the stream is cut, as long as it has `n` more entries they are read, and
    the cursor moves by `n`;
  * `Cursor.rest_eq` -- where the cursor has just passed into a chunk, that chunk is the last one taken.
-/
import Mathlib.Tactic

namespace Vyb.Lib

open List

universe u

variable {α : Type u}

/-- What the reads of a stream return, one after the other; behind the last of them is the end. -/
abbrev Chunks (α : Type u) := List (List α)

/-- `while (buf.len() < n) { chunk = recv(); if chunk is empty, fail; buf = buf ++ chunk }`. The buffer is
returned with all that was read. -/
def fill (n : Nat) (buf : List α) : Chunks α → Option (List α) × Chunks α
  | [] => if n ≤ buf.length then (some buf, []) else (none, [])
  | chunk :: chunks =>
    if n ≤ buf.length then (some buf, chunk :: chunks)
    else if chunk.isEmpty then (none, chunks)
    else fill n (buf ++ chunk) chunks

/-- Whole chunks are taken, and none of them in vain. -/
theorem fill_spec {n : Nat} : ∀ {chunks : Chunks α} {buf : List α}, (∀ c ∈ chunks, c ≠ []) →
    n ≤ (buf ++ chunks.flatten).length → ∃ taken rest, chunks = taken ++ rest ∧
      fill n buf chunks = (some (buf ++ taken.flatten), rest) ∧ n ≤ (buf ++ taken.flatten).length ∧
      (taken = [] ∨ (buf ++ taken.dropLast.flatten).length < n)
  | [], buf, _, hn => by
    have hbuf : n ≤ buf.length := by simpa using hn
    exact ⟨[], [], rfl, by simp [fill, hbuf], by simpa using hbuf, .inl rfl⟩
  | chunk :: chunks, buf, hne, hn => by
    by_cases hbuf : n ≤ buf.length
    · exact ⟨[], chunk :: chunks, rfl, by simp [fill, hbuf], by simpa using hbuf, .inl rfl⟩
    · have hchunk : chunk.isEmpty = false := by simpa using hne chunk mem_cons_self
      obtain ⟨taken, rest, rfl, hfill, hlen, hlast⟩ :=
        @fill_spec n chunks (buf ++ chunk) (fun c hc => hne c (mem_cons_of_mem chunk hc))
          (by simpa [append_assoc] using hn)
      refine ⟨chunk :: taken, rest, rfl, ?_, by simpa [append_assoc] using hlen, .inr ?_⟩
      · rw [fill, if_neg hbuf, hchunk, if_neg Bool.false_ne_true, hfill, flatten_cons,
          append_assoc]
      · -- the first chunk was needed, and the others by induction
        cases taken with
        | nil => simpa using hbuf
        | cons c taken => simpa [append_assoc] using hlast

theorem le_length_of_fill {n : Nat} {got : List α} {rest : Chunks α} : ∀ {chunks : Chunks α} {buf : List α},
    fill n buf chunks = (some got, rest) → n ≤ got.length
  | [], buf, h => by
    rw [fill] at h
    split at h <;> cases h
    assumption
  | chunk :: chunks, buf, h => by
    rw [fill] at h
    split at h
    · cases h
      assumption
    · split at h
      · cases h
      · exact le_length_of_fill h

theorem fill_short {n : Nat} : ∀ {chunks : Chunks α} {buf : List α},
    (buf ++ chunks.flatten).length < n → ∃ rest, fill n buf chunks = (none, rest)
  | [], buf, h => ⟨[], if_neg (by simpa using h)⟩
  | chunk :: chunks, buf, h => by
    rw [fill, if_neg (by simp only [length_append] at h; omega)]
    split
    · exact ⟨chunks, rfl⟩
    · exact fill_short (by simpa [append_assoc] using h)

/-- A place in a stream. -/
structure Cursor (start : List α) (chunks : Chunks α) (pos : Nat) (buf : List α) (rest : Chunks α) :
    Prop where
  nonempty : ∀ c ∈ chunks, c ≠ []
  split : ∃ taken, chunks = taken ++ rest ∧ pos ≤ (start ++ taken.flatten).length ∧
    buf = (start ++ taken.flatten).drop pos ∧
    (taken = [] ∨ (start ++ taken.dropLast.flatten).length < pos)

namespace Cursor

variable {start buf : List α} {chunks rest : Chunks α} {pos n : Nat}

theorem begin (hne : ∀ c ∈ chunks, c ≠ []) : Cursor start chunks 0 start chunks :=
  ⟨hne, [], rfl, Nat.zero_le _, by simp, .inl rfl⟩

section

variable (C : Cursor start chunks pos buf rest)
include C

theorem pos_le : pos ≤ (start ++ chunks.flatten).length := by
  obtain ⟨taken, rfl, hpos, -⟩ := C.split
  simp only [length_append, flatten_append] at hpos ⊢
  omega

theorem ahead :
    buf ++ rest.flatten = (start ++ chunks.flatten).drop pos := by
  obtain ⟨taken, rfl, hpos, rfl, -⟩ := C.split
  rw [flatten_append, ← append_assoc, drop_append_of_le_length hpos]

/-- **However the stream is cut**, its next `n` entries are read. -/
theorem fill (hn : pos + n ≤ (start ++ chunks.flatten).length) :
    ∃ got rest', fill n buf rest = (some got, rest') ∧ n ≤ got.length ∧
      got.take n = ((start ++ chunks.flatten).drop pos).take n ∧
      Cursor start chunks (pos + n) (got.drop n) rest' := by
  have hahead := C.ahead
  obtain ⟨taken, htaken, hpos, hbuf, hmin⟩ := C.split
  have hlen : n ≤ (buf ++ rest.flatten).length := by
    rw [hahead, length_drop]
    omega
  obtain ⟨more, rest', hrest, hfill, hgot, hneed⟩ := fill_spec
    (fun c hc => C.nonempty c (by rw [htaken]; exact mem_append_right taken hc)) hlen
  have hbufLen : buf.length + pos = (start ++ taken.flatten).length := by
    rw [hbuf, length_drop]
    omega
  have hall : (start ++ (taken ++ more).flatten).drop pos = buf ++ more.flatten := by
    rw [flatten_append, ← append_assoc, drop_append_of_le_length hpos, hbuf]
  refine ⟨_, rest', hfill, hgot, ?_, C.nonempty, taken ++ more, ?_, ?_, ?_, ?_⟩
  · rw [← hahead, hrest, flatten_append, ← append_assoc, take_append_of_le_length hgot]
  · rw [htaken, hrest, append_assoc]
  · simp only [length_append, flatten_append] at hgot hbufLen ⊢
    omega
  · rw [← hall, drop_drop]
  · rcases hneed with rfl | hneed
    · rw [append_nil]
      exact hmin.imp id fun h => h.trans_le (Nat.le_add_right _ _)
    · by_cases hmore : more = []
      · subst hmore
        rw [append_nil]
        exact hmin.imp id fun h => h.trans_le (Nat.le_add_right _ _)
      · right
        rw [dropLast_append_of_ne_nil hmore]
        simp only [length_append, flatten_append] at hneed hbufLen ⊢
        omega

end

/-- Where the cursor is in the last chunk of `group` or at its end, `group` is what has been taken. -/
theorem rest_eq {group later : Chunks α} (C : Cursor start (group ++ later) pos buf rest)
    (hinto : group = [] ∨ (start ++ group.dropLast.flatten).length < pos)
    (hwithin : pos ≤ (start ++ group.flatten).length) : rest = later := by
  obtain ⟨taken, htaken, hpos, -, hmin⟩ := C.split
  rcases append_eq_append_iff.mp htaken with ⟨x, hx, hlater⟩ | ⟨x, hx, hrest⟩
  · -- the cursor has been carried beyond the group
    by_cases hnil : x = []
    · rw [hlater, hnil, nil_append]
    · exfalso
      rw [hx, dropLast_append_of_ne_nil hnil] at hmin
      simp only [append_eq_nil_iff, hnil, and_false, false_or, length_append,
        flatten_append] at hmin hwithin
      omega
  · -- the cursor has not come to the end of the group
    by_cases hnil : x = []
    · rw [hrest, hnil, nil_append]
    · exfalso
      rw [hx, dropLast_append_of_ne_nil hnil] at hinto
      simp only [append_eq_nil_iff, hnil, and_false, false_or, length_append,
        flatten_append] at hinto hpos
      omega

end Cursor

end Vyb.Lib
