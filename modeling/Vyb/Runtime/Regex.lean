/-
  Subject:   Replacing all matches of a regular expression (`__vyb_regex_replace_all`).

  `regexec` is a parameter: a `Matcher` says where the matches are, and the leftmost one at or behind the
  search position is what it returns. `^` matches nowhere but at 0, and 0 is searched from no other position,
  so the matches do not depend on where a search begins.

  The result is put together in a buffer that grows. Requests for memory are met.

  * `append_spec` -- `vyb_grow_append` puts bytes behind those that are there;
  * `replaceAll_returns` -- the loop ends, with the text of `leapfrog`: behind an empty match the scan goes on
    one byte further, and that byte is not copied;
  * **`replaceAll_iff`** -- for every subject, all other bytes are kept exactly if no empty match is found in
    front of the end;
  * `empty_match_drops` -- `x*` on `a`.
-/
import Vyb.Lib.Buffer
import Vyb.Lib.Substitute
import Vyb.Lib.While
import Vyb.Runtime.Str

namespace Vyb.Runtime

open Lib Fueled List

/-! ## 1. The buffer -/

/-- `vyb_grow`; a block of no bytes is the null pointer. -/
structure Grow where
  buf : List UInt8
  len : Nat
  cap : Nat

/-- `while (g->len + n + 1 > nc) nc *= 2;` -/
def growCapacity (need nc : Nat) : Fueled Nat :=
  loop (fun nc => pure (if need > nc then .inl (nc * 2) else .inr nc)) nc

/-- `realloc`: the bytes that come in addition are written before they are read. -/
def realloc (buf : List UInt8) (nc : Nat) : List UInt8 := buf.take nc ++ List.replicate (nc - buf.length) 0

/-- The first half of `vyb_grow_append`: there is room for `n` more bytes and a NUL. -/
def Grow.reserve (g : Grow) (n : Nat) : Fueled Grow :=
  if g.len + n + 1 > g.cap then do
    let nc ← growCapacity (g.len + n + 1) (if g.cap ≠ 0 then g.cap * 2 else 64)
    pure { g with buf := realloc g.buf nc, cap := nc }
  else pure g

/-- `vyb_grow_append` -/
def Grow.append (g : Grow) (data : Str) : Fueled Grow := do
  let g ← g.reserve data.length
  pure { g with buf := (copyInto g.buf g.len data).set (g.len + data.length) 0, len := g.len + data.length }

/-- The buffer holds the bytes `s`. -/
structure Grow.Holds (g : Grow) (s : Str) : Prop where
  len : g.len = s.length
  cap : g.buf.length = g.cap
  bytes : g.buf.take g.len = s

theorem growCapacity_returns (need nc : Nat) (hnc : 0 < nc) :
    ∃ nc', (growCapacity need nc).Returns nc' ∧ need ≤ nc' ∧ nc ≤ nc' := by
  induction hk : need - nc using Nat.strong_induction_on generalizing nc with
  | _ k ih =>
    by_cases h : need > nc
    · obtain ⟨nc', hret, hneed, hle⟩ := ih (need - nc * 2) (by omega) (nc * 2) (by omega) rfl
      refine ⟨nc', loop_returns_of_next (returns_pure.mpr (if_pos h)) hret, hneed, by omega⟩
    · exact ⟨nc, loop_returns_of_exit (returns_pure.mpr (if_neg h)), by omega, le_refl nc⟩

variable {g : Grow}

theorem reserve_spec {s : Str} (h : g.Holds s) (n : Nat) :
    ∃ g', (g.reserve n).Returns g' ∧ g'.Holds s ∧ s.length + n < g'.cap := by
  unfold Grow.reserve
  by_cases hroom : g.len + n + 1 > g.cap
  · rw [if_pos hroom]
    obtain ⟨nc, hret, hneed, hle⟩ := growCapacity_returns (g.len + n + 1)
      (if g.cap ≠ 0 then g.cap * 2 else 64) (by split <;> omega)
    have hcap : g.cap ≤ nc := by
      refine le_trans ?_ hle
      split <;> omega
    have hlen := h.len
    refine ⟨_, returns_bind.mpr ⟨nc, hret, returns_pure.mpr rfl⟩, ⟨hlen, ?_, ?_⟩, by simp; omega⟩
    · simp only [realloc, length_append, length_take, length_replicate, h.cap]
      omega
    · have htake : g.buf.take nc = g.buf := take_of_length_le (by rw [h.cap]; exact hcap)
      have hfit : g.len ≤ g.buf.length := by
        have := congrArg List.length h.bytes
        rw [length_take] at this
        omega
      simp only [realloc, htake]
      rw [take_append_of_le_length hfit, h.bytes]
  · rw [if_neg hroom]
    have hlen := h.len
    exact ⟨g, returns_pure.mpr rfl, h, by omega⟩

/-- **`vyb_grow_append`** -/
theorem append_spec {s : Str} (h : g.Holds s) (data : Str) :
    ∃ g', (g.append data).Returns g' ∧ g'.Holds (s ++ data) ∧ 0 < g'.cap := by
  obtain ⟨g₁, hret, h₁, hcap⟩ := reserve_spec h data.length
  have hlen := h₁.len
  have hbuf := h₁.cap
  have hcopy : (copyInto g₁.buf g₁.len data).length = g₁.buf.length := length_copyInto (by omega)
  refine ⟨_, returns_bind.mpr ⟨g₁, hret, returns_pure.mpr rfl⟩, ⟨?_, ?_, ?_⟩, by simp; omega⟩
  · simp [hlen]
  · simp [hcopy, hbuf]
  · -- the NUL is behind the bytes
    rw [take_set_of_le (le_refl _), copyInto, h₁.bytes]
    rw [take_append_of_le_length (by simp [hlen]), take_of_length_le (by simp [hlen])]

/-! ## 2. The loop -/

section Replace

variable {s : Str} (M : Matcher s.length) (repl : Str)

/-- What is between the last match and this one. -/
def appendGap (g : Grow) (s : Str) (pos so : Nat) : Fueled Grow :=
  if pos < so then g.append ((s.drop pos).take (so - pos)) else pure g

/-- A round of `while (pos <= slen)`. -/
def replaceRound (st : Grow × Nat) : Fueled ((Grow × Nat) ⊕ Grow) :=
  if st.2 ≤ s.length then
    match M.find st.2 with
    | none => do
      let g ← st.1.append (s.drop st.2)
      pure (.inr g)
    | some (so, eo) => do
      let g ← appendGap st.1 s st.2 so
      let g ← g.append repl
      pure (.inl (g, if eo > so then eo else so + 1))
  else pure (.inr st.1)

/-- **`__vyb_regex_replace_all`** -/
def replaceAll : Fueled Str := do
  let g ← loop (replaceRound M repl) (⟨[], 0, 0⟩, 0)
  -- without a buffer the original is handed back
  pure (if g.buf = [] then s else g.buf.take g.len)

variable {M repl} {acc : Str}

theorem appendGap_spec (h : g.Holds acc) (s : Str) (pos so : Nat) :
    ∃ g', (appendGap g s pos so).Returns g' ∧ g'.Holds (acc ++ (s.drop pos).take (so - pos)) := by
  unfold appendGap
  by_cases hlt : pos < so
  · rw [if_pos hlt]
    obtain ⟨g', hret, h', -⟩ := append_spec h ((s.drop pos).take (so - pos))
    exact ⟨g', hret, h'⟩
  · rw [if_neg hlt, show so - pos = 0 by omega, take_zero, append_nil]
    exact ⟨g, returns_pure.mpr rfl, h⟩

variable (repl) in
theorem round_found (h : g.Holds acc) {pos so eo : Nat} (hpos : pos ≤ s.length)
    (hfind : M.find pos = some (so, eo)) :
    ∃ g', (replaceRound M repl (g, pos)).Returns (.inl (g', afterMatch so eo)) ∧
      g'.Holds (acc ++ ((s.drop pos).take (so - pos) ++ repl)) ∧ 0 < g'.cap := by
  obtain ⟨g₁, hret₁, h₁⟩ := appendGap_spec h s pos so
  obtain ⟨g₂, hret₂, h₂, hcap⟩ := append_spec h₁ repl
  rw [append_assoc] at h₂
  refine ⟨g₂, ?_, h₂, hcap⟩
  simp only [replaceRound, hpos, if_true, hfind]
  exact returns_bind.mpr ⟨g₁, hret₁, returns_bind.mpr ⟨g₂, hret₂, returns_pure.mpr rfl⟩⟩

variable (repl) in
theorem round_notFound (h : g.Holds acc) {pos : Nat} (hfind : M.find pos = none)
    (hcap : s.length < pos → 0 < g.cap) :
    ∃ g', (replaceRound M repl (g, pos)).Returns (.inr g') ∧ g'.Holds (acc ++ s.drop pos) ∧ 0 < g'.cap := by
  by_cases hpos : pos ≤ s.length
  · obtain ⟨g', hret, h', hcap'⟩ := append_spec h (s.drop pos)
    refine ⟨g', ?_, h', hcap'⟩
    simp only [replaceRound, hpos, if_true, hfind]
    exact returns_bind.mpr ⟨g', hret, returns_pure.mpr rfl⟩
  · refine ⟨g, ?_, ?_, hcap (by omega)⟩
    · simp only [replaceRound, hpos, if_false]
      exact returns_pure.mpr rfl
    · rw [drop_eq_nil_of_le (by omega), append_nil]
      exact h

variable (M repl) in
/-- **The loop**, with `acc` in the buffer: the scan goes on behind the match it has found. -/
theorem replaceLoop_returns (pos : Nat) : ∀ {g : Grow} {acc : Str}, g.Holds acc →
    (s.length < pos → 0 < g.cap) →
      ∃ g', (loop (replaceRound M repl) (g, pos)).Returns g' ∧
        g'.Holds (acc ++ leapfrog s pos (M.found pos) repl) ∧ 0 < g'.cap := by
  induction pos using M.scan_induction with
  | hnone pos hfind =>
    intro g acc h hcap
    obtain ⟨g', hret, h', hcap'⟩ := round_notFound repl h hfind hcap
    rw [Matcher.found_none hfind]
    exact ⟨g', loop_returns_of_exit hret, h', hcap'⟩
  | hsome pos so eo hfind ih =>
    intro g acc h _
    have hb := Matcher.find_bounds hfind
    obtain ⟨g₁, hret, h₁, hcap⟩ := round_found repl h (by omega) hfind
    obtain ⟨g', hloop, h', hcap'⟩ := ih h₁ fun _ => hcap
    refine ⟨g', loop_returns_of_next hret hloop, ?_, hcap'⟩
    rw [Matcher.found_some hfind, leapfrog]
    simpa only [append_assoc] using h'

/-- **`__vyb_regex_replace_all` returns.** -/
theorem replaceAll_returns : (replaceAll M repl).Returns (leapfrog s 0 (M.found 0) repl) := by
  have hstart : (⟨[], 0, 0⟩ : Grow).Holds [] := ⟨rfl, rfl, rfl⟩
  obtain ⟨g, hloop, hg, hcap⟩ := replaceLoop_returns M repl 0 hstart (by omega)
  refine returns_bind.mpr ⟨g, hloop, returns_pure.mpr ?_⟩
  have hbuf : g.buf ≠ [] := by
    intro hnil
    have := hg.cap
    rw [hnil, length_nil] at this
    omega
  rw [if_neg hbuf, hg.bytes, nil_append]

end Replace

/-- **Replacing all matches.** Whatever the matches are, the function ends; and for a subject the result is,
    for every replacement, the subject with disjoint matches replaced and everything else kept, exactly if the
    scan finds no empty match in front of the end. -/
theorem replaceAll_iff (s : Str) (M : Matcher s.length) :
    (∀ repl, (replaceAll M repl).Halts) ∧
    ((∀ repl, ∃ ms, M.Disjoint 0 ms ∧ (replaceAll M repl).Returns (substitute s 0 ms repl)) ↔ M.NoGap) := by
  refine ⟨fun repl => ⟨_, replaceAll_returns⟩, ?_⟩
  rw [← leapfrog_eq_iff (show (0 : UInt8) ≠ 1 by decide)]
  refine forall_congr' fun repl => exists_congr fun ms => and_congr_right fun _ => ?_
  exact ⟨fun h => replaceAll_returns.unique h, fun h => h ▸ replaceAll_returns⟩

/-- The matches of `x*` in a text of `n` bytes other than `x`. -/
def emptyMatches (n : Nat) : Matcher n where
  ends so := if so ≤ n then some so else none
  bounds h := by
    split at h
    · obtain rfl := Option.some.inj h
      exact ⟨le_refl _, by assumption⟩
    · cases h

/-- `x*` on `a`, with `-` for the matches: the `a` is gone. -/
theorem empty_match_drops : (replaceAll (s := [97]) (emptyMatches 1) [45]).Returns [45, 45] ∧
    ¬ ∃ ms, (emptyMatches 1).Disjoint 0 ms ∧ substitute [97] 0 ms [45] = [45, 45] := by
  have hends : ∀ {so eo : Nat}, (emptyMatches 1).ends so = some eo → so ≤ 1 ∧ eo = so := fun {so eo} h => by
    simp only [emptyMatches, Option.ite_none_right_eq_some, Option.some.injEq] at h
    exact ⟨h.1, h.2.symm⟩
  -- matches behind the first position leave the byte in front
  have hkept : ∀ ms, (emptyMatches 1).Disjoint 1 ms → ∃ rest, substitute [97] 0 ms [45] = 97 :: rest := by
    intro ms hms
    cases ms with
    | nil => exact ⟨[], rfl⟩
    | cons m ms =>
      obtain ⟨so, eo⟩ := m
      obtain ⟨hle, he, -⟩ := hms
      obtain rfl : so = 1 := by
        have := (hends he).1
        omega
      exact ⟨_, rfl⟩
  refine ⟨⟨10, by decide +kernel⟩, ?_⟩
  rintro ⟨ms, hms, h⟩
  cases ms with
  | nil => cases h
  | cons m ms =>
    obtain ⟨so, eo⟩ := m
    obtain ⟨-, he, hms⟩ := hms
    obtain ⟨hso, rfl⟩ := hends he
    obtain rfl | rfl : eo = 0 ∨ eo = 1 := by omega
    · obtain ⟨rest, hrest⟩ := hkept ms hms
      simp [substitute, hrest] at h
    · simp [substitute] at h

end Vyb.Runtime
