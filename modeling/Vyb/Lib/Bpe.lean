/-
  Subject:   Byte pair encoding: adjacent symbols are merged, the pair of least rank first.

  * `leastAt f n` -- the leftmost position below `n` with the least value, as a loop from the left finds it;
  * `bpe rank u` -- merge the leftmost pair of least rank, until no two neighbours have a rank.
    **`bpe_spec`**: it comes to a sequence where none has;
  * `bpe_map` -- merging commutes with a change of the symbols that keeps the ranks;
  * `bpe_congr` -- two ranks that agree, up to a monotone renumbering, on the neighbours that the merging of a
    word comes to make the same of it;
  * **`comes_part`** -- what becomes of a part of a word, while nothing is merged across its ends, is what
    becomes of it alone.
-/
import Mathlib.Tactic

namespace Vyb.Lib.Bpe

open List Option

universe u v

/-! ## 1. The leftmost least value -/

/-- The leftmost of the positions below `n` with the least value, and that value. -/
def leastAt (f : Nat → Option Nat) : Nat → Option (Nat × Nat)
  | 0 => none
  | n + 1 =>
    match f n, leastAt f n with
    | none, best => best
    | some r, none => some (n, r)
    | some r, some (p, s) => if r < s then some (n, r) else some (p, s)

theorem leastAt_none {f : Nat → Option Nat} : ∀ {n : Nat}, leastAt f n = none ↔ ∀ q < n, f q = none
  | 0 => by simp [leastAt]
  | n + 1 => by
    have ih := leastAt_none (f := f) (n := n)
    rw [leastAt]
    constructor
    · intro h q hq
      cases hn : f n with
      | none =>
        rw [hn] at h
        rcases Nat.lt_succ_iff_lt_or_eq.mp hq with hlt | rfl
        · exact ih.mp h q hlt
        · exact hn
      | some r =>
        rw [hn] at h
        cases hbest : leastAt f n with
        | none => rw [hbest] at h; cases h
        | some b =>
          rw [hbest] at h
          dsimp only at h
          split at h <;> cases h
    · intro h
      rw [h n (Nat.lt_succ_self n), ih.mpr fun q hq => h q (Nat.lt_succ_of_lt hq)]

/-- **What the loop finds.** -/
theorem leastAt_some {f : Nat → Option Nat} : ∀ {n p r : Nat}, leastAt f n = some (p, r) →
    p < n ∧ f p = some r ∧ ∀ q < n, ∀ s, f q = some s → r < s ∨ r = s ∧ p ≤ q
  | 0, _, _, h => by cases h
  | n + 1, p, r, h => by
    rw [leastAt] at h
    cases hn : f n with
    | none =>
      rw [hn] at h
      obtain ⟨hp, hf, hleast⟩ := leastAt_some h
      refine ⟨Nat.lt_succ_of_lt hp, hf, fun q hq s hs => ?_⟩
      rcases Nat.lt_succ_iff_lt_or_eq.mp hq with hlt | rfl
      · exact hleast q hlt s hs
      · rw [hn] at hs
        cases hs
    | some r' =>
      rw [hn] at h
      cases hbest : leastAt f n with
      | none =>
        rw [hbest] at h
        cases h
        refine ⟨Nat.lt_succ_self n, hn, fun q hq s hs => ?_⟩
        rcases Nat.lt_succ_iff_lt_or_eq.mp hq with hlt | rfl
        · rw [leastAt_none.mp hbest q hlt] at hs
          cases hs
        · rw [hn] at hs
          exact .inr ⟨some.inj hs, le_refl _⟩
      | some b =>
        obtain ⟨p', s'⟩ := b
        rw [hbest] at h
        dsimp only at h
        obtain ⟨hp', hf', hleast⟩ := leastAt_some hbest
        split at h
        · rename_i hlt
          cases h
          refine ⟨Nat.lt_succ_self n, hn, fun q hq s hs => ?_⟩
          rcases Nat.lt_succ_iff_lt_or_eq.mp hq with hq | rfl
          · rcases hleast q hq s hs with h1 | h1
            · exact .inl (by omega)
            · exact .inl (by omega)
          · rw [hn] at hs
            exact .inr ⟨some.inj hs, le_refl _⟩
        · rename_i hge
          obtain ⟨rfl, rfl⟩ := Prod.mk.inj (some.inj h)
          refine ⟨Nat.lt_succ_of_lt hp', hf', fun q hq s hs => ?_⟩
          rcases Nat.lt_succ_iff_lt_or_eq.mp hq with hq | rfl
          · exact hleast q hq s hs
          · rw [hn] at hs
            cases hs
            rcases Nat.lt_or_ge s' r' with h1 | h1
            · exact .inl h1
            · exact .inr ⟨by omega, hp'.le⟩

variable {r p : Nat}

theorem leastAt_eq {f : Nat → Option Nat} {n : Nat} (hp : p < n) (hf : f p = some r)
    (hleast : ∀ q < n, ∀ s, f q = some s → r < s ∨ r = s ∧ p ≤ q) : leastAt f n = some (p, r) := by
  cases h : leastAt f n with
  | none =>
    rw [leastAt_none.mp h p hp] at hf
    cases hf
  | some b =>
    obtain ⟨p', r'⟩ := b
    obtain ⟨hp', hf', hleast'⟩ := leastAt_some h
    have h1 := hleast p' hp' r' hf'
    have h2 := hleast' p hp r hf
    congr 2
    · omega
    · omega

/-- A monotone renumbering does not change the position. -/
theorem leastAt_renumber {f g : Nat → Option Nat} {φ : Nat → Nat} {n : Nat} (hfg : ∀ q < n, g q = (f q).map φ)
    (hφ : ∀ q < n, ∀ q' < n, ∀ r s, f q = some r → f q' = some s → r < s → φ r < φ s) :
    leastAt g n = (leastAt f n).map fun b => (b.1, φ b.2) := by
  cases h : leastAt f n with
  | none =>
    rw [map_none, leastAt_none]
    intro q hq
    rw [hfg q hq, leastAt_none.mp h q hq, map_none]
  | some b =>
    obtain ⟨p, r⟩ := b
    obtain ⟨hp, hf, hleast⟩ := leastAt_some h
    refine leastAt_eq hp (by rw [hfg p hp, hf, map_some]) fun q hq s hs => ?_
    rw [hfg q hq] at hs
    obtain ⟨s', hs', rfl⟩ := map_eq_some_iff.mp hs
    rcases hleast q hq s' hs' with hlt | ⟨rfl, hle⟩
    · exact .inl (hφ p hp q hq r s' hf hs' hlt)
    · exact .inr ⟨rfl, hle⟩

/-! ## 2. Merging -/

section Merging

variable {σ : Type u} [Append σ] (rank : σ → σ → Option Nat)

/-- The rank of the neighbours at `p` and `p + 1`. -/
def pairRank (u : List σ) (p : Nat) : Option Nat :=
  u[p]?.bind fun x => u[p + 1]?.bind fun y => rank x y

/-- The leftmost pair of least rank. -/
def best (u : List σ) : Option (Nat × Nat) := leastAt (pairRank rank u) (u.length - 1)

/-- The neighbours at `p` and `p + 1` become one symbol. -/
def mergeAt : List σ → Nat → List σ
  | x :: y :: u, 0 => (x ++ y) :: u
  | x :: u, p + 1 => x :: mergeAt u p
  | u, _ => u

/-- At most `k` merges. -/
def merges : Nat → List σ → List σ
  | 0, u => u
  | k + 1, u =>
    match best rank u with
    | none => u
    | some (p, _) => merges k (mergeAt u p)

/-- **Byte pair encoding**; every merge makes the sequence shorter. -/
def bpe (u : List σ) : List σ := merges rank u.length u

/-- One merge. -/
def Step (u u' : List σ) : Prop := ∃ p r, best rank u = some (p, r) ∧ u' = mergeAt u p

/-- A number of merges. -/
abbrev Comes : List σ → List σ → Prop := Relation.ReflTransGen (Step rank)

variable {rank}

theorem mergeAt_append (A : List σ) (x y : σ) (B : List σ) :
    mergeAt (A ++ x :: y :: B) A.length = A ++ (x ++ y) :: B := by
  induction A with
  | nil => rfl
  | cons a A ih => simp only [cons_append, length_cons, mergeAt, ih]

omit [Append σ] in
theorem pairRank_append (A : List σ) (x y : σ) (B : List σ) :
    pairRank rank (A ++ x :: y :: B) A.length = rank x y := by
  simp [pairRank]

variable {u : List σ}

omit [Append σ] in
theorem pairRank_some (h : pairRank rank u p = some r) :
    ∃ A x y B, u = A ++ x :: y :: B ∧ A.length = p ∧ rank x y = some r := by
  obtain ⟨x, hx, h⟩ := bind_eq_some_iff.mp h
  obtain ⟨y, hy, h⟩ := bind_eq_some_iff.mp h
  obtain ⟨hp, rfl⟩ := List.getElem?_eq_some_iff.mp hx
  obtain ⟨hp', rfl⟩ := List.getElem?_eq_some_iff.mp hy
  refine ⟨u.take p, _, _, u.drop (p + 2), ?_, by rw [length_take]; omega, h⟩
  rw [← drop_eq_getElem_cons hp', ← drop_eq_getElem_cons hp, take_append_drop]

omit [Append σ] in
omit [Append σ] in
/-- **What one merge does.** -/
theorem best_some (h : best rank u = some (p, r)) :
    ∃ A x y B, u = A ++ x :: y :: B ∧ A.length = p ∧ rank x y = some r ∧
      ∀ A' x' y' B' s, u = A' ++ x' :: y' :: B' → rank x' y' = some s → r < s ∨ r = s ∧ p ≤ A'.length := by
  obtain ⟨hp, hr, hleast⟩ := leastAt_some h
  obtain ⟨A, x, y, B, hu, hA, hxy⟩ := pairRank_some hr
  refine ⟨A, x, y, B, hu, hA, hxy, fun A' x' y' B' s hu' hs => hleast A'.length ?_ s ?_⟩
  · rw [hu']
    simp
  · rw [hu', pairRank_append]
    exact hs

omit [Append σ] in
theorem best_eq {A B : List σ} {x y : σ} (hr : rank x y = some r)
    (hleast : ∀ A' x' y' B' s, A ++ x :: y :: B = A' ++ x' :: y' :: B' → rank x' y' = some s →
      r < s ∨ r = s ∧ A.length ≤ A'.length) : best rank (A ++ x :: y :: B) = some (A.length, r) := by
  refine leastAt_eq (by simp) (by rw [pairRank_append, hr]) fun q _ s hs => ?_
  obtain ⟨A', x', y', B', hu, rfl, hxy⟩ := pairRank_some hs
  exact hleast A' x' y' B' s hu hxy

theorem length_mergeAt (h : best rank u = some (p, r)) : (mergeAt u p).length + 1 = u.length := by
  obtain ⟨A, x, y, B, rfl, rfl, -⟩ := best_some h
  rw [mergeAt_append]
  simp
  omega

theorem merges_spec : ∀ {k : Nat} {u : List σ}, u.length ≤ k + 1 →
    Comes rank u (merges rank k u) ∧ best rank (merges rank k u) = none
  | 0, u, hk => by
    refine ⟨.refl, leastAt_none.mpr fun q hq => ?_⟩
    rw [merges] at hq
    omega
  | k + 1, u, hk => by
    rw [merges]
    cases h : best rank u with
    | none => exact ⟨.refl, h⟩
    | some b =>
      obtain ⟨p, r⟩ := b
      have hlen := length_mergeAt h
      obtain ⟨hcomes, hnone⟩ := merges_spec (k := k) (u := mergeAt u p) (by omega)
      exact ⟨.head ⟨p, r, h, rfl⟩ hcomes, hnone⟩

variable (rank) in
/-- **Merging ends where no neighbours have a rank.** -/
theorem bpe_spec (u : List σ) : Comes rank u (bpe rank u) ∧ best rank (bpe rank u) = none :=
  merges_spec (Nat.le_succ _)

variable {v : List σ}

theorem Step.unique {w : List σ} (hv : Step rank u v) (hw : Step rank u w) : v = w := by
  obtain ⟨p, r, hp, rfl⟩ := hv
  obtain ⟨q, s, hq, rfl⟩ := hw
  rw [hp] at hq
  cases hq
  rfl

/-- **Where a run ends is what `bpe` returns.** -/
theorem Comes.bpe_eq (h : Comes rank u v) (hend : best rank v = none) : bpe rank u = v := by
  have hstop : ∀ {w w' : List σ}, best rank w = none → Comes rank w w' → w' = w := by
    intro w w' hw hcomes
    rcases hcomes.cases_head with rfl | ⟨m, ⟨p, r, hp, -⟩, -⟩
    · rfl
    · rw [hw] at hp
      cases hp
  obtain ⟨hbpe, hnone⟩ := bpe_spec rank u
  rcases Relation.ReflTransGen.total_of_right_unique (fun _ _ _ h h' => h.unique h') h hbpe with h | h
  · exact hstop hend h
  · exact (hstop hnone h).symm

/-- **A symbol that a run leaves** was there, or two neighbours with a rank made it. -/
theorem Comes.mem (h : Comes rank u v) : ∀ z ∈ v, z ∈ u ∨ ∃ x y, z = x ++ y ∧ (rank x y).isSome := by
  induction h with
  | refl => exact fun z hz => .inl hz
  | tail _ hstep ih =>
    obtain ⟨p, r, hp, rfl⟩ := hstep
    obtain ⟨A, x, y, B, rfl, rfl, hxy, -⟩ := best_some hp
    rw [mergeAt_append]
    intro z hz
    rcases mem_append.mp hz with hz | hz
    · exact ih z (mem_append_left _ hz)
    · rcases mem_cons.mp hz with rfl | hz
      · exact .inr ⟨x, y, rfl, by simp [hxy]⟩
      · exact ih z (mem_append_right _ (mem_cons_of_mem x (mem_cons_of_mem y hz)))

omit [Append σ] in
variable (rank) in
theorem best_pair (x y : σ) : best rank [x, y] = (rank x y).map fun r => (0, r) := by
  have hpair : pairRank rank [x, y] 0 = rank x y := pairRank_append [] x y []
  have hleast : best rank [x, y] = leastAt (pairRank rank [x, y]) 1 := rfl
  rw [hleast, leastAt, hpair]
  cases rank x y <;> rfl

/-- Two symbols with a rank become one. -/
theorem Comes.bpe_pair {x y : σ} (h : Comes rank u [x, y]) :
    bpe rank u = if (rank x y).isSome then [x ++ y] else [x, y] := by
  have hbest := best_pair rank x y
  cases hr : rank x y with
  | none =>
    rw [hr] at hbest
    exact h.bpe_eq hbest
  | some r =>
    rw [hr] at hbest
    exact Comes.bpe_eq (h.tail ⟨0, r, hbest, rfl⟩) rfl

/-! ## 3. Two ranks -/

/-- **Ranks that agree on the neighbours a run comes to**, up to a monotone renumbering. -/
theorem bpe_congr {rank' : σ → σ → Option Nat} {φ : Nat → Nat}
    (hrank : ∀ A x y B, Comes rank u (A ++ x :: y :: B) → rank' x y = (rank x y).map φ)
    (hφ : ∀ x y x' y' r s, rank x y = some r → rank' x y = some (φ r) → rank x' y' = some s →
      rank' x' y' = some (φ s) → r < s → φ r < φ s) : bpe rank' u = bpe rank u := by
  have hbest : ∀ v, Comes rank u v → best rank' v = (best rank v).map fun b => (b.1, φ b.2) := by
    intro v hv
    refine leastAt_renumber (fun q hq => ?_) fun q _ q' _ r s hr hs hlt => ?_
    · have hq1 : q < v.length := by omega
      have hq2 : q + 1 < v.length := by omega
      have hsplit : v = v.take q ++ v[q] :: v[q + 1] :: v.drop (q + 2) := by
        rw [← drop_eq_getElem_cons hq2, ← drop_eq_getElem_cons hq1, take_append_drop]
      have hagree := hrank (v.take q) v[q] v[q + 1] (v.drop (q + 2)) (hsplit ▸ hv)
      simp only [pairRank, getElem?_eq_getElem hq1, getElem?_eq_getElem hq2, bind_some]
      exact hagree
    · obtain ⟨A, x, y, B, hv₁, -, hxy⟩ := pairRank_some hr
      obtain ⟨A', x', y', B', hv₂, -, hxy'⟩ := pairRank_some hs
      have hr' := hrank A x y B (hv₁ ▸ hv)
      have hs' := hrank A' x' y' B' (hv₂ ▸ hv)
      rw [hxy] at hr'
      rw [hxy'] at hs'
      exact hφ x y x' y' r s hxy hr' hxy' hs' hlt
  have hsame : ∀ v, Comes rank u v → Comes rank' u v := by
    intro v hv
    induction hv with
    | refl => exact .refl
    | @tail v w hv hstep ih =>
      obtain ⟨p, r, hp, rfl⟩ := hstep
      exact ih.tail ⟨p, φ r, by rw [hbest v hv, hp]; rfl, rfl⟩
  obtain ⟨hcomes, hnone⟩ := bpe_spec rank u
  exact Comes.bpe_eq (hsame _ hcomes) (by rw [hbest _ hcomes, hnone]; rfl)

variable {τ : Type v} [Append τ]

/-- **Merging commutes with a change of the symbols.** -/
theorem bpe_map {rank' : τ → τ → Option Nat} {f : σ → τ} (hf : ∀ x y, f (x ++ y) = f x ++ f y)
    (hrank : ∀ x y, rank' (f x) (f y) = rank x y) (u : List σ) :
    bpe rank' (u.map f) = (bpe rank u).map f := by
  have hbest : ∀ v : List σ, best rank' (v.map f) = best rank v := by
    intro v
    have hpair : pairRank rank' (v.map f) = pairRank rank v := by
      funext p
      simp only [pairRank, getElem?_map]
      cases v[p]? with
      | none => rfl
      | some x =>
        cases v[p + 1]? with
        | none => rfl
        | some y => exact hrank x y
    rw [best, best, hpair, length_map]
  have hstep : ∀ v w, Step rank v w → Step rank' (v.map f) (w.map f) := by
    rintro v w ⟨p, r, hp, rfl⟩
    refine ⟨p, r, by rw [hbest, hp], ?_⟩
    obtain ⟨A, x, y, B, rfl, rfl, -⟩ := best_some hp
    have h := mergeAt_append (A.map f) (f x) (f y) (B.map f)
    rw [length_map] at h
    simp only [mergeAt_append, map_append, map_cons, h, hf]
  obtain ⟨hcomes, hnone⟩ := bpe_spec rank u
  exact Comes.bpe_eq (hcomes.lift _ hstep) (by rw [hbest, hnone])

end Merging

/-! ## 4. A part of a word -/

section Part

variable {γ : Type u} {rank : List γ → List γ → Option Nat}

/-- Every letter is a symbol of its own. -/
def letters (w : List γ) : List (List γ) := w.map fun c => [c]

theorem flatten_letters (w : List γ) : (letters w).flatten = w := by
  induction w with
  | nil => rfl
  | cons c w ih =>
    exact congrArg (c :: ·) ih

/-- Where an element stands in two lists, one behind the other. -/
theorem append_eq_mid {α : Type u} {l r A B : List α} {z : α} (h : l ++ r = A ++ z :: B) :
    (∃ C, l = A ++ z :: C ∧ B = C ++ r) ∨ ∃ C, r = C ++ z :: B ∧ A = l ++ C := by
  rcases append_eq_append_iff.mp h with ⟨C, hA, hr⟩ | ⟨C, hl, hB⟩
  · exact .inr ⟨C, hr, hA⟩
  · cases C with
    | nil => exact .inr ⟨[], by simpa using hB.symm, by simpa using hl.symm⟩
    | cons c C =>
      obtain ⟨rfl, hBC⟩ := cons.inj hB
      exact .inl ⟨C, hl, hBC⟩

theorem flatten_merged (A : List (List γ)) (x y : List γ) (B : List (List γ)) :
    (A ++ x :: y :: B).flatten = (A ++ (x ++ y) :: B).flatten := by simp

variable {u : List (List γ)}

/-- A merge happens in one of the parts, and it is the merge that would happen there. -/
theorem step_part {l m r : List (List γ)} (h : Step rank u (l ++ (m ++ r))) :
    ∃ l' m' r', u = l' ++ (m' ++ r') ∧ m'.flatten = m.flatten ∧ (m' = m ∨ Step rank m' m) := by
  obtain ⟨p, s, hp, hmerged⟩ := h
  obtain ⟨A, x, y, B, rfl, rfl, hxy, hleast⟩ := best_some hp
  rw [mergeAt_append] at hmerged
  rcases append_eq_mid hmerged with ⟨C, rfl, rfl⟩ | ⟨D, hD, rfl⟩
  · exact ⟨A ++ x :: y :: C, m, r, by simp, rfl, .inl rfl⟩
  · rcases append_eq_mid hD with ⟨C, rfl, rfl⟩ | ⟨C, rfl, rfl⟩
    · refine ⟨l, D ++ x :: y :: C, r, by simp, flatten_merged D x y C, .inr ⟨D.length, s, ?_, ?_⟩⟩
      · refine best_eq hxy fun A' x' y' B' s' hu hs' => ?_
        have h := hleast (l ++ A') x' y' (B' ++ r) s' (by
          rw [append_assoc, append_assoc, show x :: y :: (C ++ r) = x :: y :: C ++ r from rfl,
            ← append_assoc D, hu]
          simp) hs'
        simpa using h
      · rw [mergeAt_append]
    · exact ⟨l, m, C ++ x :: y :: B, by simp, rfl, .inl rfl⟩

theorem comes_part_of {w : List (List γ)} (h : Comes rank w u) : ∀ {l m r : List (List γ)},
    u = l ++ (m ++ r) → ∃ l' m' r', w = l' ++ (m' ++ r') ∧ m'.flatten = m.flatten ∧ Comes rank m' m := by
  induction h with
  | refl =>
    intro l m r hu
    exact ⟨l, m, r, hu, rfl, .refl⟩
  | tail _ hstep ih =>
    rintro l m r rfl
    obtain ⟨l₁, m₁, r₁, hu, hflat, hm⟩ := step_part hstep
    obtain ⟨l', m', r', hw, hflat', hcomes⟩ := ih hu
    refine ⟨l', m', r', hw, hflat'.trans hflat, ?_⟩
    rcases hm with rfl | hm
    · exact hcomes
    · exact hcomes.tail hm

/-- **What becomes of a part** is what becomes of it alone. -/
theorem comes_part {w : List γ} {l m r : List (List γ)} (h : Comes rank (letters w) (l ++ (m ++ r))) :
    Comes rank (letters m.flatten) m := by
  obtain ⟨l', m', r', hw, hflat, hcomes⟩ := comes_part_of h rfl
  obtain ⟨w₁, w₂, -, -, hmr⟩ := map_eq_append_iff.mp hw
  obtain ⟨w₃, w₄, -, hm', -⟩ := map_eq_append_iff.mp hmr
  have hletters : letters m'.flatten = m' := by
    rw [← hm']
    exact congrArg letters (flatten_letters w₃)
  rw [← hflat, hletters]
  exact hcomes

theorem comes_flatten {v : List (List γ)} (h : Comes rank u v) : v.flatten = u.flatten := by
  induction h with
  | refl => rfl
  | tail _ hstep ih =>
    obtain ⟨p, s, hp, rfl⟩ := hstep
    obtain ⟨A, x, y, B, rfl, rfl, -⟩ := best_some hp
    rw [mergeAt_append, ← flatten_merged, ih]

/-- Neighbours that a word comes to are what their own text comes to. -/
theorem comes_pair {w : List γ} {A B : List (List γ)} {x y : List γ}
    (h : Comes rank (letters w) (A ++ x :: y :: B)) : Comes rank (letters (x ++ y)) [x, y] := by
  have h := comes_part (l := A) (m := [x, y]) (r := B) h
  simpa using h

end Part

end Vyb.Lib.Bpe
