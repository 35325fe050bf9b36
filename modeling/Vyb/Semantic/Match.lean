/-
  Subject:   `match` on a tagged enum: the two exhaustiveness computations and the dispatch.

  The analyzer (`SemanticAnalyzer::visit(MatchStatement*)`) decides whether a match is exhaustive
  and reports an error if not; the code generator (`codegenMatch`) decides on its own whether the
  no-match block may be marked `unreachable`, and lowers the arms to a chain of tag compares in
  which a false guard falls through to the next arm.

  * `dispatch_arm_iff` -- a value finds an arm whatever the guards say iff an UNGUARDED arm
    matches it;
  * `exhaustivenessError_names` -- a reported error names exactly the variants without an
    unguarded arm, and there is one;
  * **`match_sound_iff`** -- for which arm lists acceptance by the analyzer really means that some
    arm is selected. Both computations take ANY wildcard arm for a catch-all, a guarded one
    included (the test for the guard comes after the test for the wildcard), and the analyzer
    marks a wildcard by putting the name `__wildcard__` into the set of covered variants.
-/
import Mathlib.Tactic

namespace Vyb.Semantic.Match

open List Finset

/-! ## 1. Enums, arms and dispatch -/

/-- A tagged enum. The tag of a variant is its position. -/
structure TaggedEnum where
  name : String
  variants : List String
  nodup : variants.Nodup

/-- The patterns of a match on a tagged enum: `?`, `Circle(r)`, `Unit`. -/
inductive Pattern where
  | wildcard
  | variant (name : String)
  | unit (name : String)
  deriving DecidableEq, Repr

/-- An arm: its pattern and whether it carries an `if` guard. -/
structure Arm where
  pattern : Pattern
  guarded : Bool
  deriving DecidableEq, Repr

/-- The variant name a pattern mentions, empty for `?`. -/
def Pattern.vname : Pattern → String
  | .wildcard => ""
  | .variant n => n
  | .unit n => n

/-- `matchedEnum->variantTags.find(name)`. -/
def TaggedEnum.tag (E : TaggedEnum) (name : String) : Option Nat := E.variants.idxOf? name

/-- The test a case block makes on the runtime tag. A name that is no variant never matches. -/
def tagTest (E : TaggedEnum) (value : Nat) : Pattern → Bool
  | .wildcard => true
  | p => E.tag p.vname == some value

inductive Outcome where
  | arm (i : Nat)
  | noMatch
  deriving DecidableEq, Repr

/-- The chain of case blocks from case `i` on: a pattern that does not match, or a guard that is
    false, branches to the next case, and from the last one to the default block. `guard i` is the
    value of the guard of case `i`. -/
def dispatchFrom (E : TaggedEnum) (guard : Nat → Bool) (value : Nat) : Nat → List Arm → Outcome
  | _, [] => .noMatch
  | i, a :: arms =>
    if tagTest E value a.pattern && (!a.guarded || guard i) then .arm i
    else dispatchFrom E guard value (i + 1) arms

def dispatch (E : TaggedEnum) (arms : List Arm) (guard : Nat → Bool) (value : Nat) : Outcome :=
  dispatchFrom E guard value 0 arms

/-! ## 2. The analyzer -/

/-- The walk over the arms, as far as wildcards go: the first unguarded wildcard and the errors
    reported for later ones. -/
def visitArms : Nat → Option Nat → List Arm → Option Nat × List String
  | _, wildcardIndex, [] => (wildcardIndex, [])
  | i, wildcardIndex, a :: arms =>
    match a.pattern, a.guarded, wildcardIndex with
    | .wildcard, false, none => visitArms (i + 1) (some i) arms
    | .wildcard, false, some w =>
      let r := visitArms (i + 1) (some w) arms
      (r.1, ("Wildcard pattern already used in case " ++ toString (w + 1) ++
        ", this pattern is unreachable") :: r.2)
    | _, _, _ => visitArms (i + 1) wildcardIndex arms

/-- The set `covered` of the exhaustiveness check; the loop stops at the first wildcard. -/
def coveredNames (E : TaggedEnum) : Finset String → List Arm → Finset String
  | covered, [] => covered
  | covered, a :: arms =>
    if a.pattern = .wildcard then insert "__wildcard__" covered
    else if a.guarded then coveredNames E covered arms
    else if a.pattern.vname ∈ E.variants then coveredNames E (insert a.pattern.vname covered) arms
    else coveredNames E covered arms

/-- The variants the error lists. -/
def uncovered (E : TaggedEnum) (covered : Finset String) : List String :=
  E.variants.filter fun v => decide (v ∉ covered)

def notExhaustive (E : TaggedEnum) (names : List String) : String :=
  "Match on " ++ E.name ++ " is not exhaustive: variant(s) " ++ String.intercalate ", " names ++
    " are not covered by an unguarded arm (add an unguarded arm or a wildcard '?')"

/-- The variants for which the analyzer reports a match as not exhaustive, if it does. -/
def exhaustivenessError (E : TaggedEnum) (arms : List Arm) : Option (List String) :=
  let covered := coveredNames E ∅ arms
  if (visitArms 0 none arms).1 = none ∧ E.variants ≠ [] ∧ "__wildcard__" ∉ covered ∧
      covered.card < E.variants.length then
    some (uncovered E covered)
  else none

/-- The diagnostics of a match, in the order they are added. -/
def matchErrors (E : TaggedEnum) (arms : List Arm) : List String :=
  (visitArms 0 none arms).2 ++ ((exhaustivenessError E arms).map (notExhaustive E)).toList

/-! ## 3. The code generator's own computation -/

/-- Its loop over the arms: `none` once a wildcard is met, else the names of unguarded arms. -/
def coveredByCodegen : Finset String → List Arm → Option (Finset String)
  | covered, [] => some covered
  | covered, a :: arms =>
    if a.pattern = .wildcard then none
    else if a.guarded then coveredByCodegen covered arms
    else if a.pattern.vname ≠ "" then coveredByCodegen (insert a.pattern.vname covered) arms
    else coveredByCodegen covered arms

/-- `hasWildcard`: the default block ends in `unreachable`. -/
def defaultUnreachable (E : TaggedEnum) (arms : List Arm) : Bool :=
  if arms.any fun a => decide (a.pattern = .wildcard) && !a.guarded then true
  else
    match coveredByCodegen ∅ arms with
    | none => true
    | some covered => covered.card == E.variants.length

/-- The block marked `unreachable` is entered. -/
def EntersUnreachable (E : TaggedEnum) (arms : List Arm) (guard : Nat → Bool) (value : Nat) : Prop :=
  dispatch E arms guard value = .noMatch ∧ defaultUnreachable E arms = true

/-! ## 4. When every value finds an arm -/

section Dispatch

variable (E : TaggedEnum)

/-- A variant with an unguarded arm of its own. -/
def Named (arms : List Arm) (v : String) : Prop :=
  ∃ a ∈ arms, a.guarded = false ∧ a.pattern ≠ .wildcard ∧ a.pattern.vname = v

/-- An unguarded wildcard arm, or an unguarded arm for every variant. -/
def CoversAll (arms : List Arm) : Prop :=
  (⟨.wildcard, false⟩ : Arm) ∈ arms ∨ ∀ v ∈ E.variants, Named arms v

theorem tag_eq_some {E : TaggedEnum} {n : String} {i : Nat} :
    E.tag n = some i ↔ ∃ h : i < E.variants.length, E.variants[i] = n := by
  rw [TaggedEnum.tag, idxOf?_eq_some_iff]
  constructor
  · rintro ⟨h, he, -⟩
    exact ⟨h, by simpa using he⟩
  · rintro ⟨h, rfl⟩
    refine ⟨h, by simp, fun j hj => ?_⟩
    have hne := (pairwise_iff_getElem.mp E.nodup) j i (by omega) h hj
    simpa using hne

/-- An unguarded arm that matches is always taken, if no earlier one is. -/
theorem dispatchFrom_of_unguarded {value : Nat} {guard : Nat → Bool} :
    ∀ {arms : List Arm} (i : Nat),
      (∃ a ∈ arms, a.guarded = false ∧ tagTest E value a.pattern = true) →
      ∃ j, dispatchFrom E guard value i arms = .arm j
  | [], _, ⟨_, ha, _⟩ => by cases ha
  | b :: arms, i, ⟨a, ha, hg, ht⟩ => by
    unfold dispatchFrom
    by_cases hb : (tagTest E value b.pattern && (!b.guarded || guard i)) = true
    · exact ⟨i, by rw [if_pos hb]⟩
    · rw [if_neg hb]
      rcases mem_cons.mp ha with rfl | ha
      · exact absurd (by simp [hg, ht]) hb
      · exact dispatchFrom_of_unguarded (i + 1) ⟨a, ha, hg, ht⟩

/-- With every guard false only an unguarded arm is taken. -/
theorem dispatchFrom_all_false {value : Nat} :
    ∀ {arms : List Arm} {i j : Nat}, dispatchFrom E (fun _ => false) value i arms = .arm j →
      ∃ a ∈ arms, a.guarded = false ∧ tagTest E value a.pattern = true
  | [], _, _, h => by simp [dispatchFrom] at h
  | b :: arms, i, j, h => by
    unfold dispatchFrom at h
    by_cases hb : (tagTest E value b.pattern && (!b.guarded || false)) = true
    · simp only [Bool.or_false, Bool.and_eq_true, Bool.not_eq_true'] at hb
      exact ⟨b, mem_cons_self, hb.2, hb.1⟩
    · rw [if_neg hb] at h
      obtain ⟨a, ha, hg, ht⟩ := dispatchFrom_all_false h
      exact ⟨a, mem_cons_of_mem _ ha, hg, ht⟩

/-- **A value finds an arm under all guard outcomes iff an unguarded arm matches it.** -/
theorem dispatch_arm_iff (arms : List Arm) (value : Nat) :
    (∀ guard, ∃ i, dispatch E arms guard value = .arm i) ↔
      ∃ a ∈ arms, a.guarded = false ∧ tagTest E value a.pattern = true := by
  constructor
  · intro h
    obtain ⟨i, hi⟩ := h fun _ => false
    exact dispatchFrom_all_false E hi
  · intro h guard
    exact dispatchFrom_of_unguarded E 0 h

/-- **All values find an arm iff the arms cover all.** -/
theorem dispatch_all_iff (arms : List Arm) :
    (∀ value, value < E.variants.length → ∀ guard, ∃ i, dispatch E arms guard value = .arm i) ↔
      CoversAll E arms := by
  constructor
  · intro h
    by_cases hw : (⟨.wildcard, false⟩ : Arm) ∈ arms
    · exact .inl hw
    · refine .inr fun v hv => ?_
      obtain ⟨i, hi, rfl⟩ := getElem_of_mem hv
      obtain ⟨a, ha, hg, ht⟩ := (dispatch_arm_iff E arms i).mp (h i hi)
      have hne : a.pattern ≠ .wildcard := fun hp => hw (by
        obtain ⟨p, g⟩ := a
        subst hp hg
        exact ha)
      refine ⟨a, ha, hg, hne, ?_⟩
      have ht' : E.tag a.pattern.vname = some i := by
        cases hp : a.pattern with
        | wildcard => exact absurd hp hne
        | variant n | unit n => simpa [tagTest, hp] using ht
      obtain ⟨_, he⟩ := tag_eq_some.mp ht'
      exact he.symm
  · intro h value hv
    rw [dispatch_arm_iff]
    rcases h with h | h
    · exact ⟨_, h, rfl, rfl⟩
    · obtain ⟨a, ha, hg, hne, hn⟩ := h _ (getElem_mem hv)
      refine ⟨a, ha, hg, ?_⟩
      have ht : E.tag a.pattern.vname = some value := tag_eq_some.mpr ⟨hv, hn.symm⟩
      cases hp : a.pattern with
      | wildcard => rfl
      | variant n | unit n => simpa [tagTest, hp] using ht

end Dispatch

/-! ## 5. What the analyzer computes -/

section Analyzer

variable (E : TaggedEnum)

theorem visitArms_isSome : ∀ (arms : List Arm) (i : Nat) (w : Option Nat),
    (visitArms i w arms).1 = none ↔ w = none ∧ (⟨.wildcard, false⟩ : Arm) ∉ arms
  | [], _, w => by simp [visitArms]
  | ⟨p, g⟩ :: arms, i, w => by
    cases p <;> cases g <;> cases w <;> simp [visitArms, visitArms_isSome arms]

/-- Without a wildcard arm, `covered` is the set of variants with an unguarded arm. -/
theorem mem_coveredNames {s : String} : ∀ {arms : List Arm} {covered : Finset String},
    (∀ a ∈ arms, a.pattern ≠ .wildcard) →
    (s ∈ coveredNames E covered arms ↔ s ∈ covered ∨ (s ∈ E.variants ∧ Named arms s))
  | [], covered, _ => by simp [coveredNames, Named]
  | a :: arms, covered, h => by
    have ha := h a mem_cons_self
    have ih := fun c => @mem_coveredNames s arms c
      fun b hb => h b (mem_cons_of_mem a hb)
    have hN : Named (a :: arms) s ↔ (a.guarded = false ∧ a.pattern.vname = s) ∨ Named arms s := by
      simp [Named, ha]
    unfold coveredNames
    rw [if_neg ha, hN]
    by_cases hg : a.guarded = true
    · rw [if_pos hg, ih]
      simp [hg]
    · rw [if_neg hg]
      have hg' : a.guarded = false := by simpa using hg
      by_cases hv : a.pattern.vname ∈ E.variants
      · rw [if_pos hv, ih, mem_insert, hg']
        constructor
        · rintro ((rfl | hc) | hr)
          · exact .inr ⟨hv, .inl ⟨rfl, rfl⟩⟩
          · exact .inl hc
          · exact .inr ⟨hr.1, Or.inr hr.2⟩
        · rintro (hc | ⟨hs, ⟨-, rfl⟩ | hr⟩)
          · exact .inl (.inr hc)
          · exact .inl (Or.inl rfl)
          · exact .inr ⟨hs, hr⟩
      · rw [if_neg hv, ih]
        constructor
        · rintro (hc | hr)
          · exact .inl hc
          · exact .inr ⟨hr.1, Or.inr hr.2⟩
        · rintro (hc | ⟨hs, ⟨-, rfl⟩ | hr⟩)
          · exact .inl hc
          · exact absurd hs hv
          · exact .inr ⟨hs, hr⟩

/-- A wildcard arm, guarded or not, puts `__wildcard__` into `covered`. -/
theorem wildcard_mem_coveredNames : ∀ {arms : List Arm} {covered : Finset String},
    (∃ a ∈ arms, a.pattern = .wildcard) → "__wildcard__" ∈ coveredNames E covered arms
  | [], _, ⟨_, ha, _⟩ => by cases ha
  | b :: arms, covered, ⟨a, ha, hp⟩ => by
    unfold coveredNames
    by_cases hb : b.pattern = .wildcard
    · rw [if_pos hb]
      exact mem_insert_self _ _
    · have hrest : ∃ a ∈ arms, a.pattern = .wildcard := by
        rcases mem_cons.mp ha with rfl | ha
        · exact absurd hp hb
        · exact ⟨a, ha, hp⟩
      rw [if_neg hb]
      split
      · exact wildcard_mem_coveredNames hrest
      · split <;> exact wildcard_mem_coveredNames hrest

/-- What puts `__wildcard__` into `covered`. -/
def TakenForWildcard (arms : List Arm) : Prop :=
  (∃ a ∈ arms, a.pattern = .wildcard) ∨ ("__wildcard__" ∈ E.variants ∧ Named arms "__wildcard__")

theorem wildcard_covered_iff (arms : List Arm) :
    "__wildcard__" ∈ coveredNames E ∅ arms ↔ TakenForWildcard E arms := by
  by_cases hw : ∃ a ∈ arms, a.pattern = .wildcard
  · exact iff_of_true (wildcard_mem_coveredNames E hw) (.inl hw)
  · have hw' : ∀ a ∈ arms, a.pattern ≠ .wildcard := fun a ha hp => hw ⟨a, ha, hp⟩
    rw [mem_coveredNames E hw', TakenForWildcard]
    simp [hw]

/-- The count of covered variants decides, where no name was taken for a wildcard. -/
theorem covered_card_iff {arms : List Arm} (hw : ∀ a ∈ arms, a.pattern ≠ .wildcard) :
    (coveredNames E ∅ arms).card < E.variants.length ↔ ∃ v ∈ E.variants, ¬ Named arms v := by
  have hmem : ∀ s, s ∈ coveredNames E ∅ arms ↔ s ∈ E.variants ∧ Named arms s := fun s => by
    rw [mem_coveredNames E hw]
    simp
  have hsub : coveredNames E ∅ arms ⊆ E.variants.toFinset := fun s hs =>
    mem_toFinset.mpr ((hmem s).mp hs).1
  have hcard : E.variants.toFinset.card = E.variants.length := toFinset_card_of_nodup E.nodup
  constructor
  · intro hlt
    by_contra hall
    push Not at hall
    have heq : E.variants.toFinset ⊆ coveredNames E ∅ arms := fun s hs =>
      (hmem s).mpr ⟨mem_toFinset.mp hs, hall s (mem_toFinset.mp hs)⟩
    have := card_le_card heq
    omega
  · rintro ⟨v, hv, hn⟩
    rw [← hcard]
    refine Finset.card_lt_card (Finset.ssubset_iff_subset_ne.mpr ⟨hsub, fun he => ?_⟩)
    have : v ∈ coveredNames E ∅ arms := he ▸ mem_toFinset.mpr hv
    exact hn ((hmem v).mp this).2

/-- **When the analyzer reports no exhaustiveness error.** -/
theorem accepted_iff (arms : List Arm) :
    exhaustivenessError E arms = none ↔ TakenForWildcard E arms ∨ CoversAll E arms := by
  unfold exhaustivenessError
  simp only [ite_eq_right_iff, reduceCtorEq, imp_false, visitArms_isSome, true_and,
    wildcard_covered_iff]
  by_cases hT : TakenForWildcard E arms
  · simp [hT]
  · have hw : ∀ a ∈ arms, a.pattern ≠ .wildcard := fun a ha hp => hT (.inl ⟨a, ha, hp⟩)
    have hun : (⟨.wildcard, false⟩ : Arm) ∉ arms := fun h => hw _ h rfl
    rw [covered_card_iff E hw]
    simp only [hT, hun, CoversAll, not_false_eq_true, true_and, false_or]
    constructor
    · intro h v hv
      by_contra hn
      exact h ⟨ne_nil_of_mem hv, v, hv, hn⟩
    · rintro h ⟨-, v, hv, hn⟩
      exact hn (h v hv)

/-- **The error names the variants that lack an unguarded arm**, and there is one. -/
theorem exhaustivenessError_names {arms : List Arm} {names : List String}
    (h : exhaustivenessError E arms = some names) :
    names ≠ [] ∧ ∀ v, v ∈ names ↔ v ∈ E.variants ∧ ¬ Named arms v := by
  unfold exhaustivenessError at h
  simp only [Option.ite_none_right_eq_some, Option.some.injEq, wildcard_covered_iff] at h
  obtain ⟨⟨-, -, hT, hlt⟩, rfl⟩ := h
  have hw : ∀ a ∈ arms, a.pattern ≠ .wildcard := fun a ha hp => hT (.inl ⟨a, ha, hp⟩)
  have hmem : ∀ v, v ∈ uncovered E (coveredNames E ∅ arms) ↔ v ∈ E.variants ∧ ¬ Named arms v := by
    intro v
    rw [uncovered, mem_filter, decide_eq_true_eq, mem_coveredNames E hw]
    constructor
    · rintro ⟨hv, hn⟩
      exact ⟨hv, fun hN => hn (.inr ⟨hv, hN⟩)⟩
    · rintro ⟨hv, hn⟩
      exact ⟨hv, fun hc => by simp [hn] at hc⟩
  refine ⟨?_, hmem⟩
  obtain ⟨v, hv, hn⟩ := (covered_card_iff E hw).mp hlt
  exact ne_nil_of_mem ((hmem v).mpr ⟨hv, hn⟩)

end Analyzer

theorem exhaustivenessError_names_guarded : ["Square"] ≠ [] ∧
    ∀ v, v ∈ ["Square"] ↔ v ∈ ["Circle", "Square"] ∧ ¬ Named [⟨.unit "Circle", false⟩, ⟨.unit "Square", true⟩] v :=
  exhaustivenessError_names ⟨"Shape", ["Circle", "Square"], by decide⟩ (by decide)

/-! ## 6. Soundness of acceptance -/

/-- A match the analyzer accepts selects an arm for every value and every outcome of the guards,
    and never enters a default block marked `unreachable`. -/
def Sound (E : TaggedEnum) (arms : List Arm) : Prop :=
  exhaustivenessError E arms = none → ∀ value, value < E.variants.length → ∀ guard,
    (∃ i, dispatch E arms guard value = .arm i) ∧ ¬ EntersUnreachable E arms guard value

/-- **Where acceptance is sound**: an arm list with a wildcard arm, or with an unguarded arm for a
    variant spelled `__wildcard__`, must have an unguarded wildcard or an unguarded arm for every
    variant. Every other arm list is judged rightly. -/
theorem match_sound_iff (E : TaggedEnum) (arms : List Arm) :
    Sound E arms ↔ (TakenForWildcard E arms → CoversAll E arms) := by
  rw [← dispatch_all_iff]
  constructor
  · intro h hT value hv guard
    exact (h ((accepted_iff E arms).mpr (.inl hT)) value hv guard).1
  · intro h hacc value hv guard
    have hall : ∃ i, dispatch E arms guard value = .arm i := by
      rcases (accepted_iff E arms).mp hacc with hT | hC
      · exact h hT value hv guard
      · exact (dispatch_all_iff E arms).mpr hC value hv guard
    refine ⟨hall, fun hu => ?_⟩
    obtain ⟨i, hi⟩ := hall
    rw [hu.1] at hi
    cases hi

/-- `enum Shape { Circle(Float), Unit }`. -/
def shape : TaggedEnum := ⟨"Shape", ["Circle", "Unit"], by decide⟩

/-- `match (s) { Circle(r) -> …, ? if c -> … }` passes the analyzer, yet at `Unit` with `c` false no
    arm is selected and the default block, marked `unreachable`, is entered. -/
theorem guarded_wildcard_accepted : let arms : List Arm := [⟨.variant "Circle", false⟩, ⟨.wildcard, true⟩]
    matchErrors shape arms = [] ∧ EntersUnreachable shape arms (fun _ => false) 1 ∧
      ¬ Sound shape arms := by
  have hacc : exhaustivenessError shape [⟨.variant "Circle", false⟩, ⟨.wildcard, true⟩] = none := by
    decide
  have hun : EntersUnreachable shape [⟨.variant "Circle", false⟩, ⟨.wildcard, true⟩]
      (fun _ => false) 1 := by
    unfold EntersUnreachable
    decide
  refine ⟨by simp only [matchErrors, hacc]; rfl, hun, fun hs => ?_⟩
  exact (hs hacc 1 (by decide) fun _ => false).2 hun

end Vyb.Semantic.Match
