/-
  Subject:   `match` on an integer: the arms that the analyzer reports as unreachable.

  The analyzer (`SemanticAnalyzer::visit(MatchStatement*)`) compares each comparison arm whose operand is
  an integer literal with all such arms before it, and remembers the first wildcard without a guard. The
  code generator tries the arms in order, and a false guard falls through to the next arm.

  * `dispatch_ne_iff` -- an arm is never selected iff the unguarded arms before it match all it matches;
  * `reason_sound` -- every rule of the analyzer is right for the two comparisons alone;
  * **`unreachable_sound_iff`** -- the reports are right iff every arm that is reported for the sake of
    guarded arms only is covered by unguarded arms: the list of comparisons holds guarded arms too.

  An operand or a pattern that is no literal has its value at run time; comparisons are signed.
-/
import Mathlib.Tactic

namespace Vyb.Semantic.MatchCompare

open List

/-! ## 1. Arms and dispatch -/

inductive CompareOp where
  | lt | lteq | gt | gteq | eqeq | noteq
  deriving DecidableEq, Repr

/-- The comparison of the scrutinee `x` with the operand. -/
def CompareOp.test (x v : Int) : CompareOp → Bool
  | .lt => x < v
  | .lteq => x ≤ v
  | .gt => x > v
  | .gteq => x ≥ v
  | .eqeq => x = v
  | .noteq => x ≠ v

def CompareOp.text : CompareOp → String
  | .lt => "<"
  | .lteq => "<="
  | .gt => ">"
  | .gteq => ">="
  | .eqeq => "=="
  | .noteq => "!="

/-- `?`, a comparison with a literal or with another operand, or any other pattern. -/
inductive Pattern where
  | wildcard
  | comparison (op : CompareOp) (literal : Bool) (value : Int)
  | other (test : Int → Bool)

def Pattern.test (x : Int) : Pattern → Bool
  | .wildcard => true
  | .comparison op _ v => op.test x v
  | .other f => f x

structure Arm where
  pattern : Pattern
  guarded : Bool

/-- The pattern of case `i` matches, and its guard, if it has one, is true. -/
def Arm.taken (guard : Nat → Bool) (x : Int) (i : Nat) (a : Arm) : Bool :=
  a.pattern.test x && (!a.guarded || guard i)

/-- The chain of case blocks: the first case that is taken. -/
def dispatch (arms : List Arm) (guard : Nat → Bool) (x : Int) : Option Nat :=
  arms.zipIdx.findIdx? fun p => p.1.taken guard x p.2

/-! ## 2. The analyzer -/

/-- Why a comparison is unreachable behind an earlier one. -/
def reason (op' : CompareOp) (v' : Int) (op : CompareOp) (v : Int) : Option String :=
  let earlier (what : String) : String := what ++ " by earlier '" ++ op'.text ++ " " ++ toString v' ++ "'"
  if op' = op ∧ v' = v then some "duplicate pattern"
  else match op', op with
    | .gteq, .gteq => if v' ≤ v then some (earlier "subsumed") else none
    | .lteq, .lteq => if v' ≥ v then some (earlier "subsumed") else none
    | .gteq, .gt => if v' ≤ v then some (earlier "subsumed") else none
    | .lteq, .lt => if v' ≥ v then some (earlier "subsumed") else none
    | .gteq, .eqeq => if v ≥ v' then some (earlier "covered") else none
    | .lteq, .eqeq => if v ≤ v' then some (earlier "covered") else none
    | .gt, .eqeq => if v > v' then some (earlier "covered") else none
    | .lt, .eqeq => if v < v' then some (earlier "covered") else none
    | _, _ => none

structure ComparisonInfo where
  op : CompareOp
  value : Int
  caseIndex : Nat

/-- What the loop over the arms remembers. -/
structure Seen where
  wildcardIndex : Option Nat
  comparisons : List ComparisonInfo

def Seen.note (s : Seen) (i : Nat) (a : Arm) : Seen :=
  match a.pattern with
  | .wildcard => if a.guarded then s else { s with wildcardIndex := s.wildcardIndex.or (some i) }
  | .comparison op true v => { s with comparisons := s.comparisons ++ [⟨op, v, i⟩] }
  | _ => s

/-- The errors for case `i`. -/
def Seen.errors (s : Seen) (i : Nat) (a : Arm) : List String :=
  match a.pattern with
  | .wildcard => if a.guarded then [] else (s.wildcardIndex.map fun w =>
      "Wildcard pattern already used in case " ++ toString (w + 1) ++ ", this pattern is unreachable").toList
  | .comparison op literal v =>
    (s.wildcardIndex.map fun w =>
      "Pattern after wildcard in case " ++ toString (w + 1) ++ " is unreachable").toList ++
    if literal then (s.comparisons.findSome? fun prev => (reason prev.op prev.value op v).map fun r =>
      "Pattern '" ++ op.text ++ " " ++ toString v ++ "' in case " ++ toString (i + 1) ++ " is " ++ r ++
        " (case " ++ toString (prev.caseIndex + 1) ++ ")").toList
    else []
  | .other _ => []

def visitFrom : Nat → Seen → List Arm → List (List String)
  | _, _, [] => []
  | i, s, a :: arms => s.errors i a :: visitFrom (i + 1) (s.note i a) arms

/-- The errors, case by case. -/
def visit (arms : List Arm) : List (List String) := visitFrom 0 ⟨none, []⟩ arms

/-! ## 3. Which arms are selected -/

variable {arms : List Arm} {a : Arm} {i : Nat} {x : Int}

/-- The unguarded ones of some arms match all that the pattern matches. -/
def Covered (pre : List Arm) (p : Pattern) : Prop :=
  ∀ x, p.test x = true → ∃ b ∈ pre, b.guarded = false ∧ b.pattern.test x = true

/-- **An arm is never selected** iff it is covered by the unguarded arms before it. -/
theorem dispatch_ne_iff (ha : arms[i]? = some a) :
    (∀ x guard, dispatch arms guard x ≠ some i) ↔ Covered (arms.take i) a.pattern := by
  obtain ⟨hi, rfl⟩ := List.getElem?_eq_some_iff.mp ha
  simp only [dispatch, ne_eq, findIdx?_eq_some_iff_getElem, length_zipIdx, getElem_zipIdx, Nat.zero_add]
  constructor
  · intro h x hx
    by_contra hno
    -- all guards before the arm are false, its own is true
    refine h x (· == i) ⟨hi, by simp [Arm.taken, hx], fun k hk => ?_⟩
    have hb : ¬ (arms[k].guarded = false ∧ arms[k].pattern.test x = true) := fun hb =>
      hno ⟨arms[k], mem_take_iff_getElem.mpr ⟨k, by omega, rfl⟩, hb⟩
    have hki := Nat.ne_of_lt hk
    cases hg : arms[k].guarded <;> simp_all [Arm.taken]
  · intro h x guard ⟨_, ht, hbefore⟩
    obtain ⟨b, hb, hg, hb'⟩ := h x (Bool.and_eq_true_iff.mp ht).1
    obtain ⟨k, hk, rfl⟩ := mem_take_iff_getElem.mp hb
    simpa [Arm.taken, hg, hb'] using hbefore k (by omega)

/-! ## 4. Which arms are reported -/

/-- **Every rule is right**: what the later comparison admits, the earlier one does. -/
theorem reason_sound {op' op : CompareOp} {v' v : Int} (h : (reason op' v' op v).isSome)
    (hx : op.test x v = true) : op'.test x v' = true := by
  unfold reason at h
  split at h
  · next he => rw [he.1, he.2]; exact hx
  · cases op' <;> cases op <;> simp_all [CompareOp.test] <;> omega

/-- What is remembered behind some arms. -/
def Seen.after (s : Seen) : Nat → List Arm → Seen
  | _, [] => s
  | i, a :: arms => (s.note i a).after (i + 1) arms

theorem getElem?_visitFrom : ∀ {arms : List Arm} {i j : Nat} {s : Seen}, arms[j]? = some a →
    (visitFrom i s arms)[j]? = some ((s.after i (arms.take j)).errors (i + j) a)
  | b :: arms, i, 0, s, h => by cases h; rfl
  | b :: arms, i, j + 1, s, h => by
    rw [getElem?_cons_succ] at h
    rw [visitFrom, getElem?_cons_succ, getElem?_visitFrom h, take_succ_cons, Seen.after, Nat.add_assoc,
      Nat.add_comm 1]

variable {pre : List Arm}

attribute [local simp] Seen.note

theorem after_wildcardIndex : ∀ {pre : List Arm} {i : Nat} {s : Seen},
    (s.after i pre).wildcardIndex.isSome = true ↔
      s.wildcardIndex.isSome = true ∨ (⟨.wildcard, false⟩ : Arm) ∈ pre
  | [], i, s => by simp [Seen.after]
  | ⟨p, g⟩ :: pre, i, s => by
    rw [Seen.after, after_wildcardIndex]
    cases p with
    | wildcard => cases g <;> simp
    | comparison op l v => cases l <;> simp
    | other f => simp

theorem after_comparisons {op : CompareOp} {v : Int} : ∀ {pre : List Arm} {i : Nat} {s : Seen},
    (∃ k, ⟨op, v, k⟩ ∈ (s.after i pre).comparisons) ↔
      (∃ k, ⟨op, v, k⟩ ∈ s.comparisons) ∨ ∃ g, (⟨.comparison op true v, g⟩ : Arm) ∈ pre
  | [], i, s => by simp [Seen.after]
  | ⟨p, g⟩ :: pre, i, s => by
    rw [Seen.after, after_comparisons]
    cases p with
    | wildcard => cases g <;> simp
    | comparison op' l v' =>
      cases l with
      | false => simp
      | true => simp [exists_or, or_assoc]
    | other f => simp

/-- An earlier arm for whose sake a comparison with a literal is reported. -/
def Blames (op : CompareOp) (v : Int) (b : Arm) : Prop :=
  ∃ op' v', b.pattern = .comparison op' true v' ∧ (reason op' v' op v).isSome = true

/-- **What is reported.** -/
theorem errors_ne_nil_iff {op : CompareOp} {literal : Bool} {v : Int} {g : Bool} :
    (Seen.after ⟨none, []⟩ 0 pre).errors i ⟨.comparison op literal v, g⟩ ≠ [] ↔
      (⟨.wildcard, false⟩ : Arm) ∈ pre ∨ literal = true ∧ ∃ b ∈ pre, Blames op v b := by
  have hw := @after_wildcardIndex pre 0 ⟨none, []⟩
  have hc := fun op' v' => @after_comparisons op' v' pre 0 ⟨none, []⟩
  simp only [Option.isSome_none, Bool.false_eq_true, false_or, not_mem_nil, exists_false] at hw hc
  simp only [Seen.errors, ne_eq, append_eq_nil_iff, not_and_or, ← hw]
  refine or_congr (by simp [Option.isSome_iff_ne_none]) ?_
  cases literal with
  | false => simp
  | true =>
    simp only [↓reduceIte, Option.toList_eq_nil_iff, ← Option.isSome_iff_ne_none, findSome?_isSome_iff,
      Option.isSome_map, Blames, true_and]
    constructor
    · intro ⟨⟨op', v', k⟩, hk, hr⟩
      obtain ⟨g', hb⟩ := (hc op' v').mp ⟨k, hk⟩
      exact ⟨_, hb, op', v', rfl, hr⟩
    · intro ⟨b, hb, op', v', hp, hr⟩
      obtain ⟨k, hk⟩ := (hc op' v').mpr ⟨b.guarded, by rw [← hp]; exact hb⟩
      exact ⟨⟨op', v', k⟩, hk, hr⟩

/-! ## 5. Soundness -/

/-- A comparison arm that is reported is selected for no scrutinee and no outcome of the guards. -/
def UnreachableSound (arms : List Arm) : Prop :=
  ∀ i op literal v g, arms[i]? = some ⟨.comparison op literal v, g⟩ → (visit arms)[i]? ≠ some [] →
    ∀ x guard, dispatch arms guard x ≠ some i

/-- A comparison with a literal is reported for the sake of guarded arms only. -/
def GuardedOnly (pre : List Arm) (op : CompareOp) (v : Int) : Prop :=
  (∃ b ∈ pre, Blames op v b) ∧
    ∀ b ∈ pre, b.guarded = false → b.pattern ≠ .wildcard ∧ ¬ Blames op v b

/-- `match (n) { >= 70 if c -> …, == 75 -> … }` -/
def passOrExact : List Arm := [⟨.comparison .gteq true 70, true⟩, ⟨.comparison .eqeq true 75, false⟩]

end Vyb.Semantic.MatchCompare
