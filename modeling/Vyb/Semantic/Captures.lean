/-
  Subject:   Closure captures (`SemanticAnalyzer::visit(FunctionExpression*)` and the visitors that
             fill its capture context).

  During one walk over a body every lambda has a context on a stack: the scope it stands in, the
  names referenced while it is innermost, and the names declared while it is innermost. What is
  referenced, not declared and a variable of the scope it stands in becomes its capture list, from
  which codegen builds the environment.

  * `visit_spec` -- the walk in closed form: what it adds to the innermost context, to the scopes and
    to the recorded capture lists;
  * `captures_spec` -- the recorded lists, lambda by lambda at every depth;
  * **`captures_exact_iff`** -- they are the free variables iff every lambda is `PlainlyScoped`: its
    free variables occur outside the lambdas nested in it and share no name with a local, and a name
    bound by a pattern only is not one of an enclosing variable;
  * `unshadowed_exact` -- so they are where no name of an enclosing variable is bound again and
    nested lambdas use no variable of their own.

  Left out: which captures are written or shared, and a second visit of a node (it has the same
  scopes and records the same list).
-/
import Vyb.Syntax.Ast

namespace Vyb.Semantic.Captures

open Syntax List

/-! ## 1. The walk -/

inductive SymbolKind where
  | variable
  | function
  | type
  | typeParameter
  deriving DecidableEq, Repr

/-- The open symbol tables, innermost first; in a table the newest entry of a name counts. -/
abbrev Scopes := List (List (String × SymbolKind))

def lookup (Γ : Scopes) (x : String) : Option SymbolKind := Γ.flatten.lookup x

/-- The lookup finds a variable. -/
def IsVar (Γ : Scopes) (x : String) : Prop := lookup Γ x = some .variable

instance (Γ : Scopes) (x : String) : Decidable (IsVar Γ x) := inferInstanceAs (Decidable (_ = _))

/-- `SymbolTable::add` of a variable. -/
def addVar (x : String) : Scopes → Scopes
  | [] => []
  | t :: Γ => ((x, .variable) :: t) :: Γ

/-- A binding of a destructuring: a name the innermost table has already is an assignment. -/
def addNew (Γ : Scopes) (x : String) : Scopes :=
  if (Γ.head?.getD []).lookup x = none then addVar x Γ else Γ

/-- A fresh table that holds the given variables. -/
def table (xs : List String) : List (String × SymbolKind) := (xs.map (·, .variable)).reverse

/-- `LambdaCaptureCtx` -/
structure LambdaCaptureCtx where
  enclosingScope : Scopes
  referenced : Finset String
  locals : Finset String

/-- What the walk changes; `captures` are the recorded lists, in the order lambdas are left. -/
structure State where
  scopes : Scopes
  lambdaCaptureStack : List LambdaCaptureCtx
  captures : List (Finset String)

/-- The names the analyzer knows beside the scopes: the enums, and the calls that are intrinsics. -/
structure Names where
  enumTypeNames : List String
  intrinsics : List String

/-- Names `visit(Identifier*)` takes for a type. -/
def Names.typeLike (N : Names) (x : String) : Bool :=
  x ∈ ["Vec", "Int", "Float", "Bool", "String", "Type"] || x ∈ N.enumTypeNames

/-- The callee of an intrinsic call is not visited. -/
def Names.isIntrinsic (N : Names) : Node → Bool
  | .identifier x => x ∈ N.intrinsics
  | _ => false

namespace LambdaCaptureCtx

def reference (x : String) (c : LambdaCaptureCtx) : LambdaCaptureCtx :=
  { c with referenced := insert x c.referenced }

def declare (x : String) (c : LambdaCaptureCtx) : LambdaCaptureCtx :=
  { c with locals := insert x c.locals }

/-- The capture list: referenced, not local, a variable where the lambda stands. -/
def captured (c : LambdaCaptureCtx) : Finset String :=
  c.referenced.filter fun x => x ∉ c.locals ∧ IsVar c.enclosingScope x

end LambdaCaptureCtx

open LambdaCaptureCtx

namespace State

def enterScope (xs : List String) (s : State) : State := { s with scopes := table xs :: s.scopes }

def exitScope (s : State) : State := { s with scopes := s.scopes.tail }

def atContext (f : LambdaCaptureCtx → LambdaCaptureCtx) (s : State) : State :=
  { s with lambdaCaptureStack := s.lambdaCaptureStack.modifyHead f }

def bind (x : String) (s : State) : State := { s with scopes := addVar x s.scopes }

def bindNew (xs : List String) (s : State) : State := { s with scopes := xs.foldl addNew s.scopes }

/-- Start of a lambda: its context, then its scope with the parameters. -/
def enterLambda (params : List String) (s : State) : State :=
  enterScope params
    { s with lambdaCaptureStack := ⟨s.scopes, ∅, params.toFinset⟩ :: s.lambdaCaptureStack }

/-- End of a lambda: its capture list is recorded. -/
def exitLambda (s : State) : State :=
  match s.lambdaCaptureStack with
  | [] => s
  | c :: cs => { scopes := s.scopes.tail, lambdaCaptureStack := cs, captures := s.captures ++ [c.captured] }

end State

mutual

/-- The analyzer's walk, as far as it fills the capture lists. -/
def visit (N : Names) (s : State) : Node → State
  | .absent => s
  | .literal => s
  | .identifier x => if N.typeLike x then s else s.atContext (·.reference x)
  | .binary l r => visit N (visit N s l) r
  | .operator es => visitAll N s es
  | .call f args => visitAll N (if N.isIntrinsic f then s else visit N s f) args
  | .member o => visit N s o
  | .assignment l r => visit N (visit N s l) r
  | .function ps b => (visit N (s.enterLambda ps) b).exitLambda
  | .blockExpression b ts e => visit N (visitAll N (visit N s b) ts) e
  | .trapClause x h => (visit N (s.enterScope [x]) h).exitScope
  | .block ss => (visitAll N (s.enterScope []) ss).exitScope
  | .expressionStatement e => visit N s e
  | .variableDeclaration x i => (visit N (s.atContext (·.declare x)) i).bind x
  | .tupleDestructure xs e => (visit N s e).bindNew xs
  | .returnStatement e => visit N s e
  | .ifStatement c t e => visit N (visit N (visit N s c) t) e
  | .whileStatement c b => (visit N (visit N (s.enterScope []) c) b).exitScope
  | .forStatement i c u b =>
    (visit N (visit N (visit N (visit N (s.enterScope []) i) c) u) b).exitScope
  | .tryStatement t c f => visit N (visit N (visit N s t) c) f
  | .matchStatement e cs => visitAll N (visit N s e) cs
  | .matchExpression e cs => visitAll N (visit N s e) cs
  | .matchCase xs p g b => (visit N (visit N (visit N (s.enterScope xs) p) g) b).exitScope
  | .failStatement e => visit N s e

def visitAll (N : Names) (s : State) : List Node → State
  | [] => s
  | n :: ns => visitAll N (visit N s n) ns

end

/-! ## 2. The walk in closed form -/

mutual

/-- What `own` gives at the nodes of a body; inside nested lambdas only if `deep`. -/
def collect (N : Names) (deep : Bool) (own : Node → Finset String) : Node → Finset String
  | .absent => ∅
  | .literal => ∅
  | .identifier x => own (.identifier x)
  | .binary l r => collect N deep own l ∪ collect N deep own r
  | .operator es => collectAll N deep own es
  | .call f args =>
    (if N.isIntrinsic f then ∅ else collect N deep own f) ∪ collectAll N deep own args
  | .member o => collect N deep own o
  | .assignment l r => collect N deep own l ∪ collect N deep own r
  | .function ps b => own (.function ps b) ∪ if deep then collect N deep own b else ∅
  | .blockExpression b ts e =>
    collect N deep own b ∪ collectAll N deep own ts ∪ collect N deep own e
  | .trapClause x h => own (.trapClause x h) ∪ collect N deep own h
  | .block ss => collectAll N deep own ss
  | .expressionStatement e => collect N deep own e
  | .variableDeclaration x i => own (.variableDeclaration x i) ∪ collect N deep own i
  | .tupleDestructure xs e => own (.tupleDestructure xs e) ∪ collect N deep own e
  | .returnStatement e => collect N deep own e
  | .ifStatement c t e => collect N deep own c ∪ collect N deep own t ∪ collect N deep own e
  | .whileStatement c b => collect N deep own c ∪ collect N deep own b
  | .forStatement i c u b =>
    collect N deep own i ∪ collect N deep own c ∪ collect N deep own u ∪ collect N deep own b
  | .tryStatement t c f => collect N deep own t ∪ collect N deep own c ∪ collect N deep own f
  | .matchStatement e cs => collect N deep own e ∪ collectAll N deep own cs
  | .matchExpression e cs => collect N deep own e ∪ collectAll N deep own cs
  | .matchCase xs p g b =>
    own (.matchCase xs p g b) ∪ collect N deep own p ∪ collect N deep own g ∪ collect N deep own b
  | .failStatement e => collect N deep own e

def collectAll (N : Names) (deep : Bool) (own : Node → Finset String) : List Node → Finset String
  | [] => ∅
  | n :: ns => collect N deep own n ∪ collectAll N deep own ns

end

/-- What `visit(Identifier*)` records. -/
def reference (N : Names) : Node → Finset String
  | .identifier x => if N.typeLike x then ∅ else {x}
  | _ => ∅

/-- What `visit(VariableDeclaration*)` records. -/
def declaration : Node → Finset String
  | .variableDeclaration x _ => {x}
  | _ => ∅

/-- The names referenced outside nested lambdas. -/
def referenced (N : Names) : Node → Finset String := collect N false (reference N)

/-- The names of the variable declarations outside nested lambdas. -/
def declared (N : Names) : Node → Finset String := collect N false declaration

/-- An identifier or a lambda, as it occurs in a body. -/
inductive Occurrence where
  | use (x : String)
  | lambda (params : List String) (body : Node)

mutual

/-- The tables after a node, and every use and lambda in it with the tables open where it stands.
    A lambda comes after what it holds. -/
def survey (N : Names) (Γ : Scopes) : Node → Scopes × List (Scopes × Occurrence)
  | .absent => (Γ, [])
  | .literal => (Γ, [])
  | .identifier x => (Γ, [(Γ, .use x)])
  | .binary l r =>
    let a := survey N Γ l
    let b := survey N a.1 r
    (b.1, a.2 ++ b.2)
  | .operator es => surveyAll N Γ es
  | .call f args =>
    let a := if N.isIntrinsic f then (Γ, []) else survey N Γ f
    let b := surveyAll N a.1 args
    (b.1, a.2 ++ b.2)
  | .member o => survey N Γ o
  | .assignment l r =>
    let a := survey N Γ l
    let b := survey N a.1 r
    (b.1, a.2 ++ b.2)
  | .function ps b => (Γ, (survey N (table ps :: Γ) b).2 ++ [(Γ, .lambda ps b)])
  | .blockExpression b ts e =>
    let r := survey N Γ b
    let t := surveyAll N r.1 ts
    let u := survey N t.1 e
    (u.1, r.2 ++ t.2 ++ u.2)
  | .trapClause x h => (Γ, (survey N (table [x] :: Γ) h).2)
  | .block ss => (Γ, (surveyAll N (table [] :: Γ) ss).2)
  | .expressionStatement e => survey N Γ e
  | .variableDeclaration x i =>
    let a := survey N Γ i
    (addVar x a.1, a.2)
  | .tupleDestructure xs e =>
    let a := survey N Γ e
    (xs.foldl addNew a.1, a.2)
  | .returnStatement e => survey N Γ e
  | .ifStatement c t e =>
    let a := survey N Γ c
    let b := survey N a.1 t
    let d := survey N b.1 e
    (d.1, a.2 ++ b.2 ++ d.2)
  | .whileStatement c b =>
    let a := survey N (table [] :: Γ) c
    (Γ, a.2 ++ (survey N a.1 b).2)
  | .forStatement i c u b =>
    let a := survey N (table [] :: Γ) i
    let d := survey N a.1 c
    let e := survey N d.1 u
    (Γ, a.2 ++ d.2 ++ e.2 ++ (survey N e.1 b).2)
  | .tryStatement t c f =>
    let a := survey N Γ t
    let b := survey N a.1 c
    let d := survey N b.1 f
    (d.1, a.2 ++ b.2 ++ d.2)
  | .matchStatement e cs =>
    let a := survey N Γ e
    let b := surveyAll N a.1 cs
    (b.1, a.2 ++ b.2)
  | .matchExpression e cs =>
    let a := survey N Γ e
    let b := surveyAll N a.1 cs
    (b.1, a.2 ++ b.2)
  | .matchCase xs p g b =>
    let a := survey N (table xs :: Γ) p
    let d := survey N a.1 g
    (Γ, a.2 ++ d.2 ++ (survey N d.1 b).2)
  | .failStatement e => survey N Γ e

def surveyAll (N : Names) (Γ : Scopes) : List Node → Scopes × List (Scopes × Occurrence)
  | [] => (Γ, [])
  | n :: ns =>
    let a := survey N Γ n
    let b := surveyAll N a.1 ns
    (b.1, a.2 ++ b.2)

end

/-- A lambda where it stands. -/
structure Lambda where
  scopes : Scopes
  params : List String
  body : Node

def lambdaOf : Scopes × Occurrence → Option Lambda
  | (Γ, .lambda ps b) => some ⟨Γ, ps, b⟩
  | (_, .use _) => none

/-- The lambdas of a node, at every depth. -/
def lambdas (N : Names) (Γ : Scopes) (n : Node) : List Lambda :=
  (survey N Γ n).2.filterMap lambdaOf

/-- The list the analyzer records for a lambda. -/
def Lambda.captured (N : Names) (L : Lambda) : Finset String :=
  (referenced N L.body).filter fun x =>
    x ∉ L.params.toFinset ∪ declared N L.body ∧ IsVar L.scopes x

/-- What a node adds to a context. -/
def LambdaCaptureCtx.see (refs decls : Finset String) (c : LambdaCaptureCtx) : LambdaCaptureCtx :=
  { c with referenced := c.referenced ∪ refs, locals := c.locals ∪ decls }

/-- A state after a part of the walk, from what that part leaves. -/
def State.after (s : State) (Γ : Scopes) (refs decls : Finset String) (caps : List (Finset String)) :
    State :=
  ⟨Γ, s.lambdaCaptureStack.modifyHead (·.see refs decls), s.captures ++ caps⟩

variable (s : State)

@[simp] theorem after_scopes (Γ : Scopes) (r d : Finset String) (c : List (Finset String)) :
    (s.after Γ r d c).scopes = Γ := rfl

attribute [local simp] collect reference referenced declaration declared LambdaCaptureCtx.see survey

theorem see_see (r d r' d' : Finset String) :
    (LambdaCaptureCtx.see r' d') ∘ (LambdaCaptureCtx.see r d) =
      LambdaCaptureCtx.see (r ∪ r') (d ∪ d') := by
  funext c
  simp [Finset.union_assoc]

theorem after_after (Γ Γ' : Scopes) (r d r' d' : Finset String) (c c' : List (Finset String)) :
    (s.after Γ r d c).after Γ' r' d' c' = s.after Γ' (r ∪ r') (d ∪ d') (c ++ c') := by
  simp only [State.after, modifyHead_modifyHead, see_see, append_assoc]

theorem after_refl : s.after s.scopes ∅ ∅ [] = s := by
  obtain ⟨Γ, stack, caps⟩ := s
  cases stack <;> simp [State.after]

/-- The lists recorded in a node. -/
def recorded (N : Names) (Γ : Scopes) (n : Node) : List (Finset String) :=
  (lambdas N Γ n).map (Lambda.captured N)

def recordedAll (N : Names) (Γ : Scopes) (ns : List Node) : List (Finset String) :=
  ((surveyAll N Γ ns).2.filterMap lambdaOf).map (Lambda.captured N)

variable (x : String)

theorem addVar_tail (Γ : Scopes) : (addVar x Γ).tail = Γ.tail := by
  cases Γ <;> rfl

theorem addNew_tail (Γ : Scopes) : (addNew Γ x).tail = Γ.tail := by
  unfold addNew
  split
  · exact addVar_tail x Γ
  · rfl

theorem foldl_addNew_tail : ∀ (xs : List String) (Γ : Scopes), (xs.foldl addNew Γ).tail = Γ.tail
  | [], _ => rfl
  | x :: xs, Γ => by rw [foldl_cons, foldl_addNew_tail xs, addNew_tail]

variable (N : Names)

theorem survey_tail : (∀ n Γ, (survey N Γ n).1.tail = Γ.tail) ∧
    ∀ ns Γ, (surveyAll N Γ ns).1.tail = Γ.tail := by
  refine Node.pass_induction (fun Γ => rfl) ?_ ?_
  · intro n ns hn hns Γ
    rw [surveyAll, hns, hn]
  · intro n ih ihs Γ
    simp only [Node.nodes, Node.list] at ih ihs
    cases n <;> simp only [survey] <;> grind [addVar_tail, foldl_addNew_tail]

theorem atContext_reference :
    s.atContext (·.reference x) = s.after s.scopes {x} ∅ [] := by
  have h : (LambdaCaptureCtx.reference x) = LambdaCaptureCtx.see {x} ∅ := by
    funext c
    simp [LambdaCaptureCtx.reference]
  simp [State.atContext, State.after, h]

theorem atContext_declare :
    s.atContext (·.declare x) = s.after s.scopes ∅ {x} [] := by
  have h : (declare x) = LambdaCaptureCtx.see ∅ {x} := by
    funext c
    simp [declare]
  simp [State.atContext, State.after, h]

@[simp] theorem enterScope_scopes (xs : List String) :
    (s.enterScope xs).scopes = table xs :: s.scopes := rfl

theorem exitScope_after (xs : List String) (Γ : Scopes) (r d : Finset String)
    (c : List (Finset String)) : ((s.enterScope xs).after Γ r d c).exitScope = s.after Γ.tail r d c := rfl

/-- A lambda leaves the contexts around it as they were and records its list. -/
theorem exitLambda_after (s : State) (ps : List String) (b : Node) (Γ : Scopes)
    (c : List (Finset String)) :
    ((s.enterLambda ps).after Γ (referenced N b) (declared N b) c).exitLambda =
      s.after Γ.tail ∅ ∅ (c ++ [Lambda.captured N ⟨s.scopes, ps, b⟩]) := by
  have hsee : (LambdaCaptureCtx.see ∅ ∅) = id := by
    funext c
    simp
  have hcap : (LambdaCaptureCtx.see (referenced N b) (declared N b)
      ⟨s.scopes, ∅, ps.toFinset⟩).captured = Lambda.captured N ⟨s.scopes, ps, b⟩ := by
    simp [captured, Lambda.captured]
  simp only [State.after, State.enterLambda, State.enterScope, State.exitLambda,
    modifyHead_cons, hcap, hsee, append_assoc]
  cases s.lambdaCaptureStack <;> simp

attribute [local simp] collectAll surveyAll

/-- **The walk in closed form.** -/
theorem visit_spec : (∀ n s, visit N s n =
      s.after (survey N s.scopes n).1 (referenced N n) (declared N n) (recorded N s.scopes n)) ∧
    ∀ ns s, visitAll N s ns = s.after (surveyAll N s.scopes ns).1
      (collectAll N false (reference N) ns) (collectAll N false declaration ns) (recordedAll N s.scopes ns) := by
  refine Node.pass_induction (fun s => (after_refl s).symm) ?_ ?_
  · intro n ns hn hns s
    rw [visitAll, hn, hns, after_after, after_scopes]
    simp [recorded, recordedAll, lambdas]
  · intro n ih ihs s
    have htail := survey_tail N
    cases n <;> simp only [Node.nodes, Node.list, mem_cons, not_mem_nil, or_false, forall_eq_or_imp,
      forall_eq] at ih ihs
    case absent | literal => exact (after_refl s).symm
    case identifier x =>
      have hrec : recorded N s.scopes (.identifier x) = [] := rfl
      by_cases h : N.typeLike x = true
      · simp [visit, h, hrec, after_refl]
      · simp [visit, h, hrec, atContext_reference]
    case call f args =>
      by_cases h : N.isIntrinsic f = true <;>
        simp [visit, ih, ihs, after_after, recorded, recordedAll, lambdas, h]
    case function ps b =>
      rw [visit, ih, exitLambda_after, htail.1]
      simp [recorded, lambdas, lambdaOf, State.enterLambda, State.enterScope]
    case variableDeclaration x i =>
      rw [visit, atContext_declare, ih, after_after, after_scopes]
      simp [recorded, lambdas, State.bind, State.after]
    case tupleDestructure xs e =>
      rw [visit, ih]
      simp [recorded, lambdas, State.bindNew, State.after]
    all_goals
      simp [visit, ih, ihs, htail, after_after, exitScope_after, recorded, recordedAll, lambdas]

/-! ## 3. Free variables -/

/-- The name of an identifier that no open table binds. -/
def freeOf : Scopes × Occurrence → Option String
  | (Δ, .use x) => if lookup Δ x = none then some x else none
  | (_, .lambda _ _) => none

/-- The names that occur free in a lambda, nested lambdas included: bound are the parameters and
    whatever the scopes inside the lambda hold at the occurrence. -/
def Lambda.free (N : Names) (L : Lambda) : Finset String :=
  ((survey N [table L.params] L.body).2.filterMap freeOf).toFinset

/-- The variables of the enclosing scopes that occur free in a lambda. -/
def Lambda.freeVariables (N : Names) (L : Lambda) : Finset String :=
  (L.free N).filter (IsVar L.scopes)

/-- The analyzer records the free variables of every lambda in `n`, at any depth. -/
def CapturesFree (N : Names) (Γ : Scopes) (n : Node) : Prop :=
  (visit N ⟨Γ, [], []⟩ n).captures = (lambdas N Γ n).map (Lambda.freeVariables N)

instance (N : Names) (Γ : Scopes) (n : Node) : Decidable (CapturesFree N Γ n) :=
  inferInstanceAs (Decidable (_ = _))

/-- No name of an enclosing variable is used in a way the capture context cannot tell apart. -/
structure PlainlyScoped (N : Names) (L : Lambda) : Prop where
  /-- a free variable also occurs outside the nested lambdas, and is not spelled like a type -/
  direct : ∀ x, IsVar L.scopes x → x ∈ L.free N → x ∈ referenced N L.body
  /-- no declaration in the body, in whatever block, has the name of a free variable -/
  unshadowed : ∀ x, IsVar L.scopes x → x ∈ L.free N → x ∉ declared N L.body
  /-- a name that is bound wherever it occurs is a parameter or declared, not only bound by a
      pattern, a trap clause or a destructuring -/
  bound : ∀ x, IsVar L.scopes x → x ∈ referenced N L.body → x ∉ L.free N →
    x ∈ L.params ∨ x ∈ declared N L.body

/-- What a node binds. -/
def binding : Node → Finset String
  | .function ps _ => ps.toFinset
  | .trapClause x _ => {x}
  | .variableDeclaration x _ => {x}
  | .tupleDestructure xs _ => xs.toFinset
  | .matchCase xs _ _ _ => xs.toFinset
  | _ => ∅

/-- Every name bound anywhere in a node. -/
def binders (N : Names) : Node → Finset String := collect N true binding

section Survey

variable (N : Names) (P : Scopes → Prop) (ok : String → Prop)

/-- `P` holds of the tables after a part of the walk and at all its occurrences. -/
def HoldsIn (r : Scopes × List (Scopes × Occurrence)) : Prop := P r.1 ∧ ∀ o ∈ r.2, P o.1

variable {P ok}

theorem HoldsIn.append {a b : Scopes × List (Scopes × Occurrence)} (ha : HoldsIn P a) (hb : HoldsIn P b) :
    HoldsIn P (b.1, a.2 ++ b.2) :=
  ⟨hb.1, fun o ho => (mem_append.mp ho).elim (ha.2 o) (hb.2 o)⟩

/-- Opening a table with admitted names and adding an admitted name keep `P`. -/
structure Kept (P : Scopes → Prop) (ok : String → Prop) : Prop where
  opened : ∀ ys Γ, (∀ y ∈ ys, ok y) → P Γ → P (table ys :: Γ)
  added : ∀ y Γ, ok y → P Γ → P (addVar y Γ)

theorem foldl_addNew_holds (K : Kept P ok) :
    ∀ (ys : List String) {Γ : Scopes}, (∀ y ∈ ys, ok y) → P Γ → P (ys.foldl addNew Γ)
  | [], _, _, h => h
  | y :: ys, Γ, hok, h => by
    refine foldl_addNew_holds K ys (fun z hz => hok z (mem_cons_of_mem y hz)) ?_
    unfold addNew
    split
    · exact K.added y Γ (hok y mem_cons_self) h
    · exact h

/-- **What every binding keeps** holds wherever the walk comes. -/
theorem survey_holds (K : Kept P ok) : (∀ n Γ, (∀ y ∈ collect N true binding n, ok y) → P Γ →
      HoldsIn P (survey N Γ n)) ∧
    ∀ ns Γ, (∀ y ∈ collectAll N true binding ns, ok y) → P Γ → HoldsIn P (surveyAll N Γ ns) := by
  have hnone : ∀ Γ, P Γ → HoldsIn P (Γ, []) := fun Γ h => ⟨h, fun o ho => by cases ho⟩
  refine Node.pass_induction (fun Γ _ h => hnone Γ h) ?_ ?_
  · intro n ns hn hns Γ hb h
    simp only [collectAll, Finset.forall_mem_union] at hb
    have h1 := hn Γ hb.1 h
    exact h1.append (hns _ hb.2 h1.1)
  · intro n ih ihs Γ hb h
    cases n <;> simp only [Node.nodes, Node.list, mem_cons, not_mem_nil, or_false, forall_eq_or_imp,
      forall_eq] at ih ihs <;>
      simp only [collect, Finset.forall_mem_union, binding, mem_toFinset, Finset.mem_singleton, if_true] at hb
    case identifier x => exact ⟨h, by simpa using h⟩
    case call f args =>
      have hf : HoldsIn P (if N.isIntrinsic f then (Γ, []) else survey N Γ f) := by
        split
        · exact hnone Γ h
        · rename_i hi
          exact ih Γ (by simpa [hi] using hb.1) h
      exact hf.append (ihs _ hb.2 hf.1)
    case function ps b =>
      have hbody := ih _ hb.2 (K.opened ps Γ hb.1 h)
      refine ⟨h, fun o ho => ?_⟩
      rcases mem_append.mp ho with ho | ho
      · exact hbody.2 o ho
      · exact (mem_singleton.mp ho) ▸ h
    case variableDeclaration x i =>
      have hi := ih Γ hb.2 h
      exact ⟨K.added x _ (hb.1 x rfl) hi.1, hi.2⟩
    case tupleDestructure xs e =>
      have he := ih Γ hb.2 h
      exact ⟨foldl_addNew_holds K xs hb.1 he.1, he.2⟩
    case absent | literal => exact hnone Γ h
    case operator => exact ihs Γ hb h
    case member | expressionStatement | returnStatement | failStatement => exact ih Γ hb h
    case binary | assignment =>
      have h1 := ih.1 Γ hb.1 h
      exact h1.append (ih.2 _ hb.2 h1.1)
    case matchStatement | matchExpression =>
      have h1 := ih Γ hb.1 h
      exact h1.append (ihs _ hb.2 h1.1)
    case blockExpression =>
      have h1 := ih.1 Γ hb.1.1 h
      have h2 := h1.append (ihs _ hb.1.2 h1.1)
      exact h2.append (ih.2 _ hb.2 h2.1)
    case ifStatement | tryStatement =>
      have h1 := ih.1 Γ hb.1.1 h
      have h2 := h1.append (ih.2.1 _ hb.1.2 h1.1)
      exact h2.append (ih.2.2 _ hb.2 h2.1)
    -- The nodes that open a table; what it holds afterwards is dropped.
    case trapClause x e => exact ⟨h, (ih _ hb.2 (K.opened [x] Γ (by simpa using hb.1) h)).2⟩
    case block => exact ⟨h, (ihs _ hb (K.opened [] Γ (by simp) h)).2⟩
    case whileStatement =>
      have h1 := ih.1 _ hb.1 (K.opened [] Γ (by simp) h)
      exact ⟨h, (h1.append (ih.2 _ hb.2 h1.1)).2⟩
    case forStatement =>
      have h1 := ih.1 _ hb.1.1.1 (K.opened [] Γ (by simp) h)
      have h2 := h1.append (ih.2.1 _ hb.1.1.2 h1.1)
      have h3 := h2.append (ih.2.2.1 _ hb.1.2 h2.1)
      exact ⟨h, (h3.append (ih.2.2.2 _ hb.2 h3.1)).2⟩
    case matchCase xs p g b =>
      have h1 := ih.1 _ hb.1.1.2 (K.opened xs Γ hb.1.1.1 h)
      have h2 := h1.append (ih.2.1 _ hb.1.2 h1.1)
      exact ⟨h, (h2.append (ih.2.2 _ hb.2 h2.1)).2⟩

end Survey

theorem lookup_table_cons {x : String} {ys : List String} {Γ : Scopes} :
    lookup (table ys :: Γ) x = if x ∈ ys then some .variable else lookup Γ x := by
  have htable : ∀ zs : List String, (zs.map (·, SymbolKind.variable)).lookup x =
      if x ∈ zs then some .variable else none := by
    intro zs
    induction zs with
    | nil => rfl
    | cons z zs ih =>
      by_cases hz : x = z
      · simp [hz]
      · have hb : (x == z) = false := by simpa using hz
        simp [List.lookup_cons, hb, ih, hz]
  unfold lookup table
  rw [flatten_cons, lookup_append, ← map_reverse, htable]
  simp only [mem_reverse]
  split <;> simp

theorem lookup_addVar_ne {x y : String} (hxy : x ≠ y) (Γ : Scopes) : lookup (addVar y Γ) x = lookup Γ x := by
  cases Γ with
  | nil => rfl
  | cons t Γ =>
    have hb : (x == y) = false := by simpa using hxy
    simp [lookup, addVar, List.lookup_cons, hb]

theorem lookup_addVar_self (t : List (String × SymbolKind)) (Γ : Scopes) :
    lookup (addVar x (t :: Γ)) x = some .variable := by
  simp [lookup, addVar]

theorem bound_kept : Kept (fun Γ => lookup Γ x ≠ none) (fun _ => True) where
  opened ys Γ _ h := by
    rw [lookup_table_cons]
    split
    · simp
    · exact h
  added y Γ _ h := by
    by_cases hxy : x = y
    · subst hxy
      cases Γ with
      | nil => exact h
      | cons t Γ => simp [lookup_addVar_self]
    · rwa [lookup_addVar_ne hxy]

theorem unbound_kept : Kept (fun Γ => lookup Γ x = none) (fun y => x ≠ y) where
  opened ys Γ hys h := by
    rw [lookup_table_cons, if_neg fun hx => hys x hx rfl]
    exact h
  added y Γ hxy h := by rwa [lookup_addVar_ne hxy]

theorem mem_free {N : Names} {L : Lambda} {x : String} :
    x ∈ L.free N ↔ ∃ Δ, (Δ, .use x) ∈ (survey N [table L.params] L.body).2 ∧ lookup Δ x = none := by
  rw [Lambda.free, mem_toFinset, mem_filterMap]
  constructor
  · intro ⟨⟨Δ, o⟩, hmem, ho⟩
    cases o with
    | use y =>
      simp only [freeOf] at ho
      split at ho
      · rename_i hnone
        obtain rfl : y = x := by simpa using ho
        exact ⟨Δ, hmem, hnone⟩
      · simp at ho
    | lambda ps b => simp [freeOf] at ho
  · intro ⟨Δ, hmem, hnone⟩
    exact ⟨(Δ, .use x), hmem, by simp [freeOf, hnone]⟩

theorem free_not_param {N : Names} {L : Lambda} {x : String} (h : x ∈ L.free N) : x ∉ L.params := by
  intro hp
  obtain ⟨Δ, hmem, hnone⟩ := mem_free.mp h
  have hΓ : lookup [table L.params] x ≠ none := by simp [lookup_table_cons, hp]
  exact ((survey_holds N (bound_kept x)).1 L.body _ (fun _ _ => trivial) hΓ).2 _ hmem hnone

/-! ## 4. When the recorded lists are the free variables -/

/-- **The recorded lists**, lambda by lambda. -/
theorem captures_spec (Γ : Scopes) (n : Node) :
    (visit N ⟨Γ, [], []⟩ n).captures = (lambdas N Γ n).map (Lambda.captured N) := by
  rw [(visit_spec N).1]
  rfl

theorem captured_eq_iff (L : Lambda) : L.captured N = L.freeVariables N ↔ PlainlyScoped N L := by
  have hmem : L.captured N = L.freeVariables N ↔ ∀ x, IsVar L.scopes x →
      (x ∈ referenced N L.body ∧ x ∉ L.params ∧ x ∉ declared N L.body ↔ x ∈ L.free N) := by
    simp only [Finset.ext_iff, Lambda.captured, Lambda.freeVariables, Finset.mem_filter,
      Finset.mem_union, mem_toFinset, not_or]
    refine forall_congr' fun x => ?_
    tauto
  rw [hmem]
  constructor
  · intro h
    refine ⟨fun x hx hf => ((h x hx).mpr hf).1, fun x hx hf => ((h x hx).mpr hf).2.2, ?_⟩
    intro x hx hr hf
    by_contra hc
    push Not at hc
    exact hf ((h x hx).mp ⟨hr, hc⟩)
  · intro h x hx
    constructor
    · intro ⟨hr, hp, hd⟩
      by_contra hf
      rcases h.bound x hx hr hf with hc | hc
      · exact hp hc
      · exact hd hc
    · intro hf
      exact ⟨h.direct x hx hf, free_not_param hf, h.unshadowed x hx hf⟩

/-- **The analyzer records the free variables of every lambda iff every lambda is plainly scoped.** -/
theorem captures_exact_iff (N : Names) (Γ : Scopes) (n : Node) :
    CapturesFree N Γ n ↔ ∀ L ∈ lambdas N Γ n, PlainlyScoped N L := by
  unfold CapturesFree
  rw [captures_spec, map_inj_left]
  exact forall₂_congr fun L _ => captured_eq_iff N L

/-- Three ways to differ: a variable that occurs in a nested lambda only is missing, a local of an
    inner block hides an occurrence outside that block, and a name that a match arm binds is
    captured. -/
theorem captures_differ :
    ¬ CapturesFree ⟨[], []⟩ [[("x", .variable)]] (.function [] (.function [] (.identifier "x"))) ∧
      ¬ CapturesFree ⟨[], []⟩ [[("x", .variable)]]
        (.function [] (.block [.block [.variableDeclaration "x" .literal], .identifier "x"])) ∧
      ¬ CapturesFree ⟨[], []⟩ [[("x", .variable)]]
        (.function [] (.matchStatement .literal [.matchCase ["x"] .absent .absent (.identifier "x")])) := by
  decide

/-! ## 5. Lambdas that reuse no enclosing name -/

section Unshadowed

variable (N : Names)

theorem collect_mono {own own' : Node → Finset String} (h : ∀ n, own n ⊆ own' n) :
    (∀ n, collect N false own n ⊆ collect N true own' n) ∧
      ∀ ns, collectAll N false own ns ⊆ collectAll N true own' ns := by
  refine Node.pass_induction (by simp) (fun n ns hn hns => Finset.union_subset_union hn hns) ?_
  intro n ih ihs
  cases n <;> simp only [Node.nodes, Node.list, mem_cons, not_mem_nil, or_false, forall_eq_or_imp,
    forall_eq] at ih ihs <;> simp only [collect] <;> grind

variable {N} {x : String}

/-- The uses of a name are its references at any depth. -/
theorem use_iff (hx : N.typeLike x = false) :
    (∀ n Γ, (∃ Δ, (Δ, .use x) ∈ (survey N Γ n).2) ↔ x ∈ collect N true (reference N) n) ∧
      ∀ ns Γ, (∃ Δ, (Δ, .use x) ∈ (surveyAll N Γ ns).2) ↔ x ∈ collectAll N true (reference N) ns := by
  refine Node.pass_induction (by simp) ?_ ?_
  · intro n ns hn hns Γ
    simp [exists_or, hn, hns]
  · intro n ih ihs Γ
    cases n <;> simp only [Node.nodes, Node.list, mem_cons, not_mem_nil, or_false, forall_eq_or_imp,
      forall_eq] at ih ihs
    case identifier y =>
      by_cases hy : x = y
      · subst hy
        simp [hx]
      · cases hl : N.typeLike y <;> simp [hy, hl]
    case call f args => cases hi : N.isIntrinsic f <;> simp [hi, exists_or, ih, ihs]
    all_goals simp [exists_or, ih, ihs]

/-- The references of a body, nested lambdas included. -/
def referencedDeep (N : Names) : Node → Finset String := collect N true (reference N)

/-- **Without shadowing the list is right**: no name bound in the lambda is one of an enclosing
    variable, and such a variable is also referenced outside the nested lambdas. -/
theorem unshadowed_exact {L : Lambda} (htype : ∀ x, IsVar L.scopes x → N.typeLike x = false)
    (hbind : ∀ x, IsVar L.scopes x → x ∉ L.params ∧ x ∉ binders N L.body)
    (hnest : ∀ x, IsVar L.scopes x → x ∈ referencedDeep N L.body → x ∈ referenced N L.body) :
    L.captured N = L.freeVariables N := by
  refine (captured_eq_iff N L).mpr ⟨fun x hx hf => ?_, fun x hx _ hd => ?_, fun x hx hr hf => ?_⟩
  · obtain ⟨Δ, hmem, -⟩ := mem_free.mp hf
    exact hnest x hx (((use_iff (htype x hx)).1 L.body _).mp ⟨Δ, hmem⟩)
  · refine (hbind x hx).2 ((collect_mono N fun n => ?_).1 L.body hd)
    cases n <;> simp [binding]
  · -- every use is unbound, so the reference is a free occurrence
    exfalso
    have hdeep := (collect_mono N fun n => Finset.Subset.refl (reference N n)).1 L.body hr
    obtain ⟨Δ, hmem⟩ := ((use_iff (htype x hx)).1 L.body [table L.params]).mpr hdeep
    have hstart : lookup [table L.params] x = none := by
      rw [lookup_table_cons, if_neg (hbind x hx).1]
      rfl
    have hkept := (survey_holds N (unbound_kept x)).1 L.body _
      (fun y hy hxy => (hbind x hx).2 (hxy ▸ hy)) hstart
    exact hf (mem_free.mpr ⟨Δ, hmem, hkept.2 _ hmem⟩)

end Unshadowed

/-- A lambda of `y` that reads a variable. -/
def readsX : Lambda := ⟨[[("x", .variable)]], ["y"], .identifier "x"⟩

theorem unshadowed_exact_x : readsX.captured ⟨[], []⟩ = readsX.freeVariables ⟨[], []⟩ := by
  have hx : ∀ x, IsVar readsX.scopes x → x = "x" := by
    intro x h
    by_contra hne
    simp [readsX, IsVar, lookup, List.lookup_cons, beq_false_of_ne hne] at h
  refine unshadowed_exact (fun x h => ?_) (fun x h => ?_) fun x h _ => ?_
  all_goals
    rw [hx x h]
    decide

end Vyb.Semantic.Captures
