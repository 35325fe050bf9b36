/-
  Subject:   Move and borrow tracking of the semantic analyzer (`semantic_ownership.cpp` and the
             visitors of `semantic.cpp` that call it).

  The analyzer goes over a function body once, in the order of the text. It keeps a stack of scopes
  for the symbols, one for the active borrows and one for the marks of moved variables, which grow and
  shrink together, and one table over all scopes and functions that says where a `their` variable was
  last bound by `borrow` or `view`.

  * `State.visit` -- the visitors, on the statements of a body;
  * `visit_eq_text` -- the pass is a machine that runs along the text of the body;
  * `Env` -- the part of the state that neither the marks nor the errors have an influence on.

  Left out: the type checks, so that an expression has no type only if an identifier in it was
  refused or it borrows what cannot be borrowed; the follow-up errors of an expression without a type;
  reserved words and built-in type names; lambdas, and moves into the parameters of a call.
-/
import Vyb.Lib.Scopes
import Vyb.Lib.Traces

namespace Vyb.Semantic.Ownership

open Lib List

/-! ## 1. Bodies -/

/-- The ownership wrapper of a type. -/
inductive Wrapper where
  | my
  | their
  | other
  deriving DecidableEq, Repr

/-- A resolved type, as far as the tracking reads it: its wrapper, and whether the payload is a
    primitive. -/
structure Ty where
  wrapper : Wrapper
  primitive : Bool
  deriving DecidableEq, Repr

/-- `hasOwnershipKindMY`, `isMyOwnershipType` -/
def Ty.isMy (t : Ty) : Bool := t.wrapper == .my

/-- `isTheirType` -/
def Ty.isTheir (t : Ty) : Bool := t.wrapper == .their

/-- `unwrapPrimitiveOwnershipType`: reading a wrapped primitive yields the primitive. -/
def Ty.read (t : Ty) : Ty := if t.primitive then { t with wrapper := .other } else t

abbrev Ty.myInt : Ty := ⟨.my, true⟩
abbrev Ty.theirInt : Ty := ⟨.their, true⟩
abbrev Ty.int : Ty := ⟨.other, true⟩

inductive BorrowKind where
  | mutableBorrow
  | immutableView
  deriving DecidableEq, Repr

/-- Expressions. The parts of a value carry their resolved type; of operators, calls and constructors
    only the operands matter. -/
inductive Expr where
  | literal
  | ident (name : String)
  | member (object : Expr) (ty : Ty)
  | element (array index : Expr) (ty : Ty)
  | binary (left right : Expr)
  | borrow (kind : BorrowKind) (expression : Expr)
  deriving DecidableEq, Repr

/-- The identifiers of an expression, in the order of the text. -/
def Expr.reads : Expr → List String
  | .literal => []
  | .ident x => [x]
  | .member o _ => o.reads
  | .element a i _ => a.reads ++ i.reads
  | .binary l r => l.reads ++ r.reads
  | .borrow _ e => e.reads

/-- `isLValue` -/
def Expr.isLValue : Expr → Bool
  | .ident _ => true
  | .member _ _ => true
  | .element _ _ _ => true
  | _ => false

/-- `borrowedRootName`; the empty name of the source is `none`. -/
def Expr.borrowedRootName : Expr → Option String
  | .ident x => some x
  | .member o _ => o.borrowedRootName
  | .element a _ _ => a.borrowedRootName
  | _ => none

structure Declaration where
  name : String
  ty : Ty
  init : Option Expr
  deriving DecidableEq, Repr

/-- An expression that stands as a statement. `compound` is an operator other than `=`. -/
inductive Act where
  | assign (left : Expr) (compound : Bool) (right : Expr)
  | eval (e : Expr)
  deriving DecidableEq, Repr

inductive Simple where
  | declare (d : Declaration)
  | act (a : Act)
  deriving DecidableEq, Repr

/-- Statements. The alternate of an `if` is a block, another `if`, or `empty`. -/
inductive Stmt where
  | empty
  | simple (s : Simple)
  | returnStatement (argument : Option Expr)
  | block (body : List Stmt)
  | ifStatement (test : Expr) (consequent : List Stmt) (alternate : Stmt)
  | whileStatement (test : Expr) (body : List Stmt)
  | forStatement (init : Option Simple) (test : Option Expr) (update : Option Act)
      (body : List Stmt)

abbrev Stmt.declare (x : String) (t : Ty) (init : Expr) : Stmt :=
  .simple (.declare ⟨x, t, some init⟩)

abbrev Stmt.assign (x : String) (right : Expr) : Stmt :=
  .simple (.act (.assign (.ident x) false right))

/-- A function. Two parameters of one name are reported before the body is visited. -/
structure Function where
  params : List (String × Ty)
  body : List Stmt
  distinct : (params.map (·.1)).Nodup

/-! ## 2. The state -/

/-- The errors, with what their texts name. -/
inductive Error where
  | undefined (name : String)
  | redefinition (name : String)
  | useAfterMove (name : String)
  | escapes (root : String)
  | borrowNonLValue
  | alreadyBorrow (root : Option String)
  | mutableWhileBorrowed (root : String)
  | viewWhileMutable (root : String)
  | assignNonLValue
  | assignWhileBorrowed (root : String)
  | assignUntyped
  | returnEscapes (root : Option String)
  deriving DecidableEq, Repr

/-- The text of an error. -/
def Error.message : Error → String
  | .undefined x => "Undefined identifier: " ++ x
  | .redefinition x => "Redefinition of variable \"" ++ x ++ "\" in the same scope."
  | .useAfterMove x => "Use after move: '" ++ x ++ "' has been moved and is no longer valid."
  | .escapes r => "Borrow of '" ++ r ++ "' escapes its scope; the referred-to value may be dead."
  | .borrowNonLValue => "Cannot borrow non-lvalue expression"
  | .alreadyBorrow r =>
    let what := match r with
      | none => "this expression"
      | some x => "'" ++ x ++ "'"
    what ++ " is already a borrow: borrowing it again would borrow a borrow. " ++
      "Borrow once at the owner and propagate -- pass " ++ what ++ " directly instead."
  | .mutableWhileBorrowed r =>
    "Cannot take mutable borrow of '" ++ r ++ "' while it is already borrowed."
  | .viewWhileMutable r =>
    "Cannot take view of '" ++ r ++ "' while it has an active mutable borrow."
  | .assignNonLValue => "LHS of assignment is not a valid L-value."
  | .assignWhileBorrowed r => "Cannot assign to '" ++ r ++ "' while it has an active borrow."
  | .assignUntyped => "Type error in assignment: could not determine type of LHS or RHS."
  | .returnEscapes r =>
    "Borrow of '" ++ r.getD "?" ++ "' escapes its scope: cannot return a borrow of a " ++
      "function-local; the value dies on return."

/-- The symbols (`currentScope`), the active borrows (`borrowScopes`, one entry for each borrow that
    was counted), `theirVarDepth_` with `theirVarRoot_`, and the top of `fnParamNamesStack_`. -/
structure Env where
  symbols : Scopes String Ty
  borrows : Scopes String BorrowKind
  theirVars : List (String × (Nat × String))
  params : List String

/-- The state of the analyzer; `moves` is `moveScopes`. -/
structure State where
  env : Env
  moves : Scopes String Bool
  errors : List Error

namespace Env

variable (env : Env)

def lookup (x : String) : Option Ty := env.symbols.find x

/-- The name is visible and its type is `my`. -/
def isMy (x : String) : Bool := (env.lookup x).any Ty.isMy

/-- The name is visible and its type is `their`. -/
def isTheir (x : String) : Bool := (env.lookup x).any Ty.isTheir

/-- The number of open scopes, as the borrow checks count it. -/
def depth : Nat := env.borrows.length

/-- The scope that recorded a borrow into the name is, by its depth, not open any more. -/
def expired (x : String) : Option String :=
  match env.theirVars.lookup x with
  | some (d, root) => if env.depth < d then some root else none
  | none => none

/-- Some open scope holds a borrow of the root, of a kind that `k` asks for. -/
def borrowed (k : BorrowKind → Bool) (root : String) : Bool :=
  env.borrows.any fun f => f.any fun b => b.1 == root && k b.2

/-- `hasActiveBorrow` -/
def hasActiveBorrow (root : String) : Bool := env.borrowed (fun _ => true) root

/-- The error of `recordBorrow`, if the borrow is refused. -/
def borrowConflict (root : String) : BorrowKind → Option Error
  | .mutableBorrow =>
    if env.hasActiveBorrow root then some (.mutableWhileBorrowed root) else none
  | .immutableView =>
    if env.borrowed (· == .mutableBorrow) root then some (.viewWhileMutable root) else none

/-- `recordBorrow` -/
def recordBorrow (root : String) (kind : BorrowKind) : Env :=
  match env.borrowConflict root kind with
  | some _ => env
  | none => { env with borrows := env.borrows.put root kind }

/-- `recordTheirBorrowInto` -/
def recordTheirBorrowInto (x root : String) : Env :=
  { env with theirVars := (x, (env.depth, root)) :: env.theirVars }

/-- The variable that giving the value of `src` to a destination of type `dest` moves from. -/
def moveSource (dest : Ty) : Expr → Option String
  | .ident y => if env.isMy y && dest.isMy then some y else none
  | _ => none

end Env

/-! ## 3. The visitors -/

/-- `visit(VariableDeclaration*)`: a borrow is recorded, and then the symbol. -/
def Env.declare (env : Env) (d : Declaration) : Env :=
  let env' := match d.init with
    | some (.borrow kind e) =>
      match e.borrowedRootName with
      | some root =>
        let recorded := env.recordBorrow root kind
        if d.ty.isTheir then recorded.recordTheirBorrowInto d.name root else recorded
      | none => env
    | _ => env
  { env' with symbols := env'.symbols.put d.name d.ty }

/-- `visit(AssignmentExpression*)`: a `their` variable that is given a borrow is bound anew. -/
def Env.assign (env : Env) (left right : Expr) : Env :=
  match left, right with
  | .ident x, .borrow _ e =>
    match e.borrowedRootName with
    | some root => if env.isTheir x then env.recordTheirBorrowInto x root else env
    | none => env
  | _, _ => env

namespace State

variable (s : State)

/-- `isMoved` -/
def isMoved (x : String) : Bool := (s.moves.find x).getD false

/-- `visit(Identifier*)`: an error or the type read; `lhs` is `inAssignmentLHS`. -/
def identifier (lhs : Bool) (x : String) : Except Error Ty :=
  match s.env.lookup x with
  | none => .error (.undefined x)
  | some t =>
    if t.isMy && s.isMoved x && !lhs then .error (.useAfterMove x)
    else match s.env.expired x with
      | some root => .error (.escapes root)
      | none => .ok t.read

/-- The expression visitors: the errors in order, and the type if there is one. -/
def expression (lhs : Bool) : Expr → List Error × Option Ty
  | .literal => ([], some ⟨.other, false⟩)
  | .ident x =>
    match s.identifier lhs x with
    | .ok t => ([], some t)
    | .error e => ([e], none)
  | .member o t => ((expression lhs o).1, (expression lhs o).2.map fun _ => t)
  | .element a i t =>
    ((expression lhs a).1 ++ (expression lhs i).1, (expression lhs a).2.map fun _ => t)
  | .binary l r =>
    ((expression lhs l).1 ++ (expression lhs r).1,
      if (expression lhs l).2.isSome && (expression lhs r).2.isSome then some ⟨.other, false⟩
      else none)
  | .borrow _ e =>
    if e.isLValue then
      match (expression lhs e).2 with
      | none => ((expression lhs e).1, none)
      | some t =>
        if t.isTheir then ((expression lhs e).1 ++ [.alreadyBorrow e.borrowedRootName], none)
        else ((expression lhs e).1, some ⟨.their, false⟩)
    else ((expression lhs e).1 ++ [.borrowNonLValue], none)

/-- The errors of an expression that may be missing. -/
def expressionErrors : Option Expr → List Error
  | none => []
  | some e => (s.expression false e).1

/-- `visit(VariableDeclaration*)` -/
def declare (d : Declaration) : State where
  env := s.env.declare d
  moves :=
    match d.init.bind (s.env.moveSource d.ty) with
    | some y => s.moves.put y true
    | none => s.moves
  errors := s.errors ++
    (if ((s.env.symbols.headD []).lookup d.name).isSome then [.redefinition d.name] else []) ++
    s.expressionErrors d.init ++
    (match d.init with
      | some (.borrow kind e) =>
        (e.borrowedRootName.bind fun root => s.env.borrowConflict root kind).toList
      | _ => [])

/-- The check that ends `visit(AssignmentExpression*)` early, if one does. -/
def assignStops (left right : Expr) : Option Error :=
  if left.isLValue = false then some .assignNonLValue
  else match left.borrowedRootName.filter s.env.hasActiveBorrow with
    | some root => some (.assignWhileBorrowed root)
    | none =>
      if (s.expression true left).2.isSome && (s.expression false right).2.isSome then none
      else some .assignUntyped

/-- The marks after an assignment that no check ends: a variable written is revived, and a variable
    moved from is marked. -/
def assignMoves (left right : Expr) : Scopes String Bool :=
  match left with
  | .ident x =>
    let revived := if s.env.isMy x then s.moves.put x false else s.moves
    match (s.env.lookup x).bind fun t => s.env.moveSource t right with
    | some y => revived.put y true
    | none => revived
  | _ => s.moves

/-- `visit(AssignmentExpression*)`; the operator makes no difference. -/
def assign (left right : Expr) : State where
  env := s.env.assign left right
  moves := if (s.assignStops left right).isNone then s.assignMoves left right else s.moves
  errors := s.errors ++ (s.expression true left).1 ++ (s.expression false right).1 ++
    (s.assignStops left right).toList

/-- The root that a returned expression borrows, if it is known to be a borrow. -/
def returnedRoot : Expr → Option (Option String)
  | .borrow _ e => some e.borrowedRootName
  | .ident y => (s.env.theirVars.lookup y).map fun r => some r.2
  | _ => none

/-- `visit(ReturnStatement*)` -/
def ret (argument : Option Expr) : State :=
  { s with
    errors := s.errors ++ s.expressionErrors argument ++
      (match argument.bind s.returnedRoot with
        | some root => if root.any (· ∈ s.env.params) then [] else [.returnEscapes root]
        | none => []) }

def act : Act → State
  | .assign left _ right => s.assign left right
  | .eval e => { s with errors := s.errors ++ (s.expression false e).1 }

def simple : Simple → State
  | .declare d => s.declare d
  | .act a => s.act a

/-- `enterScope` -/
def enterScope : State where
  env := { s.env with symbols := [] :: s.env.symbols, borrows := [] :: s.env.borrows }
  moves := [] :: s.moves
  errors := s.errors

/-- `exitScope` -/
def exitScope : State where
  env := { s.env with symbols := s.env.symbols.tail, borrows := s.env.borrows.tail }
  moves := s.moves.tail
  errors := s.errors

mutual

/-- The statement visitors. -/
def visit (s : State) : Stmt → State
  | .empty => s
  | .simple a => s.simple a
  | .returnStatement e => s.ret e
  | .block b => (visitAll s.enterScope b).exitScope
  | .ifStatement c y n =>
    visit (visitAll (s.act (.eval c)).enterScope y).exitScope n
  | .whileStatement c b =>
    (visitAll (s.enterScope.act (.eval c)).enterScope b).exitScope.exitScope
  | .forStatement i c u b =>
    let s := s.enterScope
    let s := i.elim s s.simple
    let s := c.elim s fun e => s.act (.eval e)
    let s := u.elim s s.act
    (visitAll s.enterScope b).exitScope.exitScope

def visitAll (s : State) : List Stmt → State
  | [] => s
  | a :: as => visitAll (visit s a) as

end

end State

open State

/-- A scope that is open around a function, on each of the three stacks. -/
structure Layer where
  symbols : List (String × Ty)
  borrows : List (String × BorrowKind)
  moves : List (String × Bool)

/-- The state in which `visit(FunctionDeclaration*)` visits the body: the scope of the parameters is
    open. The table of `their` variables is what the functions before have left. -/
def State.start (outer : List Layer) (theirVars : List (String × (Nat × String))) (F : Function) :
    State where
  env :=
    { symbols := F.params.reverse :: outer.map (·.symbols)
      borrows := [] :: outer.map (·.borrows)
      theirVars := theirVars
      params := F.params.map (·.1) }
  moves := [] :: outer.map (·.moves)
  errors := []

/-- The errors of a body. -/
def analyze (outer : List Layer) (theirVars : List (String × (Nat × String))) (F : Function) :
    List Error :=
  ((State.start outer theirVars F).visit (.block F.body)).errors

/-! ## 4. The pass along the text -/

/-- What a body does between the ends of scopes. -/
inductive Event where
  | simple (s : Simple)
  | ret (argument : Option Expr)
  deriving DecidableEq, Repr

abbrev Event.eval (e : Expr) : Event := .simple (.act (.eval e))

abbrev Event.assign (left : Expr) (compound : Bool) (right : Expr) : Event :=
  .simple (.act (.assign left compound right))

abbrev Event.declare (d : Declaration) : Event := .simple (.declare d)

mutual

/-- A statement as a program over events. -/
def Stmt.prog : Stmt → Prog Event
  | .empty => .run []
  | .simple a => .run [.simple a]
  | .returnStatement e => .stop [.ret e]
  | .block b => .scope (progs b)
  | .ifStatement c y n => .branch [.eval c] (progs y) n.prog
  | .whileStatement c b => .loop [] [.eval c] [] (progs b)
  | .forStatement i c u b =>
    .loop (i.toList.map .simple) (c.toList.map .eval) (u.toList.map fun a => .simple (.act a))
      (progs b)

def progs : List Stmt → List (Prog Event)
  | [] => []
  | a :: as => a.prog :: progs as

end

/-- The body of a function; the scope of its parameters is open around it. -/
def Function.prog (F : Function) : Prog Event := (Stmt.block F.body).prog

def Env.step (env : Env) : Ev Event → Env
  | .enter => { env with symbols := [] :: env.symbols, borrows := [] :: env.borrows }
  | .exit => { env with symbols := env.symbols.tail, borrows := env.borrows.tail }
  | .on (.simple (.declare d)) => env.declare d
  | .on (.simple (.act (.assign left _ right))) => env.assign left right
  | .on (.simple (.act (.eval _))) => env
  | .on (.ret _) => env

def State.step (s : State) : Ev Event → State
  | .enter => s.enterScope
  | .exit => s.exitScope
  | .on (.simple a) => s.simple a
  | .on (.ret e) => s.ret e

/-- Neither the marks nor the errors have an influence on the rest of the state. -/
theorem State.step_env (s : State) (e : Ev Event) : (s.step e).env = s.env.step e := by
  match e with
  | .enter | .exit | .on (.simple (.declare _)) | .on (.simple (.act (.assign _ _ _)))
  | .on (.simple (.act (.eval _))) | .on (.ret _) => rfl

mutual

/-- **The visitors are the machine that runs along the text.** -/
theorem visit_eq_text : ∀ (a : Stmt) (s : State), s.visit a = (text a.prog).foldl State.step s
  | .empty, s | .simple _, s | .returnStatement _, s => rfl
  | .block b, s => by
    simp only [State.visit, Stmt.prog, text, wrapped, foldl_cons, foldl_append,
      foldl_nil, visitAll_eq_text b]
    rfl
  | .ifStatement c y n, s => by
    simp only [State.visit, Stmt.prog, text, plain, wrapped, map_cons, map_nil,
      foldl_cons, foldl_append, foldl_nil, visitAll_eq_text y, visit_eq_text n]
    rfl
  | .whileStatement c b, s => by
    simp only [State.visit, Stmt.prog, text, plain, wrapped, map_cons, map_nil,
      foldl_cons, foldl_append, foldl_nil, visitAll_eq_text b]
    rfl
  | .forStatement i c u b, s => by
    simp only [State.visit, Stmt.prog, text, plain, wrapped, foldl_cons, foldl_append,
      foldl_nil, visitAll_eq_text b]
    cases i <;> cases c <;> cases u <;> rfl

theorem visitAll_eq_text : ∀ (as : List Stmt) (s : State),
    s.visitAll as = (textAll (progs as)).foldl State.step s
  | [], s => rfl
  | a :: as, s => by
    simp only [State.visitAll, progs, textAll, foldl_append, visit_eq_text a,
      visitAll_eq_text as]

end

theorem analyze_eq_text (outer : List Layer) (theirVars : List (String × (Nat × String))) (F : Function) :
    analyze outer theirVars F =
      ((text F.prog).foldl State.step (State.start outer theirVars F)).errors := by
  rw [analyze, visit_eq_text]
  rfl

variable {x : String}

theorem Env.isMy_iff {env : Env} : env.isMy x = true ↔ ∃ t, env.lookup x = some t ∧ t.isMy = true := by
  unfold isMy
  cases env.lookup x <;> simp

theorem Env.isTheir_iff {env : Env} :
    env.isTheir x = true ↔ ∃ t, env.lookup x = some t ∧ t.isTheir = true := by
  unfold isTheir
  cases env.lookup x <;> simp

@[simp] theorem Env.declare_symbols (env : Env) (d : Declaration) :
    (env.declare d).symbols = env.symbols.put d.name d.ty := by
  unfold Env.declare
  split
  · split
    · dsimp only [recordBorrow]
      split <;> split <;> rfl
    · rfl
  · rfl

@[simp] theorem Env.assign_symbols (env : Env) (left right : Expr) :
    (env.assign left right).symbols = env.symbols := by
  unfold Env.assign
  split
  · split
    · split <;> rfl
    · rfl
  · rfl

/-- A scope of the text leaves the symbols as they were. -/
theorem framed_symbols : Framed Env.step Env.symbols (fun f g => f = g) where
  refl _ := rfl
  trans _ _ _ := Eq.trans
  enter _ := ⟨[], rfl⟩
  exit env f fs h := by
    have htail : (env.step .exit).symbols = fs := congrArg tail h
    rw [htail]
    exact forall₂_same.mpr fun _ _ => rfl
  on env v f fs h := by
    have hsame : Forall₂ (fun f g : List (String × Ty) => f = g) fs fs := forall₂_same.mpr fun _ _ => rfl
    match v with
    | .simple (.declare d) =>
      refine ⟨(d.name, d.ty) :: f, fs, ?_, hsame⟩
      change (env.declare d).symbols = _
      rw [Env.declare_symbols, h]
      rfl
    | .simple (.act (.assign left c right)) =>
      exact ⟨f, fs, (Env.assign_symbols _ left right).trans h, hsame⟩
    | .simple (.act (.eval _)) | .ret _ => exact ⟨f, fs, h, hsame⟩

/-! ## 5. What the visitors report -/

theorem State.errors_step (s : State) (e : Ev Event) : s.errors ⊆ (s.step e).errors := by
  intro err h
  match e with
  | .enter | .exit => exact h
  | .on (.simple (.declare d)) =>
    simp only [step, simple, declare, mem_append]
    exact .inl (Or.inl (Or.inl h))
  | .on (.simple (.act (.assign l c r))) =>
    simp only [step, simple, act, assign, mem_append]
    exact .inl (Or.inl (Or.inl h))
  | .on (.simple (.act (.eval e))) =>
    simp only [step, simple, act, mem_append]
    exact .inl h
  | .on (.ret e) =>
    simp only [step, ret, mem_append]
    exact .inl (Or.inl h)

variable {s : State}

/-- A visible name that is not moved out of, by the marks, nor expired has a type. -/
theorem State.identifier_ok {lhs : Bool} {t : Ty} (ht : s.env.lookup x = some t)
    (hm : lhs = true ∨ s.isMoved x = false) (hx : s.env.expired x = none) :
    s.identifier lhs x = .ok t.read := by
  have hcond : (t.isMy && s.isMoved x && !lhs) = false := by
    rcases hm with rfl | hm
    · simp
    · simp [hm]
  simp [identifier, ht, hcond, hx]

variable {err : Error}

/-- Every identifier of an expression is visited. -/
theorem State.mem_expression {lhs : Bool} (hx : s.identifier lhs x = .error err) :
    ∀ {e : Expr}, x ∈ e.reads →
      err ∈ (s.expression lhs e).1
  | .literal, h => by simp [Expr.reads] at h
  | .ident y, h => by
    have : x = y := by simpa [Expr.reads] using h
    subst this
    simp [expression, hx]
  | .member o t, h => by
    simp only [expression]
    exact mem_expression hx h
  | .element a i t, h | .binary l r, h => by
    simp only [expression, mem_append]
    exact (mem_append.mp h).imp (mem_expression hx) (mem_expression hx)
  | .borrow k e, h => by
    have ih := mem_expression (e := e) hx h
    unfold expression
    split
    · split
      · exact ih
      · split
        · exact mem_append_left _ ih
        · exact ih
    · exact mem_append_left _ ih

/-- The expression an event reads as a value: what is assigned to is not among it. -/
def Event.value : Event → Option Expr
  | .simple (.declare d) => d.init
  | .simple (.act (.assign _ _ right)) => some right
  | .simple (.act (.eval e)) => some e
  | .ret e => e

/-- What an event reads as a value. -/
def Event.valueReads (v : Event) : List String := v.value.elim [] Expr.reads

theorem State.mem_expressionErrors {e : Option Expr} (hx : x ∈ e.elim [] Expr.reads)
    (herr : s.identifier false x = .error err) : err ∈ s.expressionErrors e := by
  cases e with
  | none => cases hx
  | some e => exact mem_expression herr hx

/-- An identifier that is refused in the value of an event is reported there. -/
theorem State.mem_errors_of_value {v : Event} (hx : x ∈ v.valueReads)
    (herr : s.identifier false x = .error err) : err ∈ (s.step (.on v)).errors := by
  match v with
  | .simple (.declare d) =>
    simp only [step, simple, declare, mem_append]
    exact .inl (.inr (mem_expressionErrors hx herr))
  | .simple (.act (.assign l c r)) =>
    simp only [step, simple, act, assign, mem_append]
    exact .inl (.inr (mem_expression herr hx))
  | .simple (.act (.eval e)) =>
    simp only [step, simple, act, mem_append]
    exact .inr (mem_expression herr hx)
  | .ret e =>
    simp only [step, ret, mem_append]
    exact .inl (.inr (mem_expressionErrors hx herr))

/-- An identifier that is refused on the left of an assignment is reported there. -/
theorem State.mem_errors_of_target {left right : Expr} {c : Bool} (hx : x ∈ left.reads)
    (herr : s.identifier true x = .error err) : err ∈ (s.step (.on (.assign left c right))).errors := by
  simp only [step, simple, act, assign, mem_append]
  exact .inl (Or.inl (.inr (mem_expression herr hx)))

end Vyb.Semantic.Ownership
