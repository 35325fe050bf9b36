/-
  Subject:   Statement and expression nodes (`ast::Node`), as the passes over function bodies see
             them.

  The passes take an `ast::Node*` and ask for its class, so there is one type of nodes, and a null
  pointer is a node of its own (`absent`). Types, literal values, operators, field names and source
  locations are left out; so are list comprehensions, which no later stage compiles.

  `Node.pass_induction` is the induction for passes over nodes and lists of nodes.
-/
import Mathlib.Tactic

namespace Vyb.Syntax

open List

/-- Nodes of a function body. -/
inductive Node where
  /-- a null pointer -/
  | absent
  | literal
  | identifier (name : String)
  | binary (left right : Node)
  /-- the expression and statement classes whose visitors only visit their children, in order:
      unary, logical, conditional, subscript, range, array and object literal, construction, cast,
      borrow, await, assert, panic, exit, yield, pass, defer, refail, freedom -/
  | operator (operands : List Node)
  | call (callee : Node) (arguments : List Node)
  | member (object : Node)
  | assignment (left right : Node)
  /-- `FunctionExpression`, a lambda -/
  | function (params : List String) (body : Node)
  | blockExpression (block : Node) (trapClauses : List Node) (ensureClause : Node)
  | trapClause (errorName : String) (handler : Node)
  | block (body : List Node)
  | expressionStatement (expression : Node)
  | variableDeclaration (id : String) (init : Node)
  | tupleDestructure (identifiers : List String) (expression : Node)
  | returnStatement (argument : Node)
  | ifStatement (test consequent alternate : Node)
  | whileStatement (test body : Node)
  | forStatement (init test update body : Node)
  | tryStatement (tryBlock catchBlock finallyBlock : Node)
  | matchStatement (expr : Node) (cases : List Node)
  /-- `MatchExpression` and `SelectExpression` -/
  | matchExpression (expr : Node) (cases : List Node)
  /-- one arm: the names its pattern binds, or the value its pattern compares with -/
  | matchCase (bindings : List String) (pattern guard body : Node)
  | failStatement (error : Node)

/-- The nodes that a node holds one by one. -/
def Node.nodes : Node → List Node
  | .absent | .literal | .identifier _ | .operator _ | .block _ => []
  | .binary a b | .assignment a b | .whileStatement a b | .blockExpression a _ b => [a, b]
  | .call e _ | .matchStatement e _ | .matchExpression e _ | .member e | .function _ e | .trapClause _ e
  | .expressionStatement e | .variableDeclaration _ e | .tupleDestructure _ e | .returnStatement e
  | .failStatement e => [e]
  | .ifStatement a b c | .tryStatement a b c | .matchCase _ a b c => [a, b, c]
  | .forStatement a b c d => [a, b, c, d]

/-- The nodes that a node holds as a list. -/
def Node.list : Node → List Node
  | .operator es | .block es | .call _ es | .matchStatement _ es | .matchExpression _ es
  | .blockExpression _ es _ => es
  | _ => []

theorem Node.sizeOf_below {n m : Node} (h : m ∈ n.nodes ∨ m ∈ n.list) : sizeOf m < sizeOf n := by
  have hlist : ∀ es : List Node, m ∈ es → sizeOf m < sizeOf es := fun es => sizeOf_lt_of_mem
  cases n <;> simp only [nodes, list, mem_cons, not_mem_nil, or_false, false_or] at h <;> grind

/-- **The induction for all passes**: `P` passes from the nodes and the list below a node to the node, and `Q` along
    a list. -/
theorem Node.pass_induction {P : Node → Prop} {Q : List Node → Prop} (nil : Q [])
    (cons : ∀ n ns, P n → Q ns → Q (n :: ns)) (step : ∀ n, (∀ m ∈ n.nodes, P m) → Q n.list → P n) :
    (∀ n, P n) ∧ ∀ ns, Q ns := by
  have hlist : ∀ ns : List Node, (∀ m ∈ ns, P m) → Q ns := by
    intro ns h
    induction ns with
    | nil => exact nil
    | cons n ns ih => exact cons n ns (h n mem_cons_self) (ih fun m hm => h m (mem_cons_of_mem n hm))
  have hnode : ∀ n, P n := by
    intro n
    induction n using (measure fun n : Node => sizeOf n).wf.induction with
    | _ n ih =>
      exact step n (fun m hm => ih m (sizeOf_below (.inl hm))) (hlist _ fun m hm => ih m (sizeOf_below (.inr hm)))
  exact ⟨hnode, fun ns => hlist ns fun m _ => hnode m⟩

end Vyb.Syntax
