/-
  Subject:   The nodes of a module's syntax tree and the passes of the module registry over them.

  `FreeIdentifierCollector`, `mangleBareStmt` and `rewriteNamespaceRawStmt` all go down the tree class
  by class and differ in the children they go to. So a node has its class and its children, each under
  the name of the field that holds it, and a pass is a table of the fields it follows.

  * `Node.collect` -- the identifiers below a node; it leaves out the names that a node declares;
  * `Node.rewrite` -- replaces what `fold` recognizes and else goes on to the children of the table;
  * `mangleBare`, `rewriteNamespace` -- the two passes, as instances of it;
  * `mangleBare_nil` -- renaming nothing changes nothing.
-/
import Mathlib.Tactic

namespace Vyb.Modules

abbrev Name := List Char

/-! ## 1. Nodes -/

/-- The classes of `ast.hpp`, without identifiers and without the leaves: a literal, `this`, `super`,
    `break`, `continue` and the empty statement are `leaf`. -/
inductive NodeClass where
  | leaf
  | objectLiteral | arrayLiteral
  | unaryExpression | binaryExpression | logicalExpression | conditionalExpression
  | callExpression | memberExpression (computed : Bool) | assignmentExpression
  | borrowExpression | pointerDerefExpression | addrOfExpression | fromIntToLocExpression
  | arrayElementExpression | locationExpression | listComprehension | ifExpression
  | constructionExpression | arrayInitializationExpression | genericInstantiationExpression
  | sequenceExpression | functionExpression | awaitExpression | rangeExpression
  | blockExpression | selectExpression | matchExpression
  | comparisonPattern | structPattern | setPattern
  | typeofExpression | typenameExpression | asExpression
  | blockStatement | expressionStatement | ifStatement | forStatement | whileStatement
  | returnStatement | passStatement | tryStatement | freedomStatement | externStatement
  | throwStatement | matchStatement | yieldStatement | yieldReturnStatement | assertStatement
  | failStatement | trapClause | ensureClause | refailStatement | panicStatement | exitStatement
  | deferStatement | tupleDestructureAssignment
  | variableDeclaration | functionDeclaration | typeAliasDeclaration | structDeclaration
  | classDeclaration | fieldDeclaration | bindDeclaration | enumDeclaration | enumVariant
  | genericParameter | templateDeclaration | aspectDeclaration | namespaceDeclaration
  | typeName | pointerType | arrayType | vecType | futureType | functionType | optionalType | tupleType
  deriving DecidableEq

/-- The fields that hold children. A list of children has the field once for each of them; the two
    sides of a case are `first` and `second`. -/
inductive Slot where
  /-- a name that the node declares: its own, or that of a parameter, an error or an associated type -/
  | id
  | typePath | key | value
  | operand | left | right | condition | thenBranch | elseBranch | thenExpr | elseExpr
  | callee | arguments | explicitTypeArgs | object | property | elements | expression | expressions
  | pointer | location | addressExpression | targetType | array | index
  | elementExpr | loopVariable | iterableExpr | conditionExpr
  | constructedType | elementType | sizeExpression | baseExpression | genericArguments
  | paramType | body | expr | start | «end» | step
  | block | trapClauses | ensureClause | first | second | guards | typeName | bindings | typeArg
  | test | consequent | alternate | init | update | argument
  | tryBlock | catchBlock | finallyBlock | returnType
  | message | error | errorType | errorTypes | handler | cleanupBlock | wrappedError | code
  | statement | identifiers | match
  | typeNode | genericParams | fields | constructors | members | initializer
  | traitType | selfType | associatedTypes | methods | variants | bounds | superTypes
  | identifier | genericArgs | pointeeType | resultType | parameterTypes | containedType | memberTypes
  deriving DecidableEq

inductive Node where
  | identifier (name : Name)
  | node (cls : NodeClass) (children : List (Slot × Node))

/-! ## 2. The collector -/

mutual

/-- `FreeIdentifierCollector`: every identifier below the node, bound ones too. -/
def Node.collect : Node → List Name
  | .identifier n => [n]
  | .node _ cs => collectAll cs

def collectAll : List (Slot × Node) → List Name
  | [] => []
  | (s, t) :: cs => (if s = .id then [] else t.collect) ++ collectAll cs

end

/-! ## 3. Rewriting -/

/-- The initializer of a variable is looked at, and not gone into (`foldBareInit`,
    `foldVariableInit`). -/
def foldOnly : NodeClass → Slot → Bool
  | .variableDeclaration, .init => true
  | _, _ => false

section Rewrite

variable (visits : NodeClass → Slot → Node → Bool) (fold : Node → Option Node)

mutual

/-- A node that `fold` recognizes is replaced as a whole; else its visited children are rewritten. -/
def Node.rewrite : Node → Node
  | .identifier n => (fold (.identifier n)).getD (.identifier n)
  | .node c cs => (fold (.node c cs)).getD (.node c (rewriteAll c cs))

def rewriteAll (c : NodeClass) : List (Slot × Node) → List (Slot × Node)
  | [] => []
  | (s, t) :: cs =>
    (s, if foldOnly c s then (fold t).getD t else if visits c s t then t.rewrite else t) ::
      rewriteAll c cs

end

variable {visits fold}

mutual

/-- Where `fold` recognizes nothing, the tree stays. -/
theorem Node.rewrite_of_fold_none (h : ∀ t, fold t = none) : ∀ t : Node, t.rewrite visits fold = t
  | .identifier n => by rw [Node.rewrite, h, Option.getD_none]
  | .node c cs => by rw [Node.rewrite, h, Option.getD_none, rewriteAll_of_fold_none h c cs]

theorem rewriteAll_of_fold_none (h : ∀ t, fold t = none) (c : NodeClass) :
    ∀ cs : List (Slot × Node), rewriteAll visits fold c cs = cs
  | [] => rfl
  | (s, t) :: cs => by
    rw [rewriteAll, rewriteAll_of_fold_none h c cs, h, Option.getD_none,
      Node.rewrite_of_fold_none h t, ite_self, ite_self]

end

end Rewrite

/-- The children that both passes go to. -/
def commonSlots : NodeClass → List Slot
  | .callExpression => [.callee, .arguments]
  | .memberExpression _ => [.object, .property]
  | .assignmentExpression => [.left, .right]
  | .objectLiteral => [.value]
  | .unaryExpression => [.operand]
  | .binaryExpression => [.left, .right]
  | .logicalExpression => [.left, .right]
  | .conditionalExpression => [.condition, .thenExpr, .elseExpr]
  | .sequenceExpression => [.expressions]
  | .arrayLiteral => [.elements]
  | .borrowExpression => [.expression]
  | .pointerDerefExpression => [.pointer]
  | .addrOfExpression => [.location]
  | .arrayElementExpression => [.array, .index]
  | .locationExpression => [.expression]
  | .listComprehension => [.elementExpr, .iterableExpr, .conditionExpr]
  | .ifExpression => [.condition, .thenBranch, .elseBranch]
  | .constructionExpression => [.arguments]
  | .arrayInitializationExpression => [.sizeExpression]
  | .genericInstantiationExpression => [.baseExpression]
  | .functionExpression => [.body]
  | .awaitExpression => [.expr]
  | .rangeExpression => [.start, .end, .step]
  | .blockExpression => [.block]
  | .selectExpression => [.expr, .first, .second]
  | .comparisonPattern => [.value]
  | .typeofExpression => [.operand]
  | .typenameExpression => [.operand]
  | .asExpression => [.operand]
  | .matchExpression => [.match]
  | .blockStatement => [.body]
  | .expressionStatement => [.expression]
  | .ifStatement => [.test, .consequent, .alternate]
  | .whileStatement => [.test, .body]
  | .forStatement => [.test, .update, .body]
  | .returnStatement => [.argument]
  | .passStatement => [.argument]
  | .tryStatement => [.tryBlock, .catchBlock, .finallyBlock]
  | .freedomStatement => [.block]
  | .throwStatement => [.expr]
  | .matchStatement => [.expr, .first, .second, .guards]
  | .yieldStatement => [.expression]
  | .yieldReturnStatement => [.expression]
  | .assertStatement => [.condition, .message]
  | .failStatement => [.error]
  | .refailStatement => [.wrappedError]
  | .panicStatement => [.message]
  | .exitStatement => [.code]
  | .deferStatement => [.statement]
  | .tupleDestructureAssignment => [.expression]
  | .functionDeclaration => [.body]
  | .structDeclaration => [.constructors]
  | .aspectDeclaration => [.methods]
  | .bindDeclaration => [.methods]
  | _ => []

def Node.hasClass (t : Node) (cs : List NodeClass) : Bool :=
  match t with
  | .identifier _ => false
  | .node c _ => c ∈ cs

/-- The children that `mangleBareExpr` and `mangleBareRawStmt` go to. -/
def bareVisits (c : NodeClass) (s : Slot) (t : Node) : Bool :=
  match c, s with
  | .forStatement, .init => t.hasClass [.expressionStatement, .variableDeclaration]
  | .classDeclaration, .members => t.hasClass [.functionDeclaration]
  | _, _ => s ∈ commonSlots c

/-- `foldIdentifierMember` -/
def foldIdentifier (symbolToMangled : List (Name × Name)) : Node → Option Node
  | .identifier n => (symbolToMangled.lookup n).map .identifier
  | .node _ _ => none

/-- `mangleBareStmt`: bare identifiers get the names of the map. -/
def mangleBare (symbolToMangled : List (Name × Name)) : Node → Node :=
  Node.rewrite bareVisits (foldIdentifier symbolToMangled)

theorem mangleBare_nil (t : Node) : mangleBare [] t = t := by
  refine t.rewrite_of_fold_none fun u => ?_
  cases u <;> rfl

/-- Namespace identifiers, and the names of their symbols. -/
abbrev NamespaceMap := List (Name × List (Name × Name))

/-- The children that `rewriteNamespaceExpr` and `rewriteNamespaceRawStmt` go to. -/
def namespaceVisits (c : NodeClass) (s : Slot) (t : Node) : Bool :=
  match c, s with
  | .forStatement, .init => t.hasClass [.expressionStatement, .variableDeclaration]
  | .classDeclaration, .members => t.hasClass [.functionDeclaration, .fieldDeclaration]
  | .structDeclaration, .fields => true
  | .fieldDeclaration, .initializer => true
  | .blockExpression, .trapClauses => true
  | .blockExpression, .ensureClause => true
  | .trapClause, .handler => true
  | .ensureClause, .cleanupBlock => true
  | .setPattern, .elements => true
  | _, _ => s ∈ commonSlots c

/-- `foldNamespaceMember`: `NS.sym` for a symbol of a bound namespace. -/
def foldNamespaceMember (localNamespaces : NamespaceMap) : Node → Option Node
  | .node (.memberExpression false) [(.object, .identifier ns), (.property, .identifier sym)] =>
    ((localNamespaces.lookup ns).bind (·.lookup sym)).map .identifier
  | _ => none

/-- `rewriteNamespaceRawStmt` -/
def rewriteNamespace (localNamespaces : NamespaceMap) : Node → Node :=
  Node.rewrite namespaceVisits (foldNamespaceMember localNamespaces)

end Vyb.Modules
