/-
  Subject:   Failable functions: the scan for `fail`, the propagation to callers and the check of
             calls (`SemanticAnalyzer::visit(Module*)`, `checkCallsFailableFunction`,
             `validateCalls`).

  A function is marked failable if its body holds a `fail` statement, or, in at most 100 rounds over
  the module, if it calls a marked function; `main` is never marked that way. Then every call of a
  marked function that is not inside a block with a trap clause has to be in a marked function. The
  three passes walk a body in three different ways, and none of them reaches every expression.

  * `sites` -- every call and `fail` of a body, with what each pass makes of its position;
  * `checkCalls_eq`, `validateCalls_eq` -- the passes, read off the sites;
  * `mem_failable` -- the marks, without the loop;
  * **`no_escape_iff`** -- no failure escapes unmarked from an accepted module iff none escapes at a
    position the check does not walk, and none comes from a `fail` the scan does not find;
  * **`failable_least_iff`** -- when the marks are the least set closed under untrapped calls.

  Methods of binds are not in the function registry, so calls of them are no sites. What a lambda
  calls is called by the lambda, not by the function it stands in.
-/
import Vyb.Lib.Rounds
import Vyb.Syntax.Ast

namespace Vyb.Semantic.Failability

open Lib Syntax List Node

/-! ## 1. The passes -/

structure FunctionDeclaration where
  name : String
  body : Node

/-- The functions of a module. Two of one name are reported before these passes run. -/
structure Module where
  functions : List FunctionDeclaration
  distinct : (functions.map (·.name)).Nodup

mutual

/-- `containsFailStatement` -/
def containsFailStatement : Node → Bool
  | .failStatement _ => true
  | .block ss => containsFailStatements ss
  | .ifStatement _ t e => containsFailStatement t || containsFailStatement e
  | .whileStatement _ b => containsFailStatement b
  | .forStatement _ _ _ b => containsFailStatement b
  | .tryStatement t c f =>
    containsFailStatement t || containsFailStatement c || containsFailStatement f
  | .matchStatement _ cs => containsFailStatements cs
  | .matchCase _ _ _ b => containsFailStatement b
  | .blockExpression b ts _ => containsFailStatement b || containsFailStatements ts
  | .trapClause _ h => containsFailStatement h
  | .expressionStatement e => containsFailStatement e
  | .returnStatement e => containsFailStatement e
  | _ => false

def containsFailStatements : List Node → Bool
  | [] => false
  | n :: ns => containsFailStatement n || containsFailStatements ns

end

/-- The name a call gives its callee by. -/
def calleeName : Node → Option String
  | .identifier x => some x
  | _ => none

mutual

/-- `checkCallsFailableFunction`; the arguments of a call are not looked at. -/
def checkCalls (marks : Finset String) : Node → Bool
  | .call f _ => (calleeName f).any (· ∈ marks)
  | .block ss => checkCallsIn marks ss
  | .ifStatement _ t e => checkCalls marks t || checkCalls marks e
  | .whileStatement _ b => checkCalls marks b
  | .forStatement _ _ _ b => checkCalls marks b
  | .blockExpression b _ _ => checkCalls marks b
  | .expressionStatement e => checkCalls marks e
  | .variableDeclaration _ i => checkCalls marks i
  | .returnStatement e => checkCalls marks e
  | .binary l r => checkCalls marks l || checkCalls marks r
  | _ => false

def checkCallsIn (marks : Finset String) : List Node → Bool
  | [] => false
  | n :: ns => checkCalls marks n || checkCallsIn marks ns

end

/-- The error for an untrapped call. -/
def callError (owner callee : String) : String :=
  "Call to failable function '" ++ callee ++ "' from non-failable function '" ++ owner ++
    "' requires a trap block or marking the caller as failable."

mutual

/-- `validateCalls`: the errors, in order. -/
def validateCalls (marks : Finset String) (owner : String) (trapProtected : Bool) :
    Node → List String
  | .call f args =>
    (match calleeName f with
      | some x =>
        if trapProtected = false ∧ owner ∉ marks ∧ x ∈ marks then [callError owner x] else []
      | none => []) ++
      validateCallsIn marks owner trapProtected args ++ validateCalls marks owner trapProtected f
  | .block ss => validateCallsIn marks owner trapProtected ss
  | .expressionStatement e => validateCalls marks owner trapProtected e
  | .variableDeclaration _ i => validateCalls marks owner trapProtected i
  | .returnStatement e => validateCalls marks owner trapProtected e
  | .ifStatement c t e =>
    validateCalls marks owner trapProtected c ++ validateCalls marks owner trapProtected t ++
      validateCalls marks owner trapProtected e
  | .whileStatement c b =>
    validateCalls marks owner trapProtected c ++ validateCalls marks owner trapProtected b
  | .forStatement i c u b =>
    validateCalls marks owner trapProtected i ++ validateCalls marks owner trapProtected c ++
      validateCalls marks owner trapProtected u ++ validateCalls marks owner trapProtected b
  | .blockExpression b ts e =>
    validateCalls marks owner (trapProtected || !ts.isEmpty) b ++
      validateCallsIn marks owner trapProtected ts ++ validateCalls marks owner trapProtected e
  | .trapClause _ h => validateCalls marks owner trapProtected h
  | _ => []

def validateCallsIn (marks : Finset String) (owner : String) (trapProtected : Bool) :
    List Node → List String
  | [] => []
  | n :: ns =>
    validateCalls marks owner trapProtected n ++ validateCallsIn marks owner trapProtected ns

end

namespace Module

variable (M : Module)

/-- Marked by the scan. -/
def direct : Finset String :=
  ((M.functions.filter fun f => containsFailStatement f.body).map (·.name)).toFinset

/-- A round marks a function other than `main` that calls a marked one. -/
def callsMarked (marks : Finset String) (f : FunctionDeclaration) : Bool :=
  f.name != "main" && checkCalls marks f.body

/-- The functions marked failable after the propagation. -/
def failable : Finset String := markLoop (·.name) callsMarked M.functions 100 M.direct

/-- What the last pass reports. -/
def errors : List String :=
  M.functions.flatMap fun f => validateCalls M.failable f.name false f.body

end Module

/-! ## 2. Calls and fail statements, with their positions -/

/-- A call by name, or a `fail` statement, in a body. -/
structure Site where
  /-- the function called; none for a `fail` -/
  target : Option String
  /-- inside a block that has a trap clause -/
  trapped : Bool
  /-- where `validateCalls` comes -/
  validated : Bool
  /-- where `checkCalls` comes -/
  propagated : Bool
  deriving DecidableEq

mutual

/-- The sites of a node that stands at a position with the given flags; a position that a pass does
    not walk switches its flag off. -/
def sites (t v p : Bool) : Node → List Site
  | .absent => []
  | .literal => []
  | .identifier _ => []
  | .binary l r => sites t false p l ++ sites t false p r
  | .operator es => sitesIn t false false es
  | .call f args =>
    (match calleeName f with
      | some x => [⟨some x, t, v, p⟩]
      | none => []) ++ sitesIn t v false args ++ sites t v false f
  | .member o => sites t false false o
  | .assignment l r => sites t false false l ++ sites t false false r
  | .function _ _ => []
  | .blockExpression b ts e =>
    sites (t || !ts.isEmpty) v p b ++ sitesIn t v false ts ++ sites t v false e
  | .trapClause _ h => sites t v false h
  | .block ss => sitesIn t v p ss
  | .expressionStatement e => sites t v p e
  | .variableDeclaration _ i => sites t v p i
  | .tupleDestructure _ e => sites t false false e
  | .returnStatement e => sites t v p e
  | .ifStatement c a e => sites t v false c ++ sites t v p a ++ sites t v p e
  | .whileStatement c b => sites t v false c ++ sites t v p b
  | .forStatement i c u b =>
    sites t v false i ++ sites t v false c ++ sites t v false u ++ sites t v p b
  | .tryStatement a c f => sites t false false a ++ sites t false false c ++ sites t false false f
  | .matchStatement e cs => sites t false false e ++ sitesIn t false false cs
  | .matchExpression e cs => sites t false false e ++ sitesIn t false false cs
  | .matchCase _ q g b => sites t false false q ++ sites t false false g ++ sites t false false b
  | .failStatement e => ⟨none, t, v, p⟩ :: sites t false false e

def sitesIn (t v p : Bool) : List Node → List Site
  | [] => []
  | n :: ns => sites t v p n ++ sitesIn t v p ns

end

/-- The sites of a function. -/
def FunctionDeclaration.sites (f : FunctionDeclaration) : List Site :=
  Failability.sites false true true f.body

/-- `checkCalls` finds the call. -/
def hits (marks : Finset String) (s : Site) : Bool := s.propagated && s.target.any (· ∈ marks)

/-- The callee `validateCalls` reports. -/
def reported (marks : Finset String) (owner : String) (s : Site) : Option String :=
  if s.validated = true ∧ s.trapped = false ∧ owner ∉ marks then s.target.filter (· ∈ marks)
  else none

/-- A pass that does not come to a node does not come to what is below it. -/
theorem sites_flags : (∀ n t v p, ∀ s ∈ sites t v p n,
      (s.validated = true → v = true) ∧ (s.propagated = true → p = true)) ∧
    ∀ ns t v p, ∀ s ∈ sitesIn t v p ns, (s.validated = true → v = true) ∧ (s.propagated = true → p = true) := by
  refine pass_induction ?_ ?_ ?_
  · intro t v p s hs
    cases hs
  · intro n ns hn hns t v p s hs
    exact (mem_append.mp hs).elim (hn t v p s) (hns t v p s)
  · intro n ih ihs t v p s hs
    cases n <;> simp only [sites, mem_append, mem_cons, not_mem_nil] at hs <;>
      simp only [nodes, list, mem_cons, not_mem_nil, or_false, forall_eq_or_imp, forall_eq] at ih ihs <;>
      grind

section Passes

variable (marks : Finset String) (owner : String)

/-- Where the propagation does not come, it finds nothing. -/
theorem hits_off (t v : Bool) (n : Node) : (sites t v false n).any (hits marks) = false := by
  rw [any_eq_false]
  intro s hs
  have hoff := (sites_flags.1 n t v false s hs).2
  simp_all [hits]

theorem hits_offIn (t v : Bool) (ns : List Node) : (sitesIn t v false ns).any (hits marks) = false := by
  rw [any_eq_false]
  intro s hs
  have hoff := (sites_flags.2 ns t v false s hs).2
  simp_all [hits]

/-- Where the check does not come, it reports nothing. -/
theorem reported_off (t p : Bool) (n : Node) : (sites t false p n).filterMap (reported marks owner) = [] := by
  rw [filterMap_eq_nil_iff]
  intro s hs
  have hoff := (sites_flags.1 n t false p s hs).1
  simp_all [reported]

theorem reported_offIn (t p : Bool) (ns : List Node) :
    (sitesIn t false p ns).filterMap (reported marks owner) = [] := by
  rw [filterMap_eq_nil_iff]
  intro s hs
  have hoff := (sites_flags.2 ns t false p s hs).1
  simp_all [reported]

/-- **The propagation test**, read off the sites. -/
theorem checkCalls_eq : (∀ n t v, checkCalls marks n = (sites t v true n).any (hits marks)) ∧
    ∀ ns t v, checkCallsIn marks ns = (sitesIn t v true ns).any (hits marks) := by
  refine pass_induction (fun t v => rfl) ?_ ?_
  · intro n ns hn hns t v
    rw [checkCallsIn, sitesIn, any_append, hn t v, hns t v]
  · intro n ih ihs t v
    simp only [nodes, list] at ih ihs
    cases n with
    | call f args =>
      simp only [checkCalls, sites, any_append, hits_off, hits_offIn, Bool.or_false]
      cases calleeName f <;> simp [hits]
    | failStatement e => simp [checkCalls, sites, hits_off, hits]
    | _ =>
      simp only [checkCalls, sites, any_append, any_nil, hits_off, hits_offIn, Bool.or_false, Bool.false_or] <;>
        grind

/-- **The check**, read off the sites: one error for each untrapped call of a marked function. -/
theorem validateCalls_eq : (∀ n t p, validateCalls marks owner t n =
      ((sites t true p n).filterMap (reported marks owner)).map (callError owner)) ∧
    ∀ ns t p, validateCallsIn marks owner t ns =
      ((sitesIn t true p ns).filterMap (reported marks owner)).map (callError owner) := by
  refine pass_induction (fun t p => rfl) ?_ ?_
  · intro n ns hn hns t p
    rw [validateCallsIn, sitesIn, filterMap_append, map_append, hn t p, hns t p]
  · intro n ih ihs t p
    simp only [nodes, list] at ih ihs
    cases n with
    | call f args =>
      rw [validateCalls, ihs t false, ih f mem_cons_self t false, sites, filterMap_append,
        filterMap_append, map_append, map_append]
      cases hf : calleeName f with
      | none => rfl
      | some x =>
        cases t <;> by_cases ho : owner ∈ marks <;> by_cases hx : x ∈ marks <;>
          simp [reported, Option.filter_some, ho, hx]
    | failStatement e => simp [validateCalls, sites, reported_off, reported]
    | _ =>
      simp only [validateCalls, sites, filterMap_append, map_append, reported_off, reported_offIn,
        append_nil, filterMap_nil, map_nil] <;>
        grind

end Passes

/-! ## 3. The marks without the loop -/

namespace Module

variable (M : Module)

/-- The function calls `y` at a position the propagation walks. -/
def Spreads (f : FunctionDeclaration) (y : String) : Prop :=
  f.name ≠ "main" ∧ ∃ s ∈ f.sites, s.propagated = true ∧ s.target = some y

/-- The scan finds a `fail` in the function. -/
def Scanned (x : String) : Prop :=
  ∃ f ∈ M.functions, f.name = x ∧ containsFailStatement f.body = true

/-- Reached by 100 rounds of the propagation. -/
def Marked (x : String) : Prop := WithinAtMost (·.name) M.functions Spreads M.Scanned 100 x

theorem callsMarked_iff (marks : Finset String) (f : FunctionDeclaration) :
    callsMarked marks f = true ↔ ∃ y ∈ marks, Spreads f y := by
  rw [callsMarked, (checkCalls_eq marks).1 f.body false true, Bool.and_eq_true, bne_iff_ne,
    any_eq_true]
  constructor
  · intro ⟨hmain, s, hs, hhit⟩
    rw [hits, Bool.and_eq_true, Option.any_eq_true] at hhit
    obtain ⟨hp, y, hy, hmem⟩ := hhit
    exact ⟨y, by simpa using hmem, hmain, s, hs, hp, hy⟩
  · intro ⟨y, hy, hmain, s, hs, hp, ht⟩
    exact ⟨hmain, s, hs, by simp [hits, hp, ht, hy]⟩

variable (x : String)

theorem mem_direct : x ∈ M.direct ↔ M.Scanned x := by
  simp only [direct, mem_toFinset, mem_map, mem_filter, Scanned]
  exact exists_congr fun f => by tauto

theorem withinAtMost_zero :
    WithinAtMost (·.name) M.functions Spreads M.Scanned 0 x ↔ M.Scanned x := by
  constructor
  · intro ⟨r, hr, hw⟩
    cases hw with
    | start h => exact h
    | next _ _ _ | same _ h1 _ _ => omega
  · exact fun h => ⟨0, Nat.le_refl 0, .start h⟩

/-- **The marks** after scan and propagation. -/
theorem mem_failable : x ∈ M.failable ↔ M.Marked x := by
  have h := mem_markLoop M.distinct callsMarked_iff 100 0 M.direct
    (fun y => (M.mem_direct y).trans (M.withinAtMost_zero y).symm) x
  rwa [Nat.zero_add] at h

/-! ## 4. What escapes -/

/-- A `fail` that no trap clause catches stands somewhere in the function. -/
def FailsDirectly (x : String) : Prop :=
  ∃ g ∈ M.functions, g.name = x ∧ ∃ s ∈ g.sites, s.target = none ∧ s.trapped = false

/-- No failure escapes unmarked: if nothing is reported, then every untrapped call, wherever it
    stands, of a function that fails directly or is marked lies in a marked function. -/
def NoEscape : Prop :=
  M.errors = [] → ∀ f ∈ M.functions, ∀ s ∈ f.sites, ∀ x, s.target = some x → s.trapped = false →
    x ∈ M.failable ∨ M.FailsDirectly x → f.name ∈ M.failable

/-- An unmarked function has an untrapped call of `x`, at a site with property `P`. -/
def Calls (P : Site → String → Prop) : Prop :=
  ∃ f ∈ M.functions, ¬ M.Marked f.name ∧ ∃ s ∈ f.sites, ∃ x, s.target = some x ∧
    s.trapped = false ∧ P s x

/-- A call of a marked function, where the check comes. -/
def SeenEscape : Prop := M.Calls fun s x => s.validated = true ∧ M.Marked x

/-- A call of a marked function where the check does not come, or of one with a `fail` where the
    scan does not come. -/
def MissedEscape : Prop :=
  M.Calls fun s x => (s.validated = false ∧ M.Marked x) ∨ (¬ M.Marked x ∧ M.FailsDirectly x)

theorem errors_eq_nil_iff : M.errors = [] ↔ ¬ M.SeenEscape := by
  have hsite : ∀ f : FunctionDeclaration, validateCalls M.failable f.name false f.body = [] ↔
      ∀ s ∈ f.sites, ∀ x, s.target = some x → s.validated = true → s.trapped = false →
        f.name ∉ M.failable → x ∉ M.failable := by
    intro f
    rw [(validateCalls_eq M.failable f.name).1 f.body false true, map_eq_nil_iff, filterMap_eq_nil_iff]
    refine forall₂_congr fun s _ => ?_
    simp only [reported]
    cases s.target <;> split <;> simp_all [Option.filter_some]
  unfold errors
  simp only [flatMap_eq_nil_iff, hsite, mem_failable, SeenEscape, Calls]
  constructor
  · intro h ⟨f, hf, hun, s, hs, x, ht, htr, hv, hm⟩
    exact h f hf s hs x ht hv htr hun hm
  · intro h f hf s hs x ht hv htr hun hm
    exact h ⟨f, hf, hun, s, hs, x, ht, htr, hv, hm⟩

/-- `risky() { fail e }` -/
def risky : FunctionDeclaration := ⟨"risky", .block [.failStatement .literal]⟩

/-- `f() { y<Int> = 0; y = risky() }` -/
def assigns : FunctionDeclaration :=
  ⟨"f", .block [.variableDeclaration "y" .literal,
    .expressionStatement (.assignment (.identifier "y") (.call (.identifier "risky") []))]⟩

/-- `g() { y<Int> = { fail e } }` -/
def unscanned : FunctionDeclaration :=
  ⟨"g", .block [.variableDeclaration "y"
    (.blockExpression (.block [.failStatement .literal]) [] .absent)]⟩

/-- `f() { g() }` -/
def callsUnscanned : FunctionDeclaration :=
  ⟨"f", .block [.expressionStatement (.call (.identifier "g") [])]⟩

/-- The least set that holds the functions that fail directly and, `main` excepted, every function with an
    untrapped call of a member. -/
inductive Failing : String → Prop
  | direct {x : String} : M.FailsDirectly x → Failing x
  | call {f : FunctionDeclaration} {s : Site} {y : String} : f ∈ M.functions → f.name ≠ "main" →
      s ∈ f.sites → s.target = some y → s.trapped = false → Failing y → Failing f.name

/-- `f() { { risky() } trap e { } }` -/
def trapsCall : FunctionDeclaration :=
  ⟨"f", .block [.expressionStatement (.blockExpression
    (.block [.expressionStatement (.call (.identifier "risky") [])]) [.trapClause "e" (.block [])] .absent)]⟩

end Module

end Vyb.Semantic.Failability
