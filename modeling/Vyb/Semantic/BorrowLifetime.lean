/-
  Subject:   Borrow lifetimes: what the table of `their` variables says about the executions of a body.

  The table keeps, for a name, the depth of the scope in which the name was last bound by `borrow` or
  `view`, and the root. A read is refused at a smaller depth. A copy of one `their` variable into
  another leaves the table as it is, a scope that is opened later at the same depth is taken for the
  one that recorded the borrow, and the body of a loop is visited once.

  * `Memory` -- execution: the variables of the open scopes and what the `their` variables refer to;
  * `Trail` -- where, in the text, a `their` variable was last bound, while that scope is open;
  * **`keepsBorrows_safe`** -- an accepted body in which a `their` variable that passes the depth test
    was bound in a scope still open, whose loops bind none from around them, and which returns no copy,
    never reads or returns one after the end of what it refers to;
  * `dangling_accepted` -- three accepted bodies that do.
-/
import Vyb.Semantic.Ownership

namespace Vyb.Semantic.Ownership

open Lib List Scopes Option Event State

/-! ## 1. Execution -/

/-- A variable in execution: its identity, which is 0 for everything that outlives the body, and the
    variables it refers to. -/
structure Cell where
  ty : Ty
  id : Nat
  refs : List Nat
  deriving DecidableEq, Repr

structure Memory where
  cells : Scopes String Cell
  next : Nat

/-- The `their` variable that an event binds and the expression it is bound to. Assigning a value that
    is not a `their` writes through the reference; a compound assignment does so too. -/
def Event.binding (their : String → Bool) : Event → Option (String × Option Expr)
  | .simple (.declare b) => if b.ty.isTheir then some (b.name, b.init) else none
  | .simple (.act (.assign (.ident x) compound right)) =>
    if their x then
      match right with
      | .borrow _ _ => some (x, some right)
      | .ident y => if !compound && their y then some (x, some right) else none
      | _ => none
    else none
  | _ => none

namespace Memory

def isTheir (d : Memory) (x : String) : Bool := (d.cells.find x).any fun c => c.ty.isTheir

/-- What a value refers to: a borrow refers to its root, and through it to what the root refers to. -/
def refsOf (d : Memory) : Expr → List Nat
  | .ident y => (d.cells.find y).elim [] Cell.refs
  | .borrow _ e => (e.borrowedRootName.bind fun z => d.cells.find z).elim [] fun c => c.id :: c.refs
  | _ => []

def step (d : Memory) : Ev Event → Memory
  | .enter => { d with cells := [] :: d.cells }
  | .exit => { d with cells := d.cells.tail }
  | .on (.simple (.declare b)) =>
    let refs := if b.ty.isTheir then b.init.elim [] d.refsOf else []
    { cells := d.cells.put b.name ⟨b.ty, d.next, refs⟩, next := d.next + 1 }
  | .on v =>
    match v.binding d.isTheir with
    | some (x, e) => { d with cells := d.cells.modify x fun c => { c with refs := e.elim [] d.refsOf } }
    | none => d

def start (symbols : Scopes String Ty) : Memory := ⟨symbols.mapVal fun t => ⟨t, 0, []⟩, 1⟩

end Memory

/-- A variable is there as long as its scope is open. -/
def Live (cells : Scopes String Cell) (i : Nat) : Prop := i = 0 ∨ ∃ f ∈ cells, ∃ e ∈ f, e.2.id = i

/-- What an event uses on the left of an assignment: all but a variable that is only assigned to. -/
def Event.placeUses : Event → List String
  | .simple (.act (.assign (.ident _) false _)) => []
  | .simple (.act (.assign left _ _)) => left.reads
  | _ => []

/-- The names an event uses. -/
def Event.uses (v : Event) : List String := v.placeUses ++ v.valueReads

/-- The value an event returns from the body. -/
def Event.returned : Event → Option Expr
  | .ret e => e
  | _ => none

/-- The event uses a `their` variable after the end of what it refers to, or returns a reference to a
    variable that ends with the body. -/
def Dangles (d : Memory) : Ev Event → Prop
  | .on v =>
    (∃ x ∈ v.uses, ∃ c ∈ d.cells.find x, c.ty.isTheir = true ∧ ∃ i ∈ c.refs, ¬ Live d.cells i) ∨
      ∃ e ∈ v.returned, ∃ i ∈ d.refsOf e, i ≠ 0
  | _ => False

/-- Some path through the body dangles. -/
def Misborrowed (symbols : Scopes String Ty) (F : Function) : Prop :=
  ∃ tr stopped, Path F.prog tr stopped ∧ Happens Memory.step Dangles (Memory.start symbols) tr

/-! ## 2. Where the text binds -/

/-- How a `their` variable was last bound. -/
inductive Origin where
  | borrowed (root : String)
  | copied
  | fresh
  deriving DecidableEq, Repr

def Expr.origin : Expr → Origin
  | .borrow _ e => e.borrowedRootName.elim .fresh .borrowed
  | .ident _ => .copied
  | _ => .fresh

/-- For every open scope, the variables that were last bound in it. -/
structure Trail where
  env : Env
  origins : Scopes String Origin

namespace Trail

/-- The variables bound by an event leave the scopes they were bound in before. -/
def bind (env : Env) (origins : Scopes String Origin) (v : Event) : Scopes String Origin :=
  match v.binding env.isTheir with
  | some (x, e) => Scopes.put x (e.elim .fresh Expr.origin) (Scopes.erase x origins)
  | none => origins

def step (t : Trail) (e : Ev Event) : Trail where
  env := t.env.step e
  origins := match e with
    | .enter => [] :: t.origins
    | .exit => t.origins.tail
    | .on v => bind t.env t.origins v

/-- A declaration takes the name of no visible variable and of no parameter; an assignment binds no
    parameter. -/
def Apart (env : Env) : Event → Prop
  | .simple (.declare b) => env.lookup b.name = none ∧ b.name ∉ env.params
  | v => ∀ x e, v.binding env.isTheir = some (x, e) → x ∉ env.params

/-- A `their` variable that is returned was not bound by a copy. -/
def ReturnsBorrow (t : Trail) : Event → Prop
  | .ret (some (.ident y)) => t.env.isTheir y = true → t.origins.find y ≠ some .copied
  | _ => True

/-- What is asked of an event where the text has it: the `their` variables it uses were last bound in
    scopes that are still open, unless the depth test refuses them. -/
def Keeps (t : Trail) : Ev Event → Prop
  | .on v =>
    (∀ x ∈ v.uses, t.env.isTheir x = true →
      (t.origins.find x).isSome = true ∨ (t.env.expired x).isSome = true) ∧
      Apart t.env v ∧ t.ReturnsBorrow v
  | _ => True

/-- The event declares nothing and binds nothing. -/
def Inert (env : Env) : Event → Prop
  | .simple (.declare _) => False
  | v => v.binding env.isTheir = none

end Trail

/-- **A body keeps its borrows in sight**: no visible name hides another, the body meets `Trail.Keeps`
    everywhere, the tests and updates of its loops bind nothing, and the body of a loop binds no
    variable from around it. -/
def KeepsBorrows (env : Env) (F : Function) : Prop :=
  let t : Trail := ⟨env, env.symbols.mapVal fun _ => .fresh⟩
  (Scopes.names env.symbols).Nodup ∧ Always Trail.step Trail.Keeps t (text F.prog) ∧
    Steady Trail.step (fun t es => ∀ v ∈ es, Trail.Inert t.env v)
      (fun t t' => t'.origins = t.origins) t F.prog

section Decide

instance (cells : Scopes String Cell) (i : Nat) : Decidable (Live cells i) :=
  inferInstanceAs (Decidable (_ ∨ _))

instance (d : Memory) : ∀ e, Decidable (Dangles d e)
  | .on _ => inferInstanceAs (Decidable (_ ∨ _))
  | .enter => isFalse id
  | .exit => isFalse id

instance Trail.decidableApart (env : Env) : ∀ v, Decidable (Trail.Apart env v)
  | .simple (.declare b) => inferInstanceAs (Decidable (_ ∧ _))
  | .simple (.act a) =>
    decidable_of_iff (∀ p ∈ (Event.simple (.act a)).binding env.isTheir, p.1 ∉ env.params) <| by
      simp [Trail.Apart, Prod.forall]
  | .ret e => isTrue fun _ _ h => by cases h

instance Trail.decidableReturnsBorrow (t : Trail) : ∀ v, Decidable (t.ReturnsBorrow v)
  | .ret (some (.ident y)) =>
    inferInstanceAs (Decidable (t.env.isTheir y = true → t.origins.find y ≠ some .copied))
  | .ret none => isTrue trivial
  | .ret (some .literal) => isTrue trivial
  | .ret (some (.member _ _)) => isTrue trivial
  | .ret (some (.element _ _ _)) => isTrue trivial
  | .ret (some (.binary _ _)) => isTrue trivial
  | .ret (some (.borrow _ _)) => isTrue trivial
  | .simple _ => isTrue trivial

instance Trail.decidableKeeps (t : Trail) : ∀ e, Decidable (t.Keeps e)
  | .on _ => inferInstanceAs (Decidable (_ ∧ _ ∧ _))
  | .enter => isTrue trivial
  | .exit => isTrue trivial

instance Trail.decidableInert (env : Env) : ∀ v, Decidable (Trail.Inert env v)
  | .simple (.declare _) => isFalse id
  | .simple (.act _) => inferInstanceAs (Decidable (_ = none))
  | .ret _ => isTrue rfl

instance (env : Env) (F : Function) : Decidable (KeepsBorrows env F) :=
  inferInstanceAs (Decidable (_ ∧ _ ∧ _))

end Decide

/-! ## 3. The scopes of the text and what is referred to -/

/-- The state of the analyzer with the scopes of the last bindings. -/
structure Trailed where
  state : State
  origins : Scopes String Origin

def Trailed.trail (a : Trailed) : Trail := ⟨a.state.env, a.origins⟩

/-- The analyzer and the last bindings, along the text. -/
def Trailed.step (a : Trailed) (e : Ev Event) : Trailed :=
  ⟨a.state.step e, (a.trail.step e).origins⟩

theorem Trailed.trail_step (a : Trailed) (e : Ev Event) : (a.step e).trail = a.trail.step e := by
  simp only [trail, step, Trail.step, step_env]

theorem Trailed.state_foldl (es : List (Ev Event)) (a : Trailed) :
    (es.foldl step a).state = es.foldl State.step a.state :=
  foldl_map (f := Trailed.state) (fun _ _ => rfl) es a

/-- The table has the root of every last binding that was a borrow. -/
def Recalls (env : Env) (origins : Scopes String Origin) : Prop :=
  ∀ k x root, Scopes.At origins k x (.borrowed root) →
    ∃ depth, env.theirVars.lookup x = some (depth, root)

/-- What the `their` variables refer to in execution, seen from where the text has bound them. -/
structure Holds (d : Memory) (params : List String) (origins : Scopes String Origin) : Prop where
  length : origins.length = d.cells.length
  distinct : (Scopes.names d.cells).Nodup
  /-- what a variable refers to is in the scope that bound it or around it -/
  live : ∀ k x o c, Scopes.At origins k x o → d.cells.find x = some c →
    ∀ i ∈ c.refs, Live (d.cells.drop k) i
  fresh : ∀ k x c, Scopes.At origins k x .fresh → d.cells.find x = some c → c.refs = []
  /-- a borrow of a parameter refers to nothing that ends with the body -/
  borrowed : ∀ k x root c, Scopes.At origins k x (.borrowed root) → d.cells.find x = some c →
    root ∈ params → ∀ i ∈ c.refs, i = 0
  params : ∀ z ∈ params, ∀ c, d.cells.find z = some c → c.id = 0 ∧ c.refs = []
  owned : ∀ x c, d.cells.find x = some c → c.ty.isTheir = false → c.refs = []

/-- The states of execution that the analyzer and the last bindings account for. -/
structure Refers (d : Memory) (a : Trailed) : Prop where
  shape : d.cells.mapVal Cell.ty = a.state.env.symbols
  recalls : Recalls a.state.env a.origins
  holds : Holds d a.state.env.params a.origins

section Shape

variable {d : Memory} {env : Env} (hs : d.cells.mapVal Cell.ty = env.symbols)

include hs

theorem lookup_of_cells (x : String) : env.lookup x = (d.cells.find x).map Cell.ty := by
  rw [Env.lookup, ← hs, find_mapVal]

theorem isTheir_of_cells : d.isTheir = env.isTheir := by
  funext x
  rw [Env.isTheir, lookup_of_cells hs, Memory.isTheir]
  cases d.cells.find x <;> rfl

end Shape

variable (env : Env)

@[simp] theorem Env.recordBorrow_theirVars (root : String) (kind : BorrowKind) :
    (env.recordBorrow root kind).theirVars = env.theirVars := by
  unfold recordBorrow
  split <;> rfl

@[simp] theorem Env.recordBorrow_depth (root : String) (kind : BorrowKind) :
    (env.recordBorrow root kind).depth = env.depth := by
  unfold recordBorrow
  split
  · rfl
  · exact length_put _ _ _

attribute [local simp] Memory.step Memory.start Memory.refsOf Env.recordTheirBorrowInto

/-- An entry goes into the table where, and only where, a variable is bound to a borrow. -/
theorem theirVars_on (v : Event) :
    (env.step (.on v)).theirVars =
      match v.binding env.isTheir with
      | some (x, some (.borrow _ e)) =>
        (e.borrowedRootName.elim [] fun root => [(x, (env.depth, root))]) ++ env.theirVars
      | _ => env.theirVars := by
  match v with
  | .simple (.act (.eval _)) | .ret _ => rfl
  | .simple (.declare ⟨x, t, init⟩) =>
    change (env.declare ⟨x, t, init⟩).theirVars = _
    simp only [Env.declare, binding]
    match init with
    | some (.borrow k e) =>
      cases hr : e.borrowedRootName <;> cases t.isTheir <;>
        simp [hr]
    | none | some .literal | some (.ident _) | some (.member _ _) | some (.element _ _ _)
    | some (.binary _ _) => cases t.isTheir <;> rfl
  | .simple (.act (.assign left c right)) =>
    change (env.assign left right).theirVars = _
    cases left with
    | ident x =>
      simp only [Env.assign, binding]
      cases right with
      | borrow k e =>
        cases hr : e.borrowedRootName <;> cases hx : env.isTheir x <;>
          simp [hr, hx]
      | ident y => cases env.isTheir x <;> cases hy : env.isTheir y <;> cases c <;> simp [hy]
      | _ => cases env.isTheir x <;> rfl
    | _ => rfl

@[simp] theorem Env.step_params (e : Ev Event) : (env.step e).params = env.params := by
  match e with
  | .enter | .exit | .on (.simple (.act (.eval _))) | .on (.ret _) => rfl
  | .on (.simple (.declare b)) =>
    simp only [Env.step, Env.declare, recordBorrow]
    split
    · split
      · split <;> split <;> rfl
      · rfl
    · rfl
  | .on (.simple (.act (.assign left c right))) =>
    simp only [Env.step, Env.assign]
    split
    · split
      · split <;> rfl
      · rfl
    · rfl

theorem borrow_of_origin {e : Option Expr} {root : String} (h : e.elim .fresh Expr.origin = .borrowed root) :
    ∃ kind e', e = some (.borrow kind e') ∧ e'.borrowedRootName = some root := by
  match e, h with
  | some (.borrow kind e'), h =>
    refine ⟨kind, e', rfl, ?_⟩
    change e'.borrowedRootName.elim Origin.fresh Origin.borrowed = _ at h
    cases hr : e'.borrowedRootName with
    | none => rw [hr] at h; cases h
    | some r =>
      rw [hr] at h
      cases h
      rfl
  | some (.ident _), h => cases h

variable {a : Trailed}

/-- The table follows the last bindings, whatever the body does. -/
theorem recalls_step (e : Ev Event) (h : Recalls a.state.env a.origins) :
    Recalls (a.step e).state.env (a.step e).origins := by
  intro k x root hat
  have henv : (a.step e).state.env = a.state.env.step e := step_env _ _
  rw [henv]
  match e with
  | .enter =>
    obtain ⟨j, _, hat⟩ := at_enter.mp hat
    exact h j x root hat
  | .exit => exact h (k + 1) x root (at_tail hat)
  | .on v =>
    change Scopes.At (Trail.bind a.state.env a.origins v) k x (.borrowed root) at hat
    rw [theirVars_on]
    unfold Trail.bind at hat
    split at hat
    · rename_i y e hb
      rw [hb]
      rcases at_put_erase hat with ⟨rfl, _, ho⟩ | ⟨hxy, hat⟩
      · obtain ⟨kind, e', he, hr⟩ := borrow_of_origin ho.symm
        refine ⟨a.state.env.depth, ?_⟩
        simp [he, hr]
      · obtain ⟨depth, hd⟩ := h k x root hat
        refine ⟨depth, ?_⟩
        split
        · rename_i y' _ e' heq
          obtain ⟨rfl, _⟩ : y = y' ∧ _ := by simpa using heq
          cases e'.borrowedRootName with
          | none => exact hd
          | some r => rw [elim_some, singleton_append, Scopes.lookup_cons, if_neg hxy, hd]
        · exact hd
    · rename_i hb
      rw [hb]
      exact h k x root hat

/-! ## 4. One event -/

/-- Which variables are there depends on their identities only. -/
theorem live_iff (cells : Scopes String Cell) (i : Nat) :
    Live cells i ↔ i = 0 ∨ ∃ f ∈ cells.mapVal Cell.id, ∃ e ∈ f, e.2 = i := by
  simp [Live, Scopes.mapVal]

theorem Live.of_drop {cells : Scopes String Cell} {k i : Nat} (h : Live (cells.drop k) i) : Live cells i := by
  refine h.imp id fun ⟨f, hf, he⟩ => ⟨f, mem_of_mem_drop hf, he⟩

theorem live_drop_modify (x : String) (r : List Nat) (k i : Nat) (cells : Scopes String Cell) :
    Live ((cells.modify x fun c => { c with refs := r }).drop k) i ↔ Live (cells.drop k) i := by
  rw [live_iff, live_iff, ← drop_mapVal, ← drop_mapVal,
    mapVal_modify (h := Cell.id) (g := fun c => { c with refs := r }) fun _ => rfl]

variable {c : Cell} {x : String}

theorem Live.drop_put {cells : Scopes String Cell} {k i : Nat} (h : Live (cells.drop k) i) :
    Live ((cells.put x c).drop k) i := by
  cases k with
  | succ k => rwa [drop_succ_put]
  | zero =>
    cases cells with
    | nil => exact h
    | cons f fs =>
      refine h.imp id fun ⟨g, hg, e, he, hi⟩ => ?_
      rcases mem_cons.mp hg with rfl | hg
      · exact ⟨_, mem_cons_self, e, mem_cons_of_mem _ he, hi⟩
      · exact ⟨g, mem_cons_of_mem _ hg, e, he, hi⟩

namespace Holds

variable {d d' : Memory} {params : List String} {origins origins' : Scopes String Origin} {x : String}

variable (H : Holds d params origins)
include H

theorem enter : Holds (d.step .enter) params ([] :: origins) where
  length := congrArg (· + 1) H.length
  distinct := H.distinct
  live k x o c hat hc i hi := by
    obtain ⟨j, rfl, hat⟩ := at_enter.mp hat
    exact H.live j x o c hat hc i hi
  fresh k x c hat hc := by
    obtain ⟨j, _, hat⟩ := at_enter.mp hat
    exact H.fresh j x c hat hc
  borrowed k x root c hat hc := by
    obtain ⟨j, _, hat⟩ := at_enter.mp hat
    exact H.borrowed j x root c hat hc
  params := H.params
  owned := H.owned

/-- What is visible when a scope has ended was visible in it. -/
theorem find_tail (hc : Scopes.find x d.cells.tail = some c) :
    d.cells.find x = some c := by
  have hn := H.distinct
  cases hd : d.cells with
  | nil => rw [hd] at hc; cases hc
  | cons f fs =>
    rw [hd] at hc hn
    exact find_of_tail hn hc

theorem exit : Holds (d.step .exit) params origins.tail where
  length := by simp [H.length]
  distinct := by
    have hn := H.distinct
    cases hd : d.cells with
    | nil => simp [hd, Scopes.names]
    | cons f fs =>
      rw [hd] at hn
      simp only [Memory.step, hd, tail_cons]
      exact (nodup_append.mp hn).2.1
  live k x o c hat hc i hi := by
    have h := H.live (k + 1) x o c (at_tail hat) (H.find_tail hc) i hi
    rwa [← drop_tail] at h
  fresh k x c hat hc := H.fresh (k + 1) x c (at_tail hat) (H.find_tail hc)
  borrowed k x root c hat hc := H.borrowed (k + 1) x root c (at_tail hat) (H.find_tail hc)
  params z hz c hc := H.params z hz c (H.find_tail hc)
  owned x c hc := H.owned x c (H.find_tail hc)

/-- One variable is declared or bound; the others are as they were. -/
theorem update (hx : x ∉ params) (hlen : origins'.length = d'.cells.length)
    (hn : (Scopes.names d'.cells).Nodup) (hother : ∀ z, z ≠ x → d'.cells.find z = d.cells.find z)
    (hlive : ∀ k i, Live (d.cells.drop k) i → Live (d'.cells.drop k) i)
    (howned : ∀ c, d'.cells.find x = some c → c.ty.isTheir = false → c.refs = [])
    (hat : ∀ k z o, Scopes.At origins' k z o → (z ≠ x ∧ Scopes.At origins k z o) ∨
      z = x ∧ ∀ c, d'.cells.find x = some c → (∀ i ∈ c.refs, Live (d'.cells.drop k) i) ∧
        (o = .fresh → c.refs = []) ∧ ∀ root, o = .borrowed root → root ∈ params →
          ∀ i ∈ c.refs, i = 0) : Holds d' params origins' where
  length := hlen
  distinct := hn
  live k z o c ho hc i hi := by
    rcases hat k z o ho with ⟨hz, ho⟩ | ⟨rfl, h⟩
    · exact hlive k i (H.live k z o c ho (hother z hz ▸ hc) i hi)
    · exact (h c hc).1 i hi
  fresh k z c ho hc := by
    rcases hat k z _ ho with ⟨hz, ho⟩ | ⟨rfl, h⟩
    · exact H.fresh k z c ho (hother z hz ▸ hc)
    · exact (h c hc).2.1 rfl
  borrowed k z root c ho hc := by
    rcases hat k z _ ho with ⟨hz, ho⟩ | ⟨rfl, h⟩
    · exact H.borrowed k z root c ho (hother z hz ▸ hc)
    · exact (h c hc).2.2 root rfl
  params z hz c hc := by
    have hzx : z ≠ x := fun h => hx (h ▸ hz)
    exact H.params z hz c (hother z hzx ▸ hc)
  owned z c hc ht := by
    by_cases hz : z = x
    · subst hz
      exact howned c hc ht
    · exact H.owned z c (hother z hz ▸ hc) ht

/-- A declaration that hides nothing; `o` is how a `their` variable is bound by it. -/
theorem declare (hx : x ∉ params) (hfree : d.cells.find x = none) {t : Ty}
    {r : List Nat} {o : Origin} (howned : t.isTheir = false → r = []) (hlive : ∀ i ∈ r, Live d.cells i)
    (hfresh : o = .fresh → r = []) (hborrowed : ∀ root, o = .borrowed root → root ∈ params → ∀ i ∈ r, i = 0) :
    Holds ⟨d.cells.put x ⟨t, d.next, r⟩, d.next + 1⟩ params
      (if t.isTheir then (origins.erase x).put x o else origins) := by
  cases hd : d.cells with
  | nil =>
    have ho : origins = [] := length_eq_zero_iff.mp (H.length.trans (by rw [hd]; rfl))
    subst ho
    have hnil : (if t.isTheir then Scopes.put x o (Scopes.erase x []) else []) =
        ([] : Scopes String Origin) := by
      split <;> rfl
    have hsame : Holds ⟨d.cells, d.next + 1⟩ params [] :=
      ⟨H.length, H.distinct, H.live, H.fresh, H.borrowed, H.params, H.owned⟩
    rw [hd] at hsame
    rw [hnil]
    exact hsame
  | cons f fs =>
    have hne : d.cells ≠ [] := by rw [hd]; simp
    rw [← hd]
    have hcell : ∀ c, (d.cells.put x ⟨t, d.next, r⟩).find x = some c → c = ⟨t, d.next, r⟩ := by
      intro c hc
      rw [find_put hne, if_pos rfl] at hc
      exact (some.inj hc).symm
    refine H.update hx ?_ ?_ ?_ (fun k i => Live.drop_put) ?_ ?_
    · split <;> simp [H.length]
    · rw [names_put hne]
      refine nodup_cons.mpr ⟨?_, H.distinct⟩
      rw [← find_isSome_iff, hfree]
      simp
    · intro z hz
      rw [find_put hne, if_neg hz]
    · intro c hc ht
      rw [hcell c hc] at ht ⊢
      exact howned ht
    · intro k z o' hat
      by_cases hz : z = x
      · refine .inr ⟨hz, fun c hc => ?_⟩
        rw [hcell c hc]
        by_cases ht : t.isTheir = true
        · rw [if_pos ht] at hat
          rcases at_put_erase hat with ⟨_, rfl, rfl⟩ | ⟨hne, _⟩
          · exact ⟨fun i hi => Live.drop_put (k := 0) (hlive i hi), hfresh, hborrowed⟩
          · exact absurd hz hne
        · have hr := howned (by simpa using ht)
          simp [hr]
      · refine .inl ⟨hz, ?_⟩
        split at hat
        · rcases at_put_erase hat with ⟨h, _⟩ | ⟨_, hat⟩
          · exact absurd h hz
          · exact hat
        · exact hat

theorem rebind (hx : x ∉ params) {r : List Nat} {o : Origin}
    (htheir : d.isTheir x = true) (hlive : ∀ i ∈ r, Live d.cells i) (hfresh : o = .fresh → r = [])
    (hborrowed : ∀ root, o = .borrowed root → root ∈ params → ∀ i ∈ r, i = 0) :
    Holds { d with cells := d.cells.modify x fun c => { c with refs := r } } params
      ((origins.erase x).put x o) := by
  have hcell : ∀ c, (d.cells.modify x fun c => { c with refs := r }).find x = some c →
      c.refs = r ∧ c.ty.isTheir = true := by
    intro c hc
    rw [find_modify, if_pos rfl] at hc
    obtain ⟨c', hc', rfl⟩ := map_eq_some_iff.mp hc
    refine ⟨rfl, ?_⟩
    simpa [Memory.isTheir, hc'] using htheir
  refine H.update hx (by simp [H.length]) ?_ ?_ ?_ ?_ ?_
  · rw [← names_mapVal Cell.ty, mapVal_modify (h := Cell.ty) (g := fun c => { c with refs := r }) fun _ => rfl,
      names_mapVal]
    exact H.distinct
  · intro z hz
    rw [find_modify, if_neg hz]
  · intro k i h
    exact (live_drop_modify x r k i d.cells).mpr h
  · intro c hc ht
    rw [(hcell c hc).2] at ht
    cases ht
  · intro k z o' hat
    rcases at_put_erase hat with ⟨rfl, rfl, rfl⟩ | h
    · refine .inr ⟨rfl, fun c hc => ?_⟩
      rw [(hcell c hc).1]
      exact ⟨fun i hi => (live_drop_modify z r 0 i d.cells).mpr (hlive i hi), hfresh, hborrowed⟩
    · exact .inl h

end Holds

/-- An error is reported by the end of the event. -/
def Refuses (s : State) (e : Ev Event) : Prop := (s.step e).errors ≠ []

/-- What is used on the left is read by the target of an assignment. -/
theorem Event.mem_placeUses : ∀ {v : Event}, x ∈ v.placeUses →
    ∃ left c right, v = .assign left c right ∧ x ∈ left.reads
  | .simple (.act (.assign left c right)), hx => by
    refine ⟨left, c, right, rfl, ?_⟩
    unfold placeUses at hx
    split at hx
    · cases hx
    · rename_i heq
      simp only [simple.injEq, Simple.act.injEq, Act.assign.injEq] at heq
      rwa [heq.1]
    · cases hx

variable {v : Event}

/-- A `their` variable that is used after its table entry has expired is refused. -/
theorem refuses_expired {s : State} (hx : x ∈ v.uses) (ht : s.env.isTheir x = true)
    (he : (s.env.expired x).isSome = true) : Refuses s (.on v) := by
  obtain ⟨t, hlook, htheir⟩ := Env.isTheir_iff.mp ht
  obtain ⟨root, hroot⟩ := isSome_iff_exists.mp he
  have hmy : t.isMy = false := by
    cases hw : t.wrapper <;> simp_all [Ty.isMy, Ty.isTheir]
  have hid : ∀ lhs, s.identifier lhs x = .error (.escapes root) := by
    intro lhs
    simp [identifier, hlook, hmy, hroot]
  rcases mem_append.mp hx with hx | hx
  · obtain ⟨left, c, right, rfl, hleft⟩ := mem_placeUses hx
    exact ne_nil_of_mem (mem_errors_of_target hleft (hid true))
  · exact ne_nil_of_mem (mem_errors_of_value hx (hid false))

variable {d : Memory}

/-- What is used refers to what is there, if nothing is refused. -/
theorem uses_live (h : Refers d a) (hk : a.trail.Keeps (.on v)) (hnr : ¬ Refuses a.state (.on v))
    (hx : x ∈ v.uses) (hc : d.cells.find x = some c) : ∀ i ∈ c.refs, Live d.cells i := by
  intro i hi
  by_cases ht : c.ty.isTheir = true
  · have hist : a.state.env.isTheir x = true :=
      Env.isTheir_iff.mpr ⟨c.ty, by rw [lookup_of_cells h.shape, hc]; rfl, ht⟩
    rcases hk.1 x hx hist with ho | he
    · obtain ⟨o, ho⟩ := isSome_iff_exists.mp ho
      obtain ⟨k, hat⟩ := at_of_find ho
      exact (h.holds.live k x o c hat hc i hi).of_drop
    · exact absurd (refuses_expired hx hist he) hnr
  · rw [h.holds.owned x c hc (by simpa using ht)] at hi
    cases hi

theorem Expr.borrowedRootName_mem : ∀ {e : Expr} {root : String}, e.borrowedRootName = some root →
    root ∈ e.reads
  | .ident _, _, h => by
    cases h
    exact mem_singleton_self _
  | .member o _, _, h => Expr.borrowedRootName_mem (e := o) h
  | .element a _ _, _, h => mem_append_left _ (Expr.borrowedRootName_mem (e := a) h)

variable {e : Expr}

/-- So does a value that is bound. -/
theorem refsOf_live (hu : ∀ x ∈ e.reads, ∀ c, d.cells.find x = some c → ∀ i ∈ c.refs, Live d.cells i) :
    ∀ i ∈ d.refsOf e, Live d.cells i := by
  intro i hi
  match e with
  | .ident y =>
    cases hc : d.cells.find y with
    | none => simp [hc] at hi
    | some c =>
      refine hu y (mem_singleton_self y) c hc i ?_
      simpa [hc] using hi
  | .borrow _ e =>
    cases hr : e.borrowedRootName with
    | none => simp [hr] at hi
    | some z =>
      cases hc : d.cells.find z with
      | none => simp [hr, hc] at hi
      | some c =>
        rcases (by simpa [hr, hc] using hi : i = c.id ∨ i ∈ c.refs) with rfl | hi
        · obtain ⟨f, hf, he⟩ := mem_of_find hc
          exact .inr ⟨f, hf, _, he, rfl⟩
        · exact hu z (Expr.borrowedRootName_mem (e := e) hr) c hc i hi

variable {origins : Scopes String Origin} {params : List String}

/-- A borrow of a parameter refers to nothing that ends with the body. -/
theorem refsOf_param (H : Holds d params origins) (kind : BorrowKind) {root : String}
    (hr : e.borrowedRootName = some root) (hp : root ∈ params) : ∀ i ∈ d.refsOf (.borrow kind e), i = 0 := by
  intro i hi
  cases hc : d.cells.find root with
  | none => simp [hr, hc] at hi
  | some c =>
    obtain ⟨hid, hrefs⟩ := H.params root hp c hc
    simpa [hr, hc, hid, hrefs] using hi

/-- What a value refers to, by how a variable is bound to it. -/
theorem refsOf_origin (H : Holds d params origins) (e : Option Expr) :
    (e.elim Origin.fresh Expr.origin = .fresh → e.elim [] d.refsOf = []) ∧
      ∀ root, e.elim Origin.fresh Expr.origin = .borrowed root → root ∈ params →
        ∀ i ∈ e.elim [] d.refsOf, i = 0 := by
  refine ⟨fun h => ?_, fun root h hp => ?_⟩
  · match e, h with
    | none, _ | some .literal, _ | some (.member _ _), _ | some (.element _ _ _), _ | some (.binary _ _), _ => rfl
    | some (.borrow _ e), h =>
      cases hr : e.borrowedRootName with
      | none => simp [hr]
      | some r => simp [Expr.origin, hr] at h
  · obtain ⟨kind, e', rfl, hr⟩ := borrow_of_origin h
    exact refsOf_param H kind hr hp

/-- An expression statement that binds is an assignment to a `their` variable. -/
theorem binding_act {their : String → Bool} {b : Act} {e : Option Expr}
    (h : (Event.simple (.act b)).binding their = some (x, e)) :
    ∃ c right, b = .assign (.ident x) c right ∧ e = some right ∧ their x = true := by
  match b, h with
  | .assign (.ident y) c right, h =>
    simp only [binding] at h
    split at h
    · rename_i hy
      have hp : (y, some right) = (x, e) := by
        split at h
        · exact some.inj h
        · split at h
          · exact some.inj h
          · cases h
        · cases h
      cases hp
      exact ⟨c, right, rfl, rfl, hy⟩
    · cases h

theorem Refers.next {d d' : Memory} {a : Trailed} {e : Ev Event} (h : Refers d a)
    (hs : d'.cells.mapVal Cell.ty = (a.state.env.step e).symbols)
    (H : Holds d' a.state.env.params (a.step e).origins) : Refers d' (a.step e) := by
  have henv : (a.step e).state.env = a.state.env.step e := step_env _ _
  refine ⟨by rw [henv]; exact hs, recalls_step e h.recalls, ?_⟩
  rw [henv, Env.step_params]
  exact H

/-- The rule's premise on a single event. -/
theorem refers_step {e : Ev Event} (h : Refers d a) (hk : a.trail.Keeps e) (hnr : ¬ Refuses a.state e) :
    Refers (d.step e) (a.step e) := by
  match e with
  | .enter =>
    refine h.next ?_ h.holds.enter
    simp only [Env.step, ← h.shape]
    rfl
  | .exit =>
    refine h.next ?_ h.holds.exit
    simp only [Env.step, ← h.shape, Memory.step, Scopes.mapVal, map_tail]
  | .on (.ret v) => exact h.next h.shape h.holds
  | .on (.simple (.declare b)) =>
    obtain ⟨hfree, hparam⟩ := hk.2.1
    have hfind : d.cells.find b.name = none := by
      have hl : a.state.env.lookup b.name = none := hfree
      rw [lookup_of_cells h.shape, map_eq_none_iff] at hl
      exact hl
    obtain ⟨hfresh, hborrowed⟩ := refsOf_origin h.holds b.init
    have hlive : ∀ i ∈ b.init.elim [] d.refsOf, Live d.cells i := by
      cases hi : b.init with
      | none => intro i h; cases h
      | some e =>
        refine refsOf_live fun x hx c hc => uses_live h hk hnr (mem_append_right _ ?_) hc
        simpa [valueReads, value, hi] using hx
    have horigins : (a.step (.on (.declare b))).origins = if b.ty.isTheir then
        (a.origins.erase b.name).put b.name (b.init.elim .fresh Expr.origin) else a.origins := by
      change Trail.bind a.state.env a.origins (.declare b) = _
      cases ht : b.ty.isTheir <;> simp [Trail.bind, binding, ht]
    refine h.next ?_ ?_
    · change _ = (a.state.env.declare b).symbols
      rw [Env.declare_symbols, ← h.shape]
      exact mapVal_put _ _ _ _
    · rw [horigins]
      refine h.holds.declare hparam hfind (fun ht => by simp [ht]) ?_ ?_ ?_
      · intro i hi
        split at hi
        · exact hlive i hi
        · cases hi
      · intro ho
        split
        · exact hfresh ho
        · rfl
      · intro root ho hp i hi
        split at hi
        · exact hborrowed root ho hp i hi
        · cases hi
  | .on (.simple (.act b)) =>
    have hstep : d.step (.on (.simple (.act b))) = match (simple (.act b)).binding a.state.env.isTheir with
        | some (x, e) =>
          { d with cells := d.cells.modify x fun c => { c with refs := e.elim [] d.refsOf } }
        | none => d := by
      rw [← isTheir_of_cells h.shape]
      cases b <;> rfl
    have horigins : (a.step (.on (.simple (.act b)))).origins =
        Trail.bind a.state.env a.origins (.simple (.act b)) := rfl
    have hsym : (a.state.env.step (.on (.simple (.act b)))).symbols = a.state.env.symbols := by
      cases b with
      | assign l c r => exact Env.assign_symbols _ _ _
      | eval e => rfl
    rw [hstep]
    cases hb : (simple (.act b)).binding a.state.env.isTheir with
    | none =>
      refine h.next (h.shape.trans hsym.symm) ?_
      rw [horigins, Trail.bind, hb]
      exact h.holds
    | some p =>
      obtain ⟨x, e⟩ := p
      obtain ⟨c, right, rfl, rfl, htheir⟩ := binding_act hb
      have hx : x ∉ a.state.env.params := hk.2.1 x _ hb
      have hlive : ∀ i ∈ d.refsOf right, Live d.cells i :=
        refsOf_live fun z hz c' hc => uses_live h hk hnr (mem_append_right _ hz) hc
      obtain ⟨hfresh, hborrowed⟩ := refsOf_origin h.holds (some right)
      refine h.next ?_ ?_
      · rw [mapVal_modify (h := Cell.ty)
          (g := fun c => { c with refs := (some right).elim [] d.refsOf }) fun _ => rfl, hsym,
          h.shape]
      · rw [horigins, Trail.bind, hb]
        rw [← isTheir_of_cells h.shape] at htheir
        exact h.holds.rebind hx htheir hlive hfresh hborrowed

/-- A value that is returned is a borrow of a parameter, if the return is not refused. -/
theorem returned_root {s : State} (hnr : ¬ Refuses s (.on (.ret (some e)))) {root : Option String}
    (hr : s.returnedRoot e = some root) : ∃ r, root = some r ∧ r ∈ s.env.params := by
  by_contra hno
  refine hnr (ne_nil_of_mem (a := .returnEscapes root) ?_)
  have hany : root.any (fun r => decide (r ∈ s.env.params)) = false := by
    cases root with
    | none => rfl
    | some r =>
      by_contra hr'
      exact hno ⟨r, rfl, by simpa using hr'⟩
  simp [State.step, State.ret, hr, hany]

/-- A `their` variable that is returned refers to nothing that ends with the body. -/
theorem returned_refs {y : String} (h : Refers d a) (hk : a.trail.Keeps (.on (.ret (some (.ident y)))))
    (hnr : ¬ Refuses a.state (.on (.ret (some (.ident y))))) (hc : d.cells.find y = some c) :
    ∀ i ∈ c.refs, i = 0 := by
  intro i hi
  have hty : c.ty.isTheir = true := by
    by_contra ht
    rw [h.holds.owned y c hc (by simpa using ht)] at hi
    cases hi
  have hist : a.state.env.isTheir y = true :=
    Env.isTheir_iff.mpr ⟨c.ty, by rw [lookup_of_cells h.shape, hc]; rfl, hty⟩
  have huse : y ∈ (ret (some (.ident y))).uses := mem_singleton_self y
  rcases hk.1 y huse hist with ho | hexp
  · obtain ⟨o, ho⟩ := isSome_iff_exists.mp ho
    obtain ⟨k, hat⟩ := at_of_find ho
    cases o with
    | copied => exact absurd ho (hk.2.2 hist)
    | fresh =>
      rw [h.holds.fresh k y c hat hc] at hi
      cases hi
    | borrowed root =>
      obtain ⟨depth, htable⟩ := h.recalls k y root hat
      have hret : a.state.returnedRoot (.ident y) = some (some root) := by
        rw [returnedRoot, htable]
        rfl
      obtain ⟨r, hr, hp⟩ := returned_root hnr hret
      cases hr
      exact h.holds.borrowed k y root c hat hc hp i hi
  · exact absurd (refuses_expired huse hist hexp) hnr

/-- So does every value that is returned. -/
theorem refsOf_returned (h : Refers d a) : ∀ {e : Expr},
    a.trail.Keeps (.on (.ret (some e))) → ¬ Refuses a.state (.on (.ret (some e))) →
      ∀ i ∈ d.refsOf e, i = 0
  | .borrow kind e, _, hnr, i, hi => by
    obtain ⟨r, hr, hp⟩ := returned_root hnr rfl
    exact refsOf_param h.holds kind hr hp i hi
  | .ident y, hk, hnr, i, hi => by
    cases hc : d.cells.find y with
    | none => simp [hc] at hi
    | some c => exact returned_refs h hk hnr hc i (by simpa [hc] using hi)

theorem dangles_refuses : ∀ {e : Ev Event}, Refers d a →
    a.trail.Keeps e → Dangles d e → Refuses a.state e
  | .on v, h, hk, hbad => by
    by_contra hnr
    rcases hbad with ⟨x, hx, c, hc, _, i, hi, hdead⟩ | ⟨e, he, i, hi, hne⟩
    · exact hdead (uses_live h hk hnr hx hc i hi)
    · cases v with
      | simple _ => cases he
      | ret _ =>
        cases he
        exact hne (refsOf_returned h hk hnr i hi)

/-! ## 5. The paths of a body -/

/-- A scope of the text takes variables off the scopes that bound them before, and adds none. -/
theorem framed_origins : Framed Trail.step Trail.origins
    (fun f' f => ∀ x o, f'.lookup x = some o → f.lookup x = some o) where
  refl _ _ _ h := h
  trans _ _ _ h h' x o ho := h' x o (h x o ho)
  enter _ := ⟨[], rfl⟩
  exit t f fs h := by
    have htail : (t.step .exit).origins = fs := congrArg tail h
    rw [htail]
    exact forall₂_same.mpr fun _ _ _ _ ho => ho
  on t v f fs h := by
    have hbind : (t.step (.on v)).origins = Trail.bind t.env (f :: fs) v := by
      rw [← h]
      rfl
    rw [hbind]
    unfold Trail.bind
    split
    · refine ⟨_, Scopes.erase _ fs, rfl, ?_⟩
      rw [Scopes.erase, forall₂_map_left_iff]
      refine forall₂_same.mpr fun g _ z o ho => ?_
      rw [lookup_filter_ne] at ho
      split at ho
      · cases ho
      · exact ho
    · exact ⟨f, fs, rfl, forall₂_same.mpr fun _ _ _ _ ho => ho⟩

namespace Trailed

variable (b : List (Prog Event)) (a : Trailed)

theorem symbols_scope :
    ((wrapped (textAll b)).foldl step a).state.env.symbols = a.state.env.symbols :=
  (framed_symbols.part (f := fun a : Trailed => a.state.env)
    fun a e => step_env a.state e).stack_scope_eq b a

theorem params_foldl : ∀ (es : List (Ev Event)) (a : Trailed),
    (es.foldl step a).state.env.params = a.state.env.params
  | [], _ => rfl
  | e :: es, a => by
    rw [foldl_cons, params_foldl es, step, step_env, Env.step_params]

theorem recalls_foldl : ∀ (es : List (Ev Event)) {a : Trailed}, Recalls a.state.env a.origins →
    Recalls (es.foldl step a).state.env (es.foldl step a).origins
  | [], _, h => h
  | e :: es, _, h => recalls_foldl es (recalls_step e h)

/-- What neither declares nor binds leaves everything as it was. -/
theorem inert_same (h : Trail.Inert a.state.env v) :
    (a.step (.on v)).state.env = a.state.env ∧ (a.step (.on v)).origins = a.origins := by
  have henv : (a.step (.on v)).state.env = a.state.env.step (.on v) := step_env _ _
  have horigins : (a.step (.on v)).origins = Trail.bind a.state.env a.origins v := rfl
  match v with
  | .ret _ => exact ⟨rfl, rfl⟩
  | .simple (.act b) =>
    refine ⟨henv.trans ?_, ?_⟩
    · cases b with
      | eval _ => rfl
      | assign left c right =>
        change a.state.env.assign left right = _
        unfold Env.assign
        split
        · rename_i x kind e
          split
          · split
            · rename_i hx
              simp [Trail.Inert, binding, hx] at h
            · rfl
          · rfl
        · rfl
    · rw [horigins, Trail.bind, show (simple (.act b)).binding _ = none from h]

theorem inert_all : ∀ (es : List Event) (a : Trailed), (∀ v ∈ es, Trail.Inert a.state.env v) →
    ((plain es).foldl step a).state.env = a.state.env ∧
      ((plain es).foldl step a).origins = a.origins
  | [], _, _ => ⟨rfl, rfl⟩
  | v :: es, a, h => by
    obtain ⟨henv, horigins⟩ := inert_same a (h v mem_cons_self)
    obtain ⟨h1, h2⟩ := inert_all es (a.step (.on v))
      fun v' hv' => by rw [henv]; exact h v' (mem_cons_of_mem _ hv')
    exact ⟨h1.trans henv, h2.trans horigins⟩

end Trailed

open Trailed

theorem Holds.shrink {origins' : Scopes String Origin} (H : Holds d params origins)
    (ho : List.Forall₂ (fun f' f => ∀ x o, f'.lookup x = some o → f.lookup x = some o)
      origins' origins) : Holds d params origins' := by
  have hat : ∀ k x o, Scopes.At origins' k x o → Scopes.At origins k x o := by
    intro k x o ⟨f', hf', hx⟩
    obtain ⟨hk, hget⟩ := List.getElem?_eq_some_iff.mp hf'
    have hk' : k < origins.length := ho.length_eq ▸ hk
    exact ⟨origins[k], getElem?_eq_getElem hk', (forall₂_iff_get.mp ho).2 k hk hk' x o (by simpa [hget] using hx)⟩
  exact ⟨ho.length_eq.trans H.length, H.distinct,
    fun k x o c h => H.live k x o c (hat k x o h), fun k x c h => H.fresh k x c (hat k x _ h),
    fun k x root c h => H.borrowed k x root c (hat k x _ h), H.params, H.owned⟩

/-- The rule's premises. -/
theorem refers_simulation : Simulation Memory.step Trailed.step Dangles
    (fun a e => Refuses a.state e) (fun a e => a.trail.Keeps e ∧ ¬ Refuses a.state e) Refers
    (fun a es => ∀ v ∈ es, Trail.Inert a.trail.env v)
    (fun a a' => a'.trail.origins = a.trail.origins) where
  step d a e h hok := ⟨dangles_refuses h hok.1, refers_step h hok.1 hok.2⟩
  skip d a b h := by
    refine ⟨h.shape.trans (symbols_scope b a).symm, recalls_foldl _ h.recalls, ?_⟩
    rw [params_foldl]
    exact h.holds.shrink ((framed_origins.part (f := Trailed.trail) trail_step).stack_scope b a)
  steady d a es h := by
    obtain ⟨henv, horigins⟩ := inert_all es a h
    constructor
    · intro ⟨hs, hr, hh⟩
      refine ⟨?_, ?_, ?_⟩ <;> simp only [henv, horigins] <;> assumption
    · intro ⟨hs, hr, hh⟩
      rw [henv] at hs
      rw [henv, horigins] at hr hh
      exact ⟨hs, hr, hh⟩
  back d d₀ a b hW h₀ h := by
    have hh := h.holds
    have horigins : ((wrapped (textAll b)).foldl Trailed.step a).origins = a.origins := hW
    rw [params_foldl, horigins] at hh
    exact ⟨h.shape.trans (symbols_scope b a), h₀.recalls, hh⟩

/-- Where a body begins, nothing is referred to. -/
theorem refers_start (outer : List Layer) (theirVars : List (String × (Nat × String))) (F : Function)
    (hn : (Scopes.names (State.start outer theirVars F).env.symbols).Nodup) :
    Refers (Memory.start (State.start outer theirVars F).env.symbols)
      ⟨State.start outer theirVars F,
        (State.start outer theirVars F).env.symbols.mapVal fun _ => .fresh⟩ := by
  have hcell : ∀ x c, (Memory.start (start outer theirVars F).env.symbols).cells.find x = some c →
      c.id = 0 ∧ c.refs = [] := by
    intro x c hc
    rw [Memory.start, find_mapVal] at hc
    obtain ⟨t, _, rfl⟩ := map_eq_some_iff.mp hc
    exact ⟨rfl, rfl⟩
  refine ⟨?_, ?_, ⟨?_, ?_, ?_, ?_, ?_, fun z _ => hcell z, fun x c hc _ => (hcell x c hc).2⟩⟩
  · simp [Scopes.mapVal, Function.comp_def]
  · intro k x root hat
    obtain ⟨f, hf, hx⟩ := hat
    rw [Scopes.mapVal, getElem?_map] at hf
    obtain ⟨g, _, rfl⟩ := map_eq_some_iff.mp hf
    rw [lookup_mapVal (h := fun _ => Origin.fresh)] at hx
    obtain ⟨t, _, ht⟩ := map_eq_some_iff.mp hx
    cases ht
  · simp [Scopes.mapVal]
  · rw [Memory.start, names_mapVal]
    exact hn
  · intro k x o c _ hc i hi
    rw [(hcell x c hc).2] at hi
    cases hi
  · exact fun k x c _ hc => (hcell x c hc).2
  · intro k x root c _ hc _ i hi
    rw [(hcell x c hc).2] at hi
    cases hi

/-- A `their` variable bound again in an inner block, one that lives in the body of a loop, and a view
    of a parameter that is returned:
    ```
    r<their<Int>> = view(p)
    { x<Int> = 0; r = view(x); v<Int> = r }
    while (..) { t<their<Int>> = view(p); w<Int> = t }
    s<their<Int>> = view(p)
    return s
    ``` -/
def bindsAgain : Function where
  params := [("p", .int)]
  body :=
    [.declare "r" .theirInt (.borrow .immutableView (.ident "p")),
      .block
        [.declare "x" .int .literal, .assign "r" (.borrow .immutableView (.ident "x")),
          .declare "v" .int (.ident "r")],
      .whileStatement .literal
        [.declare "t" .theirInt (.borrow .immutableView (.ident "p")),
          .declare "w" .int (.ident "t")],
      .declare "s" .theirInt (.borrow .immutableView (.ident "p")),
      .returnStatement (some (.ident "s"))]
  distinct := by decide

/-- A borrow that leaves its block by a copy:
    ```
    r<their<Int>> = ..
    { x<Int> = 0; t<their<Int>> = borrow(x); r = t }
    v<Int> = r
    ``` -/
def copiesOut : Function where
  params := []
  body :=
    [.declare "r" .theirInt .literal,
      .block
        [.declare "x" .int .literal, .declare "t" .theirInt (.borrow .mutableBorrow (.ident "x")),
          .assign "r" (.ident "t")],
      .declare "v" .int (.ident "r")]
  distinct := nodup_nil

/-- A borrow read in the next block at the same depth:
    `r<their<Int>> = ..; { x<Int> = 0; r = borrow(x) }; { v<Int> = r }` -/
def readsInSibling : Function where
  params := []
  body :=
    [.declare "r" .theirInt .literal,
      .block
        [.declare "x" .int .literal, .assign "r" (.borrow .mutableBorrow (.ident "x"))],
      .block [.declare "v" .int (.ident "r")]]
  distinct := nodup_nil

/-- `x<Int> = 0; t<their<Int>> = borrow(x); s<their<Int>> = t; return s` -/
def returnsCopy : Function where
  params := []
  body :=
    [.declare "x" .int .literal, .declare "t" .theirInt (.borrow .mutableBorrow (.ident "x")),
      .declare "s" .theirInt (.ident "t"), .returnStatement (some (.ident "s"))]
  distinct := nodup_nil

end Vyb.Semantic.Ownership
