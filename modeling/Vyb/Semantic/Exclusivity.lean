/-
  Subject:   Borrow exclusivity: `aggregateBorrowState` and `recordBorrow` over a stack of scopes.

  The analyzer counts the borrows of a root in the scope they are made in, adds the counts of all open
  scopes up when a borrow is requested, and forgets those of a scope that is left.

  * `held` -- what the counts stand for: the borrows made in the open scopes, by the history alone;
  * `step_held` -- the counts are the numbers of those borrows, through every request;
  * **`borrows_exclusive`** -- along every history without a conflict a root has one mutable borrow and no
    view, or no mutable borrow.
-/
import Vyb.Semantic.Ownership

namespace Vyb.Semantic.Ownership

open List

/-- `BorrowState` -/
structure BorrowState where
  mutableBorrows : Nat
  immutableBorrows : Nat

/-- `borrowScopes`, the innermost first; a name that has no entry has no borrow. -/
abbrev BorrowScopes := List (String → BorrowState)

def aggregateBorrowState (scopes : BorrowScopes) (rootName : String) : BorrowState :=
  ⟨(scopes.map fun scope => (scope rootName).mutableBorrows).sum,
    (scopes.map fun scope => (scope rootName).immutableBorrows).sum⟩

/-- One more borrow of a kind. -/
def BorrowState.add (b : BorrowState) : BorrowKind → BorrowState
  | .mutableBorrow => { b with mutableBorrows := b.mutableBorrows + 1 }
  | .immutableView => { b with immutableBorrows := b.immutableBorrows + 1 }

/-- `borrowScopes.back()[rootName]++`, with a scope made if there is none. -/
def countBorrow (scopes : BorrowScopes) (rootName : String) (kind : BorrowKind) : BorrowScopes :=
  let scope := scopes.headD fun _ => ⟨0, 0⟩
  Function.update scope rootName ((scope rootName).add kind) :: scopes.tail

/-- `recordBorrow`: the scopes, or the conflict. -/
def recordBorrow (scopes : BorrowScopes) (rootName : String) (kind : BorrowKind) : Except Error BorrowScopes :=
  let active := aggregateBorrowState scopes rootName
  if rootName = "" then .ok scopes
  else match kind with
    | .mutableBorrow =>
      if active.mutableBorrows > 0 ∨ active.immutableBorrows > 0 then .error (.mutableWhileBorrowed rootName)
      else .ok (countBorrow scopes rootName kind)
    | .immutableView =>
      if active.mutableBorrows > 0 then .error (.viewWhileMutable rootName)
      else .ok (countBorrow scopes rootName kind)

inductive Request where
  | enterScope
  | exitScope
  | borrow (rootName : String) (kind : BorrowKind)

def Request.step (scopes : BorrowScopes) : Request → Except Error BorrowScopes
  | .enterScope => .ok ((fun _ => ⟨0, 0⟩) :: scopes)
  | .exitScope => .ok scopes.tail
  | .borrow rootName kind => recordBorrow scopes rootName kind

/-- The borrows made in each open scope, after one more request. -/
def held (h : List (List (String × BorrowKind))) : Request → List (List (String × BorrowKind))
  | .enterScope => [] :: h
  | .exitScope => h.tail
  | .borrow rootName kind => if rootName = "" then h else ((rootName, kind) :: h.headD []) :: h.tail

/-- At most one mutable borrow and no view, or no mutable borrow. -/
def Exclusive (h : List (List (String × BorrowKind))) (root : String) : Prop :=
  h.flatten.count (root, .mutableBorrow) ≤ 1 ∧ h.flatten.count (root, .immutableView) = 0 ∨
    h.flatten.count (root, .mutableBorrow) = 0

/-- The counts of the borrows of a scope. -/
def counts (f : List (String × BorrowKind)) : String → BorrowState := fun root =>
  ⟨f.count (root, .mutableBorrow), f.count (root, .immutableView)⟩

variable {h : List (List (String × BorrowKind))}

theorem aggregate_counts (root : String) : aggregateBorrowState (h.map counts) root =
    ⟨h.flatten.count (root, .mutableBorrow), h.flatten.count (root, .immutableView)⟩ := by
  simp [aggregateBorrowState, count_flatten, Function.comp_def, counts]

theorem counts_cons (f : List (String × BorrowKind)) (root : String) (kind : BorrowKind) :
    Function.update (counts f) root ((counts f root).add kind) = counts ((root, kind) :: f) := by
  funext x
  by_cases hx : x = root
  · subst hx
    cases kind <;> simp [counts, BorrowState.add]
  · cases kind <;> simp [counts, hx, Ne.symm hx]

theorem countBorrow_counts (root : String) (kind : BorrowKind) :
    countBorrow (h.map counts) root kind = (((root, kind) :: h.headD []) :: h.tail).map counts := by
  rw [map_cons, ← counts_cons]
  cases h <;> rfl

/-- What a borrow that is granted does to the number of borrows of a root. -/
theorem count_held {root : String} (hroot : root ≠ "") (kind : BorrowKind) (b : String × BorrowKind) :
    (held h (.borrow root kind)).flatten.count b = h.flatten.count b + if (root, kind) = b then 1 else 0 := by
  rw [held, if_neg hroot]
  cases h <;> simp [count_cons]

/-- **One request**: the counts stay the numbers of the borrows held, and exclusivity is kept. -/
theorem step_held {e : Request} {scopes : BorrowScopes} (hstep : e.step (h.map counts) = .ok scopes)
    (hex : ∀ root, Exclusive h root) : scopes = (held h e).map counts ∧ ∀ root, Exclusive (held h e) root := by
  cases e with
  | enterScope =>
    cases hstep
    exact ⟨rfl, hex⟩
  | exitScope =>
    cases hstep
    refine ⟨by simp [held], fun root => ?_⟩
    have hle : ∀ b, h.tail.flatten.count b ≤ h.flatten.count b := by
      intro b
      cases h <;> simp
    have hm := hle (root, .mutableBorrow)
    have hv := hle (root, .immutableView)
    have := hex root
    simp only [Exclusive, held] at this ⊢
    omega
  | borrow x kind =>
    simp only [Request.step, recordBorrow, aggregate_counts] at hstep
    split at hstep
    · rename_i hx
      cases hstep
      simpa [held, hx] using hex
    · rename_i hx
      have hscopes : scopes = countBorrow (h.map counts) x kind := by
        cases kind <;> simp only at hstep <;> split at hstep <;> cases hstep <;> rfl
      refine ⟨by rw [hscopes, countBorrow_counts, held, if_neg hx], fun root => ?_⟩
      have := hex root
      simp only [Exclusive, count_held hx] at this ⊢
      -- only the root that is borrowed changes, and it passed the check
      by_cases hr : x = root
      · subst hr
        cases kind <;> simp only at hstep <;> split at hstep <;> cases hstep <;>
          simp only [Prod.mk.injEq, reduceCtorEq, and_false, ↓reduceIte] <;> omega
      · simpa [hr] using this

theorem run_held : ∀ {requests : List Request} {h : List (List (String × BorrowKind))} {scopes : BorrowScopes},
    (∀ root, Exclusive h root) → requests.foldlM Request.step (h.map counts) = .ok scopes →
    ∀ {pre}, pre <+: requests → ∀ root, Exclusive (pre.foldl held h) root
  | [], h, _, hex, _, pre, hpre, root => by
    rw [prefix_nil.mp hpre]
    exact hex root
  | e :: requests, h, scopes, hex, hrun, pre, hpre, root => by
    rw [foldlM_cons] at hrun
    cases hstep : e.step (h.map counts) with
    | error _ => rw [hstep] at hrun; cases hrun
    | ok s =>
      rw [hstep] at hrun
      obtain ⟨rfl, hex'⟩ := step_held hstep hex
      rcases prefix_cons_iff.mp hpre with rfl | ⟨pre, rfl, hmore⟩
      · exact hex root
      · exact run_held hex' hrun hmore root

/-- **Borrow exclusivity.** At every point of a history of scope entries, exits and borrow requests on which no
    conflict is reported, each root has at most one mutable borrow and no view, or no mutable borrow. -/
theorem borrows_exclusive {requests : List Request} {scopes : BorrowScopes}
    (h : requests.foldlM Request.step [] = .ok scopes) {pre : List Request} (hpre : pre <+: requests)
    (root : String) : Exclusive (pre.foldl held []) root :=
  run_held (h := []) (fun _ => Or.inr rfl) h hpre root

/-- A mutable borrow in an inner scope, and a view once that scope is left. -/
theorem borrows_exclusive_nested : Exclusive
    ([.enterScope, .enterScope, .borrow "x" .mutableBorrow, .exitScope, .borrow "x" .immutableView].foldl held [])
    "x" :=
  @borrows_exclusive [.enterScope, .enterScope, .borrow "x" .mutableBorrow, .exitScope,
    .borrow "x" .immutableView] _ rfl _ prefix_rfl "x"

end Vyb.Semantic.Ownership
