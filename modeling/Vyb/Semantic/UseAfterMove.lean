/-
  Subject:   Use after move: what the marks of moved variables say about the executions of a body.

  A mark lives in the scope in which the move stands and is dropped with it (`exitScope`), and the
  body of a loop is visited once. So a move made in an inner scope is forgotten after it, and in the
  next round of a loop.

  * `Store` -- execution: the variables of the open scopes, and which of them are moved out of;
  * `Watch` -- for every scope of the text, the variables that are moved out of in it and those that
    scopes inside it have moved out of and left so;
  * **`keepsMoves_sound`** -- a body that reads no variable which an ended scope has left moved, and whose
    loops leave none so, has every use after a move reported;
  * `inner_moves_missed` -- a move in an inner block and a move in a loop body that are not.
-/
import Vyb.Semantic.Ownership

namespace Vyb.Semantic.Ownership

open Lib List Scopes Option State Env

/-! ## 1. Execution -/

/-- A variable in execution. -/
structure Slot where
  ty : Ty
  moved : Bool
  deriving DecidableEq, Repr

/-- The variables of the open scopes. -/
abbrev Store := Scopes String Slot

namespace Store

def isMy (d : Store) (x : String) : Bool := (d.find x).any fun v => v.ty.isMy

/-- A value is given to a destination of type `dest`: a `my` variable is moved into a `my`
    destination. -/
def give (d : Store) (dest : Ty) : Expr → Store
  | .ident y => if d.isMy y && dest.isMy then d.modify y fun v => { v with moved := true } else d
  | _ => d

/-- The type of what is assigned to. -/
def placeTy (d : Store) : Expr → Option Ty
  | .ident x => (d.find x).map Slot.ty
  | .member _ t => some t
  | .element _ _ t => some t
  | _ => none

/-- A variable is given a fresh value. -/
def revive (d : Store) : Expr → Store
  | .ident x => d.modify x fun v => { v with moved := false }
  | _ => d

def step (d : Store) : Ev Event → Store
  | .enter => [] :: d
  | .exit => d.tail
  | .on (.simple (.declare b)) => Scopes.put b.name ⟨b.ty, false⟩ (b.init.elim d (d.give b.ty))
  | .on (.simple (.act (.assign left compound right))) =>
    -- a compound assignment computes a new value from both sides, and moves neither
    let given := if compound then d else (d.placeTy left).elim d fun t => d.give t right
    given.revive left
  | .on (.simple (.act (.eval _))) => d
  | .on (.ret _) => d

/-- The execution of a body begins with no variable moved. -/
def start (symbols : Scopes String Ty) : Store := symbols.mapVal fun t => ⟨t, false⟩

end Store

/-- What finding the place to assign to reads. -/
def Expr.placeReads : Expr → List String
  | .ident _ => []
  | .member o _ => o.placeReads
  | .element a i _ => a.placeReads ++ i.reads
  | e => e.reads

/-- What an event reads on the left of an assignment. -/
def Event.targetReads : Event → List String
  | .simple (.act (.assign left compound _)) => if compound then left.reads else left.placeReads
  | _ => []

/-- A `my` variable that has been moved out of, and not been given a value since. -/
def Store.Gone (d : Store) (x : String) : Prop :=
  ∃ v, d.find x = some v ∧ v.ty.isMy = true ∧ v.moved = true

/-- The event reads a variable that has been moved out of. -/
def UsesMoved (d : Store) : Ev Event → Prop
  | .on v => ∃ x ∈ v.targetReads ++ v.valueReads, d.Gone x
  | _ => False

instance (d : Store) (x : String) : Decidable (d.Gone x) :=
  decidable_of_iff ((d.find x).any (fun v => v.ty.isMy && v.moved) = true) <| by
    unfold Store.Gone
    cases d.find x <;> simp

instance (d : Store) : ∀ e, Decidable (UsesMoved d e)
  | .on v => inferInstanceAs (Decidable (∃ x ∈ v.targetReads ++ v.valueReads, d.Gone x))
  | .enter => isFalse id
  | .exit => isFalse id

/-- On some path through the body a variable is read after it has been moved out of. -/
def Misused (symbols : Scopes String Ty) (F : Function) : Prop :=
  ∃ tr stopped, Path F.prog tr stopped ∧
    Happens Store.step UsesMoved (Store.start symbols) tr

/-! ## 2. What the scopes of the text leave moved -/

/-- What is noted for an open scope: the variables moved out of in it, and those that the scopes ended
    in it have left moved. A variable that is given a value in the scope is taken off both. -/
structure Note where
  moved : List String
  lost : List String
  deriving DecidableEq, Repr

structure Watch where
  env : Env
  notes : List Note

namespace Env

/-- The type of what is assigned to. -/
def placeTy (env : Env) : Expr → Option Ty
  | .ident x => env.lookup x
  | .member _ t => some t
  | .element _ _ t => some t
  | _ => none

/-- The variable an event moves out of. -/
def movedBy (env : Env) : Event → Option String
  | .simple (.declare b) => b.init.bind (env.moveSource b.ty)
  | .simple (.act (.assign left false right)) =>
    (env.placeTy left).bind fun t => env.moveSource t right
  | _ => none

/-- The `my` variable an event gives a value to. -/
def revivedBy (env : Env) : Event → Option String
  | .simple (.act (.assign (.ident x) _ _)) => if env.isMy x then some x else none
  | _ => none

end Env

namespace Watch

/-- The innermost note after an event. -/
def note (w : Watch) (v : Event) (n : Note) : Note :=
  let fresh := fun x => !(w.env.revivedBy v == some x)
  { moved := ((w.env.movedBy v).toList ++ n.moved).filter fresh
    lost := n.lost.filter fresh }

/-- What a scope has left moved of the variables around it goes to the scope it ends in. -/
def leave (declared : List (String × Ty)) : List Note → List Note
  | n :: m :: ns =>
    { m with
      lost := m.lost ++ (n.moved ++ n.lost).filter fun x => (declared.lookup x).isNone } :: ns
  | ns => ns.tail

def step (w : Watch) (e : Ev Event) : Watch where
  env := w.env.step e
  notes := match e with
    | .enter => ⟨[], []⟩ :: w.notes
    | .exit => leave (w.env.symbols.headD []) w.notes
    | .on v => match w.notes with
      | [] => []
      | n :: ns => w.note v n :: ns

/-- The variables that ended scopes have left moved. -/
def lostNames (w : Watch) : List String := w.notes.flatMap Note.lost

/-- A move by assignment is one that the analyzer gets to: into a variable, which is not borrowed, and
    neither variable has a name that a borrow of an ended scope was recorded for. -/
def Recorded (env : Env) : Event → Prop
  | .simple (.act (.assign left compound right)) =>
    match env.movedBy (.assign left compound right), left with
    | none, _ => True
    | some y, .ident x =>
      env.hasActiveBorrow x = false ∧ env.expired x = none ∧ env.expired y = none
    | some _, _ => False
  | _ => True

/-- A declaration hides no variable. -/
def Fresh (env : Env) : Event → Prop
  | .simple (.declare b) => env.lookup b.name = none
  | _ => True

/-- What is asked of an event where the text has it. -/
def Keeps (w : Watch) : Ev Event → Prop
  | .on v =>
    (∀ x ∈ v.valueReads, w.env.isMy x = true → x ∉ w.lostNames) ∧
      (∀ x ∈ v.targetReads, w.env.isMy x = false) ∧ Recorded w.env v ∧ Fresh w.env v
  | _ => True

/-- The event declares nothing, moves nothing and gives no `my` variable a value. -/
def Inert (env : Env) : Event → Prop
  | .simple (.declare _) => False
  | v => env.movedBy v = none ∧ env.revivedBy v = none

end Watch

open Watch

section Decide

instance Watch.decidableRecorded (env : Env) : ∀ v, Decidable (Watch.Recorded env v)
  | .simple (.act (.assign left compound right)) => by
    unfold Watch.Recorded
    dsimp only
    split <;> infer_instance
  | .simple (.act (.eval _)) => isTrue trivial
  | .simple (.declare _) => isTrue trivial
  | .ret _ => isTrue trivial

instance Watch.decidableFresh (env : Env) : ∀ v, Decidable (Watch.Fresh env v)
  | .simple (.declare b) => inferInstanceAs (Decidable (env.lookup b.name = none))
  | .simple (.act _) => isTrue trivial
  | .ret _ => isTrue trivial

instance Watch.decidableKeeps (w : Watch) : ∀ e, Decidable (w.Keeps e)
  | .on _ => inferInstanceAs (Decidable (_ ∧ _ ∧ _ ∧ _))
  | .enter => isTrue trivial
  | .exit => isTrue trivial

instance Watch.decidableInert (env : Env) : ∀ v, Decidable (Watch.Inert env v)
  | .simple (.declare _) => isFalse id
  | .simple (.act _) => inferInstanceAs (Decidable (_ ∧ _))
  | .ret _ => inferInstanceAs (Decidable (_ ∧ _))

end Decide

/-- **A body keeps its moves in sight**: it meets `Watch.Keeps` everywhere, the tests and updates of
    its loops move nothing, and the body of a loop leaves no variable moved that was not so before. -/
def KeepsMoves (env : Env) (F : Function) : Prop :=
  let w : Watch := ⟨env, env.symbols.map fun _ => ⟨[], []⟩⟩
  Always Watch.step Watch.Keeps w (text F.prog) ∧
    Steady Watch.step (fun w es => ∀ v ∈ es, Watch.Inert w.env v)
      (fun w w' => ∀ x ∈ w'.lostNames, x ∈ w.lostNames) w F.prog

instance (env : Env) (F : Function) : Decidable (KeepsMoves env F) :=
  inferInstanceAs (Decidable (_ ∧ _))

/-! ## 3. The marks and the notes follow execution -/

/-- What is known of a variable, seen from the scope with `k` scopes inside it: an ended scope has left
    it moved, it is marked, or a scope inside moves it. -/
def Known (m : Scopes String Bool) (notes : List Note) (k : Nat) (x : String) : Prop :=
  (∃ n ∈ notes, x ∈ n.lost) ∨ Scopes.find x (m.drop k) = some true ∨
    ∃ n ∈ notes.take k, x ∈ n.moved

namespace Known

variable {m : Scopes String Bool} {n : Note} {notes ns : List Note} {k : Nat} {x y z : String}

/-- A mark for another variable changes nothing, and neither does a mark that a variable is moved. -/
theorem put {b : Bool} (h : z ≠ x ∨ b = true) (hk : Known m notes k z) :
    Known (Scopes.put x b m) notes k z := by
  refine hk.imp id fun hk => hk.imp (fun hk => ?_) id
  cases k with
  | succ k => rwa [drop_succ_put]
  | zero =>
    cases m with
    | nil => exact hk
    | cons f fs =>
      rw [drop_zero] at hk ⊢
      rw [find_put (by simp)]
      split
      · rename_i hzx
        rcases h with h | rfl
        · exact absurd hzx h
        · rfl
      · exact hk

/-- The marks for two variables commute, as far as the first is concerned. -/
theorem put_put {b : Bool} (hzx : z ≠ x) (hk : Known (Scopes.put y true m) notes k z) :
    Known (Scopes.put y true (Scopes.put x b m)) notes k z := by
  refine hk.imp id fun hk => hk.imp (fun hk => ?_) id
  cases m with
  | nil => exact hk
  | cons f fs =>
    cases k with
    | succ k => exact hk
    | zero =>
      rw [drop_zero, find_put (by simp)] at hk
      rw [drop_zero, find_put (by simp [Scopes.put])]
      split at hk
      · rename_i hzy
        rw [if_pos hzy]
      · rename_i hzy
        rw [if_neg hzy, find_put (by simp), if_neg hzx]
        exact hk

/-- The innermost note is replaced by one that still has the variable. -/
theorem note {n' : Note} (hmoved : z ∈ n.moved → z ∈ n'.moved) (hlost : z ∈ n.lost → z ∈ n'.lost)
    (hk : Known m (n :: ns) k z) : Known m (n' :: ns) k z := by
  rcases hk with ⟨a, ha, hl⟩ | hk | ⟨a, ha, hmv⟩
  · refine .inl ?_
    rcases mem_cons.mp ha with rfl | ha
    · exact ⟨_, mem_cons_self, hlost hl⟩
    · exact ⟨a, mem_cons_of_mem _ ha, hl⟩
  · exact .inr (.inl hk)
  · refine .inr (Or.inr ?_)
    cases k with
    | zero => simp at ha
    | succ k =>
      rw [take_succ_cons] at ha ⊢
      rcases mem_cons.mp ha with rfl | ha
      · exact ⟨_, mem_cons_self, hmoved hmv⟩
      · exact ⟨a, mem_cons_of_mem _ ha, hmv⟩

/-- Taking another variable off the innermost note changes nothing. -/
theorem filter {p : String → Bool} (hp : p z = true) (hk : Known m (n :: ns) k z) :
    Known m ({ moved := n.moved.filter p, lost := n.lost.filter p } :: ns) k z :=
  hk.note (fun h => mem_filter.mpr ⟨h, hp⟩) fun h => mem_filter.mpr ⟨h, hp⟩

end Known

/-- Every variable that is moved out of is known to be, from its own scope and from all inside it. -/
structure Tracks (d : Store) (m : Scopes String Bool) (notes : List Note) : Prop where
  marks : m.length = d.length
  noted : notes.length = d.length
  /-- what is moved out of is not hidden -/
  visible : ∀ k x, Store.Gone (d.drop k) x → Scopes.find x ((d.mapVal Slot.ty).take k) = none
  known : ∀ k x, Store.Gone (d.drop k) x → Known m notes k x

namespace Tracks

variable {d d' : Store} {m m' : Scopes String Bool} {notes notes' : List Note} {x y : String}

/-- Nothing new is moved out of, and what is still moved out of is still known. -/
theorem weaken (T : Tracks d m notes) (hm : m'.length = m.length) (hn : notes'.length = notes.length)
    (hd : d'.mapVal Slot.ty = d.mapVal Slot.ty)
    (h : ∀ k z, Store.Gone (d'.drop k) z → Store.Gone (d.drop k) z ∧
      (Known m notes k z → Known m' notes' k z)) : Tracks d' m' notes' := by
  have hlen : d'.length = d.length := by
    have := congrArg length hd
    simpa [Scopes.mapVal] using this
  refine ⟨by rw [hm, T.marks, hlen], by rw [hn, T.noted, hlen], fun k z hz => ?_, fun k z hz => ?_⟩
  · rw [hd]
    exact T.visible k z (h k z hz).1
  · exact (h k z hz).2 (T.known k z (h k z hz).1)

theorem enter (T : Tracks d m notes) : Tracks ([] :: d) ([] :: m) (⟨[], []⟩ :: notes) := by
  refine ⟨by simp [T.marks], by simp [T.noted], fun k z hz => ?_, fun k z hz => ?_⟩
  · cases k with
    | zero => rfl
    | succ k => exact T.visible k z hz
  · cases k with
    | zero =>
      rcases T.known 0 z hz with ⟨n, hn, hl⟩ | hm | ⟨n, hn, _⟩
      · exact .inl ⟨n, mem_cons_of_mem _ hn, hl⟩
      · exact .inr (.inl hm)
      · simp at hn
    | succ k =>
      rcases T.known k z hz with ⟨n, hn, hl⟩ | hm | ⟨n, hn, hmv⟩
      · exact .inl ⟨n, mem_cons_of_mem _ hn, hl⟩
      · exact .inr (.inl hm)
      · exact .inr (Or.inr ⟨n, mem_cons_of_mem _ hn, hmv⟩)

theorem exit (T : Tracks d m notes) :
    Tracks d.tail m.tail (Watch.leave ((d.mapVal Slot.ty).headD []) notes) := by
  match d, m, notes, T with
  | [], m, notes, T =>
    obtain rfl := length_eq_zero_iff.mp T.marks
    obtain rfl := length_eq_zero_iff.mp T.noted
    exact T
  | f :: d, m, [], T => exact absurd T.noted (by simp)
  | f :: d, m, [n], T =>
    obtain rfl : d = [] := by simpa using T.noted.symm
    refine ⟨by simp [T.marks], rfl, fun k z hz => ?_, fun k z hz => ?_⟩
    all_goals
      obtain ⟨v, hv, _⟩ := hz
      simp at hv
  | f :: d, m, n :: n' :: ns, T =>
    refine ⟨by simp [T.marks], by simpa [Watch.leave] using T.noted, fun k z hz => ?_,
      fun k z hz => ?_⟩
    · have := T.visible (k + 1) z hz
      rw [Scopes.mapVal, map_cons, take_succ_cons, find_cons, or_eq_none_iff] at this
      exact this.2
    · have hfree : ((Scopes.mapVal Slot.ty (f :: d)).headD []).lookup z = none := by
        have := T.visible (k + 1) z hz
        rw [Scopes.mapVal, map_cons, take_succ_cons, find_cons, or_eq_none_iff] at this
        exact this.1
      -- what the ended scope has moved or left moved is not declared in it, so it is kept
      have hleft : z ∈ n.moved ++ n.lost → z ∈ (n'.lost ++ (n.moved ++ n.lost).filter fun x =>
          (((Scopes.mapVal Slot.ty (f :: d)).headD []).lookup x).isNone) := by
        intro hz
        refine mem_append_right _ (mem_filter.mpr ⟨hz, ?_⟩)
        rw [hfree]; rfl
      rcases T.known (k + 1) z hz with ⟨a, ha, hl⟩ | hm | ⟨a, ha, hmv⟩
      · refine .inl ?_
        simp only [mem_cons] at ha
        rcases ha with rfl | rfl | ha
        · exact ⟨_, mem_cons_self, hleft (mem_append_right _ hl)⟩
        · exact ⟨_, mem_cons_self, mem_append_left _ hl⟩
        · exact ⟨a, mem_cons_of_mem _ ha, hl⟩
      · refine .inr (.inl ?_)
        rwa [drop_tail]
      · rw [take_succ_cons] at ha
        rcases mem_cons.mp ha with rfl | ha
        · exact .inl ⟨_, mem_cons_self, hleft (mem_append_left _ hmv)⟩
        · refine .inr (Or.inr ?_)
          cases k with
          | zero => simp at ha
          | succ k =>
            rw [take_succ_cons] at ha
            rw [Watch.leave, take_succ_cons]
            rcases mem_cons.mp ha with rfl | ha
            · exact ⟨_, mem_cons_self, hmv⟩
            · exact ⟨a, mem_cons_of_mem _ ha, hmv⟩

theorem find_take_ty (d : Store) (k : Nat) (x : String) :
    Scopes.find x ((d.mapVal Slot.ty).take k) = (Scopes.find x (d.take k)).map Slot.ty := by
  rw [take_mapVal, find_mapVal]

theorem ty_modify (b : Bool) (x : String) (d : Store) :
    (Scopes.modify x (fun v : Slot => { v with moved := b }) d).mapVal Slot.ty = d.mapVal Slot.ty :=
  mapVal_modify (h := Slot.ty) (g := fun v => { v with moved := b }) (fun _ => rfl) x d

theorem gone_modify_ne {g : Slot → Slot} {k : Nat} (hxy : x ≠ y) :
    Store.Gone ((Scopes.modify y g d).drop k) x ↔ Store.Gone (d.drop k) x := by
  unfold Store.Gone
  rw [find_drop_modify, if_neg fun h => hxy h.1]

theorem move {n : Note} {ns : List Note} (T : Tracks d m (n :: ns)) (y : String) :
    Tracks (Scopes.modify y (fun v => { v with moved := true }) d) (Scopes.put y true m)
      ({ n with moved := y :: n.moved } :: ns) := by
  have hm : m ≠ [] := by
    intro h
    have h1 := T.marks
    rw [← T.noted, h] at h1
    simp at h1
  refine ⟨by simp [T.marks], by simpa using T.noted, fun k z hz => ?_, fun k z hz => ?_⟩
  · rw [ty_modify]
    by_cases hzy : z = y
    · subst hzy
      rw [find_take_ty]
      by_cases hfree : Scopes.find z (d.take k) = none
      · rw [hfree]; rfl
      · unfold Store.Gone at hz
        rw [find_drop_modify, if_neg fun h => hfree h.2] at hz
        have := T.visible k z hz
        rwa [find_take_ty] at this
    · exact T.visible k z ((gone_modify_ne hzy).mp hz)
  · by_cases hzy : z = y
    · subst hzy
      cases k with
      | zero => exact .inr (.inl (by rw [drop_zero, find_put hm, if_pos rfl]))
      | succ k => exact .inr (Or.inr ⟨_, by rw [take_succ_cons]; exact mem_cons_self,
          mem_cons_self⟩)
    · have hk := T.known k z ((gone_modify_ne hzy).mp hz)
      exact (hk.put (.inl hzy)).note (mem_cons_of_mem _) id

/-- A variable is given a value; what is known of the others is kept. -/
theorem revive (T : Tracks d m notes) (x : String) (hm : m'.length = m.length)
    (hn : notes'.length = notes.length) (h : ∀ k z, z ≠ x → Known m notes k z → Known m' notes' k z) :
    Tracks (Scopes.modify x (fun v => { v with moved := false }) d) m' notes' := by
  refine T.weaken hm hn (ty_modify false x d) fun k z hz => ?_
  by_cases hzx : z = x
  · subst hzx
    exfalso
    unfold Store.Gone at hz
    rw [find_drop_modify] at hz
    by_cases hfree : Scopes.find z (d.take k) = none
    · rw [if_pos ⟨rfl, hfree⟩] at hz
      obtain ⟨v, hv, _, hmoved⟩ := hz
      obtain ⟨w, _, rfl⟩ := map_eq_some_iff.mp hv
      exact absurd hmoved (by simp)
    · rw [if_neg fun h => hfree h.2] at hz
      have hvis := T.visible k z hz
      rw [find_take_ty, map_eq_none_iff] at hvis
      exact hfree hvis
  · exact ⟨(gone_modify_ne hzx).mp hz, h k z hzx⟩

/-- A variable is declared that hides none. -/
theorem declare (T : Tracks d m notes) (t : Ty) (hx : Scopes.find x d = none) :
    Tracks (Scopes.put x ⟨t, false⟩ d) m notes := by
  cases d with
  | nil => exact T
  | cons f fs =>
    have hsplit : ∀ k, Scopes.find x ((f :: fs).drop k) = none := by
      intro k
      rw [find_take_drop x k, or_eq_none_iff] at hx
      exact hx.2
    have hgone : ∀ k z, Store.Gone ((Scopes.put x ⟨t, false⟩ (f :: fs)).drop k) z →
        z ≠ x ∧ Store.Gone ((f :: fs).drop k) z := by
      intro k z ⟨v, hv, hmy, hmoved⟩
      have hne : z ≠ x := by
        rintro rfl
        cases k with
        | zero =>
          rw [drop_zero, find_put (by simp), if_pos rfl] at hv
          cases hv
          exact absurd hmoved (by simp)
        | succ k => rw [drop_succ_put, hsplit] at hv; cases hv
      refine ⟨hne, v, ?_, hmy, hmoved⟩
      cases k with
      | zero => rwa [drop_zero, find_put (by simp), if_neg hne] at hv
      | succ k => rwa [drop_succ_put] at hv
    refine ⟨by rw [length_put]; exact T.marks, by rw [length_put]; exact T.noted,
      fun k z hz => ?_, fun k z hz => T.known k z (hgone k z hz).2⟩
    obtain ⟨hne, hz⟩ := hgone k z hz
    have hvis := T.visible k z hz
    rw [mapVal_put]
    cases k with
    | zero => rfl
    | succ k =>
      rw [Scopes.mapVal, map_cons, take_succ_cons, find_cons] at hvis
      rw [Scopes.mapVal, map_cons, Scopes.put, take_succ_cons, find_cons, Scopes.lookup_cons, if_neg hne]
      exact hvis

end Tracks

/-! ## 4. One event -/

section Shape

variable {d : Store} {env : Env} (hs : d.mapVal Slot.ty = env.symbols)

include hs

theorem lookup_of_shape (x : String) : env.lookup x = (d.find x).map Slot.ty := by
  rw [Env.lookup, ← hs, find_mapVal]

theorem isMy_of_shape (x : String) : d.isMy x = env.isMy x := by
  rw [Env.isMy, lookup_of_shape hs, Store.isMy]
  cases d.find x <;> rfl

theorem placeTy_of_shape (e : Expr) : d.placeTy e = env.placeTy e := by
  cases e with
  | ident x => exact (lookup_of_shape hs x).symm
  | _ => rfl

theorem give_of_shape (t : Ty) (e : Expr) : d.give t e =
    (env.moveSource t e).elim d fun y => d.modify y fun v => { v with moved := true } := by
  cases e with
  | ident y =>
    rw [Store.give, Env.moveSource, isMy_of_shape hs]
    split <;> rfl
  | _ => rfl

end Shape

/-- The state of the analyzer with the notes. -/
structure Noted where
  state : State
  notes : List Note

def Noted.watch (a : Noted) : Watch := ⟨a.state.env, a.notes⟩

/-- The analyzer and the notes, along the text. -/
def Noted.step (a : Noted) (e : Ev Event) : Noted := ⟨a.state.step e, (a.watch.step e).notes⟩

theorem Noted.watch_step (a : Noted) (e : Ev Event) : (a.step e).watch = a.watch.step e := by
  simp only [watch, step, Watch.step, step_env]

theorem Noted.state_foldl (es : List (Ev Event)) (a : Noted) :
    (es.foldl step a).state = es.foldl State.step a.state :=
  foldl_map (f := Noted.state) (fun _ _ => rfl) es a

/-- The states of execution that the analyzer and the notes account for. -/
structure Follows (d : Store) (a : Noted) : Prop where
  shape : d.mapVal Slot.ty = a.state.env.symbols
  tracks : Tracks d a.state.moves a.notes

/-- A use after move is reported by the end of the event. -/
def Reports (s : State) (e : Ev Event) : Prop := ∃ x, .useAfterMove x ∈ (s.step e).errors

variable {d : Store} {a : Noted}

/-- What is used after a move is reported. -/
theorem usesMoved_reports {e : Ev Event} (h : Follows d a) (hk : a.watch.Keeps e) (hbad : UsesMoved d e) :
    Reports a.state e := by
  match e, hbad with
  | .on v, ⟨x, hx, slot, hslot, hmy, hmoved⟩ =>
    obtain ⟨hvalue, htarget, _, _⟩ := hk
    have hlook : a.state.env.lookup x = some slot.ty := by rw [lookup_of_shape h.shape, hslot]; rfl
    have hismy : a.state.env.isMy x = true := by rw [Env.isMy, hlook]; exact hmy
    rcases mem_append.mp hx with hx | hx
    · exact absurd (hismy.symm.trans (htarget x hx)) (by simp)
    · have hknown := h.tracks.known 0 x ⟨slot, hslot, hmy, hmoved⟩
      rcases hknown with ⟨n, hn, hl⟩ | hm | ⟨n, hn, _⟩
      · exact absurd (mem_flatMap.mpr ⟨n, hn, hl⟩) (hvalue x hx hismy)
      · have hid : a.state.identifier false x = .error (.useAfterMove x) := by
          rw [identifier, hlook]
          have hmark : a.state.isMoved x = true := by
            rw [drop_zero] at hm
            rw [isMoved, hm]
            rfl
          simp [hmy, hmark]
        exact ⟨x, mem_errors_of_value hx hid⟩
      · simp at hn

variable {w : Watch} {v : Event}

theorem Watch.note_inert (hm : w.env.movedBy v = none) (hr : w.env.revivedBy v = none) (n : Note) :
    w.note v n = n := by
  simp [note, hm, hr]

theorem Watch.notes_on {n : Note} {ns : List Note} (hn : w.notes = n :: ns) (v : Event) :
    (w.step (.on v)).notes = w.note v n :: ns := by
  simp only [step, hn]

theorem Watch.notes_inert (hm : w.env.movedBy v = none) (hr : w.env.revivedBy v = none) :
    (w.step (.on v)).notes = w.notes := by
  cases hn : w.notes with
  | nil => simp only [step, hn]
  | cons n ns => rw [notes_on hn, note_inert hm hr]

theorem Follows.next {d' : Store} {a : Noted} {e : Ev Event}
    (hs : d'.mapVal Slot.ty = (a.state.env.step e).symbols)
    (T : Tracks d' (a.state.step e).moves (a.watch.step e).notes) : Follows d' (a.step e) := by
  refine ⟨?_, T⟩
  change _ = (a.state.step e).env.symbols
  rw [step_env]
  exact hs

variable {m : Scopes String Bool} {notes : List Note} {y : String} {env : Env}

/-- Where no scope is open there is nothing to move. -/
theorem Tracks.cons_of_find (T : Tracks d m notes) (hs : d.mapVal Slot.ty = env.symbols)
    (hy : env.isMy y = true) : ∃ n ns, notes = n :: ns := by
  cases notes with
  | cons n ns => exact ⟨n, ns, rfl⟩
  | nil =>
    obtain rfl := length_eq_zero_iff.mp T.noted.symm
    rw [Env.isMy, lookup_of_shape hs] at hy
    exact absurd hy (by simp)

theorem Env.isMy_of_moveSource {t : Ty} {e : Expr} (h : env.moveSource t e = some y) :
    e = .ident y ∧ env.isMy y = true ∧ t.isMy = true := by
  cases e with
  | ident z =>
    simp only [moveSource, ite_none_right_eq_some, Bool.and_eq_true, some.injEq] at h
    obtain ⟨⟨hz, ht⟩, rfl⟩ := h
    exact ⟨rfl, hz, ht⟩
  | _ => cases h

attribute [local simp] Env.revivedBy Watch.note Noted.watch Store.start

theorem follows_declare {b : Declaration} (h : Follows d a) (hfresh : a.state.env.lookup b.name = none) :
    Follows (d.step (.on (.declare b))) (a.step (.on (.declare b))) := by
  have T := h.tracks
  have hfind : Scopes.find b.name d = none := by
    rw [lookup_of_shape h.shape, map_eq_none_iff] at hfresh
    exact hfresh
  have hgive : b.init.elim d (d.give b.ty) = (a.state.env.movedBy (.declare b)).elim d
      fun y => d.modify y fun v => { v with moved := true } := by
    change _ = (b.init.bind (a.state.env.moveSource b.ty)).elim d _
    cases b.init with
    | none => rfl
    | some e => exact give_of_shape h.shape b.ty e
  have hstep : d.step (.on (.declare b)) = Scopes.put b.name ⟨b.ty, false⟩
      ((a.state.env.movedBy (.declare b)).elim d
        fun y => d.modify y fun v => { v with moved := true }) := by
    rw [← hgive]
    rfl
  have hmoves : (a.state.step (.on (.declare b))).moves =
      (a.state.env.movedBy (.declare b)).elim a.state.moves fun y => a.state.moves.put y true := by
    simp only [State.step, State.simple, State.declare, movedBy]
    split
    · rename_i y hy
      rw [hy]
      rfl
    · rename_i hno
      rw [hno]
      rfl
  rw [hstep]
  refine Follows.next ?_ ?_
  · change _ = (a.state.env.declare b).symbols
    rw [declare_symbols, mapVal_put, ← h.shape]
    cases a.state.env.movedBy (.declare b) with
    | none => rfl
    | some y => rw [elim_some, Tracks.ty_modify]
  · rw [hmoves]
    cases hm : a.state.env.movedBy (.declare b) with
    | none =>
      rw [notes_inert (w := a.watch) hm rfl]
      exact T.declare b.ty hfind
    | some y =>
      obtain ⟨e, _, hsrc⟩ := bind_eq_some_iff.mp hm
      obtain ⟨n, ns, hn⟩ := T.cons_of_find h.shape (isMy_of_moveSource hsrc).2.1
      have hnote : a.watch.note (.declare b) n = { n with moved := y :: n.moved } := by
        simp [hm]
      rw [notes_on hn, hnote]
      rw [hn] at T
      refine (T.move y).declare b.ty ?_
      rw [find_modify, hfind]
      split <;> rfl

variable {s : State} {c : Bool}

/-- A move by assignment that is recorded is one that no check ends early. -/
theorem assignStops_of_recorded {x : String} {t : Ty} (ht : s.env.lookup x = some t)
    (hy : s.env.isMy y = true) (hborrow : s.env.hasActiveBorrow x = false) (hx : s.env.expired x = none)
    (hye : s.env.expired y = none) (hnr : ¬ Reports s (.on (.assign (.ident x) c (.ident y)))) :
    s.assignStops (.ident x) (.ident y) = none := by
  obtain ⟨ty, hty, hmy⟩ := isMy_iff.mp hy
  have hmark : s.isMoved y = false := by
    by_contra hm
    refine hnr ⟨y, mem_errors_of_value (mem_singleton_self y) ?_⟩
    simp [identifier, hty, hmy, hm]
  have hleft : s.identifier true x = .ok t.read := identifier_ok ht (.inl rfl) hx
  have hright : s.identifier false y = .ok ty.read := identifier_ok hty (.inr hmark) hye
  have hfree : (some x).filter s.env.hasActiveBorrow = none := by
    rw [filter_some, hborrow]
    rfl
  simp [assignStops, Expr.isLValue, Expr.borrowedRootName, hfree, expression, hleft, hright]

variable {right : Expr}

theorem follows_assign_move {left : Expr} (h : Follows d a)
    (hm : a.state.env.movedBy (.assign left c right) = some y)
    (hrec : Watch.Recorded a.state.env (.assign left c right))
    (hnr : ¬ Reports a.state (.on (.assign left c right))) :
    Follows (d.step (.on (.assign left c right))) (a.step (.on (.assign left c right))) := by
  cases c with
  | true => cases hm
  | false =>
  simp only [Watch.Recorded, hm] at hrec
  obtain ⟨t, ht, hsrc⟩ := bind_eq_some_iff.mp hm
  obtain ⟨rfl, hy, htmy⟩ := isMy_of_moveSource hsrc
  cases left with
  | ident x =>
    obtain ⟨hborrow, hx, hye⟩ := hrec
    have hxmy : a.state.env.isMy x = true := isMy_iff.mpr ⟨t, ht, htmy⟩
    have hstops : a.state.assignStops (.ident x) (.ident y) = none :=
      assignStops_of_recorded ht hy hborrow hx hye hnr
    have hmoves : (a.state.step (.on (.assign (.ident x) false (.ident y)))).moves =
        (a.state.moves.put x false).put y true := by
      change (if (a.state.assignStops _ _).isNone then a.state.assignMoves _ _ else _) = _
      rw [hstops]
      have hsource : (a.state.env.lookup x).bind (fun t => a.state.env.moveSource t (.ident y)) = some y :=
        hm
      simp only [isNone_none, ↓reduceIte, State.assignMoves, hxmy, hsource]
    have hdyn : d.step (.on (.assign (.ident x) false (.ident y))) =
        Scopes.modify x (fun v => { v with moved := false })
          (Scopes.modify y (fun v => { v with moved := true }) d) := by
      have hplace : d.placeTy (.ident x) = some t := (placeTy_of_shape h.shape _).trans ht
      simp only [Store.step, Bool.false_eq_true, ↓reduceIte, hplace, elim_some,
        give_of_shape h.shape, hsrc, Store.revive]
    obtain ⟨n, ns, hn⟩ := h.tracks.cons_of_find h.shape hy
    have hnote : a.watch.note (.assign (.ident x) false (.ident y)) n =
        { moved := (y :: n.moved).filter fun z => !(some x == some z)
          lost := n.lost.filter fun z => !(some x == some z) } := by
      simp [hm, hxmy]
    have T := h.tracks
    rw [hn] at T
    rw [hdyn]
    refine Follows.next ?_ ?_
    · rw [Tracks.ty_modify, Tracks.ty_modify, h.shape]
      exact (assign_symbols _ _ _).symm
    · rw [hmoves, notes_on hn, hnote]
      refine (T.move y).revive x (by simp) (by simp) fun k z hz hk => ?_
      have hp : (!(some x == some z)) = true := by simp [Ne.symm hz]
      exact (hk.put_put hz).filter hp
  | _ => exact hrec.elim

variable {z : String}

/-- What an assignment does to the marks leaves the other variables known. -/
theorem known_assign {x : String} {k : Nat} (hz : z ≠ x) (hk : Known s.moves notes k z) :
    Known (s.assign (.ident x) right).moves notes k z := by
  simp only [State.assign]
  split
  · simp only [State.assignMoves]
    have hrevived : Known (if s.env.isMy x then s.moves.put x false else s.moves) notes k z := by
      split
      · exact hk.put (.inl hz)
      · exact hk
    split
    · exact hrevived.put (.inr rfl)
    · exact hrevived
  · exact hk

theorem length_assign (s : State) (left right : Expr) :
    (s.assign left right).moves.length = s.moves.length := by
  simp only [State.assign]
  split
  · cases left with
    | ident x => simp only [State.assignMoves]; split <;> split <;> simp
    | _ => rfl
  · rfl

theorem follows_assign_stay {left : Expr} (h : Follows d a)
    (hm : a.state.env.movedBy (.assign left c right) = none) :
    Follows (d.step (.on (.assign left c right))) (a.step (.on (.assign left c right))) := by
  have hdyn : d.step (.on (.assign left c right)) = d.revive left := by
    cases c with
    | true => rfl
    | false =>
      simp only [Store.step, Bool.false_eq_true, ↓reduceIte, placeTy_of_shape h.shape]
      cases ht : a.state.env.placeTy left with
      | none => rfl
      | some t =>
        have hsrc : a.state.env.moveSource t right = none := by
          simpa [movedBy, ht] using hm
        simp only [elim_some, give_of_shape h.shape, hsrc, elim_none]
  have hshape : (a.state.env.step (.on (.assign left c right))).symbols = a.state.env.symbols :=
    assign_symbols _ _ _
  rw [hdyn]
  cases left with
  | ident x =>
    refine Follows.next ((Tracks.ty_modify false x d).trans (h.shape.trans hshape.symm)) ?_
    change Tracks _ (a.state.assign (.ident x) right).moves _
    by_cases hx : a.state.env.isMy x = true
    · obtain ⟨n, ns, hn⟩ := h.tracks.cons_of_find h.shape hx
      have hnote : a.watch.note (.assign (.ident x) c right) n =
          { moved := n.moved.filter fun z => !(some x == some z)
            lost := n.lost.filter fun z => !(some x == some z) } := by
        simp [hm, hx]
      have T := h.tracks
      rw [hn] at T
      rw [notes_on hn, hnote]
      refine T.revive x (length_assign _ _ _) (by simp) fun k z hz hk => ?_
      have hp : (!(some x == some z)) = true := by simp [Ne.symm hz]
      exact (known_assign hz hk).filter hp
    · have hr : a.state.env.revivedBy (.assign (.ident x) c right) = none := by
        simp [hx]
      rw [notes_inert (w := a.watch) hm hr]
      exact h.tracks.revive x (length_assign _ _ _) rfl fun k z hz hk => known_assign hz hk
  | _ =>
    refine Follows.next (h.shape.trans hshape.symm) ?_
    rw [notes_inert (w := a.watch) hm rfl]
    simp only [State.step, State.simple, State.act, State.assign, State.assignMoves, ite_self]
    exact h.tracks

/-! ## 5. The paths of a body -/

/-- The rule's premises on a single event. -/
theorem follows_step {e : Ev Event} (h : Follows d a) (hk : a.watch.Keeps e) (hnr : ¬ Reports a.state e) :
    Follows (d.step e) (a.step e) := by
  match e with
  | .enter =>
    refine Follows.next ?_ h.tracks.enter
    simp only [Env.step, ← h.shape]
    rfl
  | .exit =>
    refine Follows.next ?_ ?_
    · simp only [Env.step, ← h.shape, Store.step, Scopes.mapVal, map_tail]
    · have T := h.tracks.exit
      rw [h.shape] at T
      exact T
  | .on (.simple (.declare b)) => exact follows_declare h hk.2.2.2
  | .on (.simple (.act (.assign left c right))) =>
    cases hm : a.state.env.movedBy (.assign left c right) with
    | none => exact follows_assign_stay h hm
    | some y => exact follows_assign_move h hm hk.2.2.1 hnr
  | .on (.simple (.act (.eval v))) | .on (.ret v) =>
    refine Follows.next h.shape ?_
    rw [notes_inert rfl rfl]
    exact h.tracks

/-- The marks of the scopes around are not touched. -/
theorem State.moves_on {f : List (String × Bool)} {fs : Scopes String Bool} (h : s.moves = f :: fs) :
    ∀ v : Event, ∃ f', (s.step (.on v)).moves = f' :: fs
  | .simple (.declare b) => by
    change ∃ f', (s.declare b).moves = f' :: fs
    simp only [declare, h]
    split
    · exact ⟨_, rfl⟩
    · exact ⟨f, rfl⟩
  | .simple (.act (.assign left c right)) => by
    change ∃ f', (s.assign left right).moves = f' :: fs
    simp only [assign, assignMoves, h]
    split
    · split
      · split <;> split <;> exact ⟨_, rfl⟩
      · exact ⟨f, rfl⟩
    · exact ⟨f, rfl⟩
  | .simple (.act (.eval _)) | .ret _ => ⟨f, h⟩

/-- A scope of the text leaves the marks as they were. -/
theorem framed_moves : Framed Noted.step (fun a => a.state.moves) (fun f g => f = g) where
  refl _ := rfl
  trans _ _ _ := Eq.trans
  enter _ := ⟨[], rfl⟩
  exit a f fs h := by
    have : (a.step .exit).state.moves = fs := congrArg tail h
    rw [this]
    exact forall₂_same.mpr fun _ _ => rfl
  on a v f fs h := by
    obtain ⟨f', hf'⟩ := a.state.moves_on h v
    exact ⟨f', fs, hf', forall₂_same.mpr fun _ _ => rfl⟩

/-- A scope of the text adds to what is left moved, and to nothing else. -/
theorem framed_notes : Framed Noted.step (fun a => a.notes)
    (fun n' n => n'.moved = n.moved ∧ n.lost ⊆ n'.lost) where
  refl _ := ⟨rfl, fun _ h => h⟩
  trans _ _ _ h h' := ⟨h.1.trans h'.1, fun _ hx => h.2 (h'.2 hx)⟩
  enter _ := ⟨⟨[], []⟩, rfl⟩
  exit a f fs h := by
    have : (a.step .exit).notes = Watch.leave (a.state.env.symbols.headD []) (f :: fs) := by
      rw [← h]
      rfl
    rw [this]
    cases fs with
    | nil => exact .nil
    | cons m ns =>
      exact .cons ⟨rfl, fun _ hx => mem_append_left _ hx⟩
        (forall₂_same.mpr fun _ _ => ⟨rfl, fun _ hx => hx⟩)
  on a v f fs h := ⟨_, fs, notes_on h v, forall₂_same.mpr fun _ _ => ⟨rfl, fun _ hx => hx⟩⟩

section

variable {notes' : List Note} {k : Nat}
  (hn : List.Forall₂ (fun n' n => n'.moved = n.moved ∧ n.lost ⊆ n'.lost) notes' notes)

include hn

/-- More is left moved: what was known still is. -/
theorem Known.grow (hk : Known m notes k z) : Known m notes' k z := by
  rcases hk with ⟨n, hmem, hl⟩ | hk | ⟨n, hmem, hmv⟩
  · obtain ⟨n', hn', _, hsub⟩ := exists_of_forall₂ hn hmem
    exact .inl ⟨n', hn', hsub hl⟩
  · exact .inr (.inl hk)
  · obtain ⟨n', hn', hsame, _⟩ := exists_of_forall₂ (forall₂_take k hn) hmem
    exact .inr (Or.inr ⟨n', hn', hsame ▸ hmv⟩)

/-- Nothing more is left moved: what is known was known. -/
theorem Known.shrink (hl : ∀ x ∈ notes'.flatMap Note.lost, x ∈ notes.flatMap Note.lost) (hk : Known m notes' k z) :
    Known m notes k z := by
  rcases hk with ⟨n, hmem, hlost⟩ | hk | ⟨n, hmem, hmv⟩
  · exact .inl (mem_flatMap.mp (hl z (mem_flatMap.mpr ⟨n, hmem, hlost⟩)))
  · exact .inr (.inl hk)
  · obtain ⟨n', hn', hsame, _⟩ := exists_of_forall₂ (forall₂_take k hn).flip hmem
    exact .inr (Or.inr ⟨n', hn', hsame ▸ hmv⟩)

end

/-- What neither declares, moves nor revives leaves everything as it was. -/
theorem inert_same (a : Noted) : ∀ {v : Event}, Watch.Inert a.state.env v →
    (a.step (.on v)).state.env.symbols = a.state.env.symbols ∧
      (a.step (.on v)).state.moves = a.state.moves ∧ (a.step (.on v)).notes = a.notes
  | .simple (.declare _), h => h.elim
  | .simple (.act (.eval _)), h | .ret _, h => ⟨rfl, rfl, notes_inert rfl rfl⟩
  | .simple (.act (.assign left c right)), h => by
    refine ⟨assign_symbols _ _ _, ?_, notes_inert h.1 h.2⟩
    change (a.state.assign left right).moves = _
    simp only [State.assign]
    split
    · cases left with
      | ident x =>
        have hx : a.state.env.isMy x = false := by simpa using h.2
        have hsrc : (a.state.env.lookup x).bind (fun t => a.state.env.moveSource t right) =
            none := by
          rw [bind_eq_none_iff]
          intro t ht
          cases hs : a.state.env.moveSource t right with
          | none => rfl
          | some y =>
            have := isMy_iff.mpr ⟨t, ht, (isMy_of_moveSource hs).2.2⟩
            rw [hx] at this
            cases this
        simp only [State.assignMoves, hx, hsrc, Bool.false_eq_true, ↓reduceIte]
      | _ => rfl
    · rfl

/-- Only the symbols say whether an event is inert. -/
theorem inert_congr {env' : Env} (h : env'.symbols = env.symbols) (hv : Watch.Inert env v) :
    Watch.Inert env' v := by
  have hmy : env'.isMy = env.isMy := by
    funext x
    simp only [Env.isMy, Env.lookup, h]
  have hsrc : env'.moveSource = env.moveSource := by
    funext t e
    cases e <;> simp [Env.moveSource, hmy]
  have hplace : env'.placeTy = env.placeTy := by
    funext e
    cases e <;> simp [Env.placeTy, Env.lookup, h]
  have hm : env'.movedBy = env.movedBy := by
    funext v
    simp only [movedBy, hsrc, hplace]
  have hr : env'.revivedBy = env.revivedBy := by
    funext v
    simp only [revivedBy, hmy]
  cases v with
  | ret _ => exact ⟨rfl, rfl⟩
  | simple c =>
    cases c with
    | declare _ => exact hv
    | act _ => exact ⟨hm ▸ hv.1, hr ▸ hv.2⟩

theorem inert_all : ∀ (es : List Event) (a : Noted), (∀ v ∈ es, Watch.Inert a.state.env v) →
    ((plain es).foldl Noted.step a).state.env.symbols = a.state.env.symbols ∧
      ((plain es).foldl Noted.step a).state.moves = a.state.moves ∧
      ((plain es).foldl Noted.step a).notes = a.notes
  | [], _, _ => ⟨rfl, rfl, rfl⟩
  | v :: es, a, h => by
    obtain ⟨hsym, hmoves, hnotes⟩ := inert_same a (h v mem_cons_self)
    obtain ⟨h1, h2, h3⟩ := inert_all es (a.step (.on v))
      fun v' hv' => inert_congr hsym (h v' (mem_cons_of_mem _ hv'))
    exact ⟨h1.trans hsym, h2.trans hmoves, h3.trans hnotes⟩

theorem Noted.symbols_scope (b : List (Prog Event)) (a : Noted) :
    ((wrapped (textAll b)).foldl Noted.step a).state.env.symbols = a.state.env.symbols :=
  (framed_symbols.part (f := fun a : Noted => a.state.env)
    fun a e => step_env a.state e).stack_scope_eq b a

/-- The rule's premises. -/
theorem follows_simulation : Simulation Store.step Noted.step UsesMoved
    (fun a e => Reports a.state e) (fun a e => a.watch.Keeps e ∧ ¬ Reports a.state e) Follows
    (fun a es => ∀ v ∈ es, Watch.Inert a.watch.env v)
    (fun a a' => ∀ x ∈ a'.watch.lostNames, x ∈ a.watch.lostNames) where
  step d a e h hok := ⟨usesMoved_reports h hok.1, follows_step h hok.1 hok.2⟩
  skip d a b h := by
    refine ⟨h.shape.trans (Noted.symbols_scope b a).symm, ?_⟩
    rw [framed_moves.stack_scope_eq b a]
    have hn := framed_notes.stack_scope b a
    exact h.tracks.weaken rfl hn.length_eq rfl fun k z hz => ⟨hz, Known.grow hn⟩
  steady d a es h := by
    obtain ⟨hsym, hmoves, hnotes⟩ := inert_all es a h
    constructor
    · intro ⟨hs, T⟩
      exact ⟨hs.trans hsym.symm, by rw [hmoves, hnotes]; exact T⟩
    · intro ⟨hs, T⟩
      rw [hmoves, hnotes] at T
      exact ⟨hs.trans hsym, T⟩
  back d _ a b hW _ h := by
    have hT := h.tracks
    rw [framed_moves.stack_scope_eq b a] at hT
    have hn := framed_notes.stack_scope b a
    exact ⟨h.shape.trans (Noted.symbols_scope b a),
      hT.weaken rfl hn.length_eq.symm rfl fun k z hz => ⟨hz, Known.shrink hn hW⟩⟩

/-- Where a body begins, nothing is moved out of. -/
theorem follows_start (outer : List Layer) (theirVars : List (String × (Nat × String))) (F : Function) :
    Follows (Store.start (State.start outer theirVars F).env.symbols)
      ⟨State.start outer theirVars F,
        (State.start outer theirVars F).env.symbols.map fun _ => ⟨[], []⟩⟩ := by
  have hgone : ∀ k x, ¬ Store.Gone
      ((Store.start (start outer theirVars F).env.symbols).drop k) x := by
    intro k x ⟨v, hv, _, hmoved⟩
    rw [Store.start, drop_mapVal, find_mapVal] at hv
    obtain ⟨t, _, rfl⟩ := map_eq_some_iff.mp hv
    exact absurd hmoved (by simp)
  refine ⟨?_, ?_, ?_, fun k x hx => absurd hx (hgone k x), fun k x hx => absurd hx (hgone k x)⟩
  · simp [Scopes.mapVal, Function.comp_def]
  · simp [Scopes.mapVal, start]
  · simp [Scopes.mapVal]

/-- A loop that hands a value on and takes a new one, and a use after the last value is given away:
    ```
    x<my<Int>> = my(0)
    while (..) { y<my<Int>> = x; x = my(1) }
    z<my<Int>> = x
    w<Int> = x
    ``` -/
def handsOn : Function where
  params := []
  body :=
    [.declare "x" .myInt .literal,
      .whileStatement .literal
        [.declare "y" .myInt (.ident "x"), .assign "x" .literal],
      .declare "z" .myInt (.ident "x"),
      .declare "w" .int (.ident "x")]
  distinct := nodup_nil

theorem handsOn_misused : Misused (State.start [] [] handsOn).env.symbols handsOn := by
  refine ⟨_, false, .scope (.cons (.run _) (.cons (.loop .done) (.cons (.run _) (.cons (.run _)
    .nil)))), ?_⟩
  decide

/-- `x<my<Int>> = my(0); { y<my<Int>> = x }; w<Int> = x` -/
def movesInBlock : Function where
  params := []
  body :=
    [.declare "x" .myInt .literal,
      .block [.declare "y" .myInt (.ident "x")],
      .declare "w" .int (.ident "x")]
  distinct := nodup_nil

/-- `x<my<Int>> = my(0); while (..) { y<my<Int>> = x }` -/
def movesInLoop : Function where
  params := []
  body :=
    [.declare "x" .myInt .literal,
      .whileStatement .literal [.declare "y" .myInt (.ident "x")]]
  distinct := nodup_nil

end Vyb.Semantic.Ownership
