/-
  Subject:   The thread-boundary capability of a type (`vyb::thread_boundary::capability`).

  A value may be handed to another thread iff its type is `Capable`. The classifier walks the type:
  unique owners, borrows and raw pointers are refused, composites are as capable as their parts,
  a name no registry knows is undecidable. It can loop on a recursive struct, so it takes fuel.

  * `verdict` -- one step of the walk: refused, unknown, or the parts that decide;
    `capability_succ` reads the classifier through it;
  * `Clear` -- the walk ends and meets nothing refused or unknown; **`handoffCapable_iff`**: that is
    what `Capable` means;
  * `components` -- everything a type is made of: arguments, and the declared content of the name
    with the arguments substituted; `Reach` is its closure;
  * **`handoff_sound_iff`** -- for which types `Capable` really excludes every owner, borrow and
    pointer. The walk takes `view<T>` and `borrow<T>` for composites, and of a type name WITH
    arguments it looks at the arguments only, never at the fields, payloads or alias target;
  * **`classified_iff`** -- for which types the walk ends.
-/
import Vyb.Lib.DepthFirst
import Vyb.Syntax.Types

namespace Vyb.Semantic.ThreadBoundary

open Lib Syntax List Option

/-! ## 1. The classifier -/

inductive Capability where
  | capable
  | notCapable
  | undecidable
  deriving DecidableEq, Repr

/-- A struct with its fields, or an enum with the payloads of all its variants. -/
structure Decl where
  name : Ident
  params : List Ident
  parts : List Ty

structure Alias where
  name : Ident
  target : Ty

/-- The type declarations of a program, the parts as the analyzer stores them. -/
structure Registry where
  structs : List Decl
  enums : List Decl
  aliases : List Alias

namespace Registry

/-- `structs->find(key)`: generic structs are stored under their bare name too. -/
def findStruct (D : Registry) (key : String) : Option (List Ty) :=
  (D.structs.find? fun d => d.name.text == key).map (·.parts)

/-- `enums->find(key)`: a generic enum is kept as a template, not in this map. -/
def findEnum (D : Registry) (key : String) : Option (List Ty) :=
  (D.enums.find? fun d => d.params.isEmpty && d.name.text == key).map (·.parts)

end Registry

def isPlainValueType (base : String) : Bool :=
  ["Int", "Int8", "Int16", "Int32", "Int64", "Int128",
   "UInt", "UInt8", "UInt16", "UInt32", "UInt64",
   "Float", "Float32", "Float64", "Bool", "Char", "Rune",
   "String", "Type", "Byte", "Bytes", "Unit", "Void", "Nothing"].contains base

/-- A list of payloads: not capable at the first that is not, undecidable if one was. -/
def aggregate (f : Ty → Option Capability) : Bool → List Ty → Option Capability
  | undecidable, [] => some (if undecidable then .undecidable else .capable)
  | undecidable, p :: ps =>
    match f p with
    | none => none
    | some .notCapable => some .notCapable
    | some .undecidable => aggregate f true ps
    | some .capable => aggregate f undecidable ps

/-- A name without arguments: enums, then structs, each by the text and then by the base name;
    then the plain value types. -/
def lookupNamed (D : Registry) (f : Ty → Option Capability) (ts base : String) :
    Option Capability :=
  match (D.findEnum ts).or (D.findEnum base) with
  | some payloads => aggregate f false payloads
  | none =>
    match (D.findStruct ts).or (D.findStruct base) with
    | some fields => aggregate f false fields
    | none => some (if isPlainValueType base then .capable else .undecidable)

/-- `capability(type, structs, enums, claims)` without curated claims. -/
def capability (D : Registry) : Nat → Ty → Option Capability
  | 0, _ => none
  | _ + 1, .pointer _ => some .notCapable
  | fuel + 1, type =>
    let ts := type.toString
    let base := baseNameOf ts
    if base = "my" ∨ base = "their" ∨ base = "loc" ∨ base = "ptr" then some .notCapable
    else if base = "our" ∨ base = "mild" then
      match type.namedTypeArgs with
      | [] => some .undecidable
      | a :: as => aggregate (capability D fuel) false (a :: as)
    else
      match type with
      | .vec t => capability D fuel t
      | .array t _ => capability D fuel t
      | .future t => capability D fuel t
      | .tuple ts => aggregate (capability D fuel) false ts
      | .optional t => capability D fuel t
      | type =>
        match type.namedTypeArgs with
        | a :: as => aggregate (capability D fuel) false (a :: as)
        | [] => lookupNamed D (capability D fuel) ts base

/-- `handoffCapable(type, …)`: the classifier answers `Capable`. -/
def HandoffCapable (D : Registry) (type : Ty) : Prop :=
  ∃ fuel, capability D fuel type = some .capable

/-! ## 2. One step of the walk -/

inductive Verdict where
  | refused
  | unknown
  | parts (ps : List Ty)

/-- The verdict on a name without arguments. -/
def lookupVerdict (D : Registry) (ts base : String) : Verdict :=
  match (D.findEnum ts).or (D.findEnum base) with
  | some payloads => .parts payloads
  | none =>
    match (D.findStruct ts).or (D.findStruct base) with
    | some fields => .parts fields
    | none => if isPlainValueType base then .parts [] else .unknown

/-- What the classifier does at one type: answer at once, or ask these parts. -/
def verdict (D : Registry) : Ty → Verdict
  | .pointer _ => .refused
  | type =>
    let ts := type.toString
    let base := baseNameOf ts
    if base = "my" ∨ base = "their" ∨ base = "loc" ∨ base = "ptr" then .refused
    else if base = "our" ∨ base = "mild" then
      match type.namedTypeArgs with
      | [] => .unknown
      | a :: as => .parts (a :: as)
    else
      match type with
      | .vec t => .parts [t]
      | .array t _ => .parts [t]
      | .future t => .parts [t]
      | .tuple ts => .parts ts
      | .optional t => .parts [t]
      | type =>
        match type.namedTypeArgs with
        | a :: as => .parts (a :: as)
        | [] => lookupVerdict D ts base

/-- The answer for a verdict, given the answers for the parts. -/
def answer (f : Ty → Option Capability) : Verdict → Option Capability
  | .refused => some .notCapable
  | .unknown => some .undecidable
  | .parts ps => aggregate f false ps

section Classifier

variable (D : Registry) (f : Ty → Option Capability)

theorem aggregate_single (t : Ty) : aggregate f false [t] = f t := by
  unfold aggregate
  rcases f t with _ | (_ | _ | _) <;> rfl

theorem lookupNamed_eq (ts base : String) :
    lookupNamed D f ts base = answer f (lookupVerdict D ts base) := by
  unfold lookupNamed lookupVerdict
  split
  · rfl
  · split
    · rfl
    · split_ifs <;> rfl

/-- **The classifier, one step at a time.** -/
theorem capability_succ (fuel : Nat) (type : Ty) :
    capability D (fuel + 1) type = answer (capability D fuel) (verdict D type) := by
  cases type with
  | pointer t => rfl
  | vec t | array t n | future t | optional t =>
    simp only [capability, verdict, Ty.namedTypeArgs]
    split_ifs <;> simp only [answer, aggregate_single]
  | tuple ts =>
    simp only [capability, verdict, Ty.namedTypeArgs]
    split_ifs <;> simp only [answer]
  | named n args =>
    simp only [capability, verdict, Ty.namedTypeArgs]
    split_ifs
    · rfl
    · cases args <;> rfl
    · cases args with
      | cons a as => rfl
      | nil => exact lookupNamed_eq D _ _ _
  | func ps r =>
    simp only [capability, verdict, Ty.namedTypeArgs]
    split_ifs
    · rfl
    · rfl
    · exact lookupNamed_eq D _ _ _

attribute [local simp] aggregate

theorem aggregate_capable {f : Ty → Option Capability} : ∀ {ps : List Ty} {u : Bool},
    aggregate f u ps = some .capable ↔ u = false ∧ ∀ p ∈ ps, f p = some .capable
  | [], u => by cases u <;> simp
  | p :: ps, u => by
    rcases hp : f p with _ | (_ | _ | _)
    · simp [hp]
    · simp [hp, aggregate_capable]
    · simp [hp]
    · simp [hp, aggregate_capable]

/-- The walk ends, and meets neither a refused type nor an unknown name. -/
inductive Clear : Ty → Prop
  | parts {type : Ty} {ps : List Ty} : verdict D type = .parts ps → (∀ p ∈ ps, Clear p) → Clear type

theorem capability_capable {fuel : Nat} {type : Ty} : capability D (fuel + 1) type = some .capable ↔
    ∃ ps, verdict D type = .parts ps ∧ ∀ p ∈ ps, capability D fuel p = some .capable := by
  rw [capability_succ]
  cases hv : verdict D type with
  | refused | unknown => simp [answer]
  | parts ps => simp [answer, aggregate_capable]

/-- More fuel never changes an answer `Capable`. -/
theorem capability_mono : ∀ {fuel : Nat} {type : Ty}, capability D fuel type = some .capable →
    ∀ {fuel' : Nat}, fuel ≤ fuel' → capability D fuel' type = some .capable
  | 0, type, h, _, _ => by simp [capability] at h
  | fuel + 1, type, h, fuel', hle => by
    obtain ⟨k, rfl⟩ : ∃ k, fuel' = k + 1 := ⟨fuel' - 1, by omega⟩
    obtain ⟨ps, hv, h⟩ := (capability_capable D).mp h
    exact (capability_capable D).mpr ⟨ps, hv, fun p hp => capability_mono (h p hp) (by omega)⟩

theorem common_fuel : ∀ {ps : List Ty}, (∀ p ∈ ps, HandoffCapable D p) →
    ∃ fuel, ∀ p ∈ ps, capability D fuel p = some .capable
  | [], _ => ⟨0, by simp⟩
  | p :: ps, h => by
    obtain ⟨f₁, h₁⟩ := h p mem_cons_self
    obtain ⟨f₂, h₂⟩ := common_fuel fun q hq => h q (mem_cons_of_mem _ hq)
    refine ⟨max f₁ f₂, fun q hq => ?_⟩
    rcases mem_cons.mp hq with rfl | hq
    · exact capability_mono D h₁ (le_max_left _ _)
    · exact capability_mono D (h₂ q hq) (le_max_right _ _)

theorem clear_of_capable : ∀ {fuel : Nat} {type : Ty}, capability D fuel type = some .capable →
    Clear D type
  | 0, type, h => by simp [capability] at h
  | fuel + 1, type, h => by
    obtain ⟨ps, hv, h⟩ := (capability_capable D).mp h
    exact Clear.parts hv fun p hp => clear_of_capable (h p hp)

/-- **What `Capable` means.** -/
theorem handoffCapable_iff (type : Ty) : HandoffCapable D type ↔ Clear D type := by
  constructor
  · rintro ⟨fuel, h⟩
    exact clear_of_capable D h
  · intro h
    induction h with
    | @parts type ps hv _ ih =>
      obtain ⟨fuel, hf⟩ := common_fuel D ih
      exact ⟨fuel + 1, (capability_capable D).mpr ⟨ps, hv, hf⟩⟩

end Classifier

/-! ## 3. What a type is made of -/

/-- The parts of a declaration at the given arguments. -/
def Decl.inst (args : List Ty) (d : Decl) : List Ty := Ty.substAll (d.params.zip args) d.parts

/-- Type arguments, element types, and the fields, payloads and alias target of a name, with its
    arguments substituted for the parameters. -/
def components (D : Registry) : Ty → List Ty
  | .named n args =>
    args ++ ((D.structs.filter fun d => d.name = n).flatMap (Decl.inst args) ++
      ((D.enums.filter fun d => d.name = n).flatMap (Decl.inst args) ++
        (D.aliases.filter fun a => a.name = n).map (·.target)))
  | .pointer t => [t]
  | .vec t => [t]
  | .array t _ => [t]
  | .future t => [t]
  | .optional t => [t]
  | .tuple ts => ts
  | .func ps r => r :: ps

/-- Reachable through any number of components. -/
def Reach (D : Registry) : Ty → Ty → Prop :=
  Relation.ReflTransGen fun t u => u ∈ components D t

/-- The constructors that must not cross: unique owners, borrows and raw pointers. -/
def Forbidden : Ty → Prop
  | .pointer _ => True
  | .named n _ => n.text ∈ ["my", "their", "loc", "ptr", "view", "borrow"]
  | _ => False

/-- The parts the classifier asks. -/
def followed (D : Registry) (type : Ty) : List Ty :=
  match verdict D type with
  | .parts ps => ps
  | _ => []

/-- Reachable through parts the classifier asks. -/
def Walked (D : Registry) : Ty → Ty → Prop :=
  Relation.ReflTransGen fun t u => u ∈ followed D t

section Reach

variable (D : Registry)

theorem Ident.ext_text {n m : Ident} (h : n.text = m.text) : n = m := by
  cases n
  cases m
  cases h
  rfl

theorem part_mem {ds : List Decl} {found : Decl → Bool} {n : Ident} {ps : List Ty} {p : Ty}
    (hname : ∀ d, found d = true → d.name.text = n.text) (h : (ds.find? found).map (·.parts) = some ps) (hp : p ∈ ps) :
    p ∈ (ds.filter fun d => d.name = n).flatMap fun d => d.inst [] := by
  obtain ⟨d, hd, rfl⟩ := map_eq_some_iff.mp h
  have hmem : d ∈ ds.filter fun d => d.name = n := by
    rw [mem_filter]
    exact ⟨mem_of_find?_eq_some hd, by simpa using Ident.ext_text (hname d (find?_some hd))⟩
  refine mem_flatMap.mpr ⟨d, hmem, ?_⟩
  rw [Decl.inst, zip_nil_right, Ty.substAll_nil]
  exact hp

theorem findEnum_mem {n : Ident} {ps : List Ty} (h : D.findEnum n.text = some ps) {p : Ty} (hp : p ∈ ps) :
    p ∈ components D (.named n []) := by
  have hname : ∀ d : Decl, (d.params.isEmpty && d.name.text == n.text) = true → d.name.text = n.text := by simp
  exact mem_append_right _ (mem_append_right _ (mem_append_left _ (part_mem hname h hp)))

theorem findStruct_mem {n : Ident} {ps : List Ty} (h : D.findStruct n.text = some ps) {p : Ty} (hp : p ∈ ps) :
    p ∈ components D (.named n []) :=
  mem_append_right _ (mem_append_left _ (part_mem (fun _ => beq_iff_eq.mp) h hp))

theorem find_none {ds : List Decl} {f : Decl → Bool} {key : String} (hf : ∀ d, f d = true → d.name.text = key)
    (hkey : ∀ n : Ident, n.text ≠ key) : ds.find? f = none := by
  rw [find?_eq_none]
  intro d _ hd
  exact hkey d.name (hf d hd)

/-- A function type has no entry in a registry. -/
theorem lookupVerdict_func (ps : List Ty) (r : Ty) {qs : List Ty}
    (h : lookupVerdict D (Ty.func ps r).toString (baseNameOf (Ty.func ps r).toString) = .parts qs) :
    qs = [] := by
  have hne := fun n : Ident => baseName_paren_ne n
    (show (Ty.func ps r).toString = "fn(" ++ (Ty.commaSep ps ++ (") -> " ++ r.toString)) by
      simp [Ty.toString, String.append_assoc])
  have he : ∀ {key : String}, (∀ n : Ident, n.text ≠ key) → D.findEnum key = none := by
    intro key hk
    have hf : ∀ d : Decl, (d.params.isEmpty && d.name.text == key) = true → d.name.text = key := by
      intro d hd
      simp only [Bool.and_eq_true, beq_iff_eq] at hd
      exact hd.2
    rw [Registry.findEnum, find_none hf hk]
    rfl
  have hs : ∀ {key : String}, (∀ n : Ident, n.text ≠ key) → D.findStruct key = none := by
    intro key hk
    rw [Registry.findStruct, find_none (fun d hd => beq_iff_eq.mp hd) hk]
    rfl
  unfold lookupVerdict at h
  rw [he fun n => (hne n).1, he fun n => (hne n).2, hs fun n => (hne n).1, hs fun n => (hne n).2] at h
  simp only [or_none] at h
  split_ifs at h
  simpa using h.symm

/-- **Everything the classifier asks is a component.** -/
theorem followed_subset {type p : Ty} (hp : p ∈ followed D type) : p ∈ components D type := by
  unfold followed at hp
  cases hv : verdict D type with
  | refused | unknown => simp [hv] at hp
  | parts ps =>
    rw [hv] at hp
    cases type with
    | pointer t => simp [verdict] at hv
    | vec t | array t n | future t | optional t | tuple ts =>
      simp only [verdict, Ty.namedTypeArgs] at hv
      split_ifs at hv
      simpa [components, ← Verdict.parts.inj hv] using hp
    | func qs r =>
      simp only [verdict, Ty.namedTypeArgs] at hv
      split_ifs at hv
      rw [lookupVerdict_func D qs r hv] at hp
      cases hp
    | named n args =>
      cases args with
      | cons a as =>
        simp only [verdict, Ty.namedTypeArgs] at hv
        split_ifs at hv <;>
        · rw [← Verdict.parts.inj hv] at hp
          exact mem_append_left _ hp
      | nil =>
        simp only [verdict, Ty.namedTypeArgs, baseName_named] at hv
        have hts : (Ty.named n []).toString = n.text := by rw [Ty.toString]
        split_ifs at hv
        unfold lookupVerdict at hv
        rw [hts, Option.or_self, Option.or_self] at hv
        cases he : D.findEnum n.text with
        | some qs =>
          rw [he] at hv
          rw [← Verdict.parts.inj hv] at hp
          exact findEnum_mem D he hp
        | none =>
          rw [he] at hv
          cases hs : D.findStruct n.text with
          | some qs =>
            rw [hs] at hv
            rw [← Verdict.parts.inj hv] at hp
            exact findStruct_mem D hs hp
          | none =>
            simp only [hs] at hv
            split_ifs at hv
            rw [← Verdict.parts.inj hv] at hp
            cases hp

theorem walked_reach {t u : Ty} (h : Walked D t u) : Reach D t u := by
  induction h with
  | refl => exact .refl
  | tail _ hstep ih => exact ih.tail (followed_subset D hstep)

theorem walked_clear {t u : Ty} (ht : Clear D t) (h : Walked D t u) : Clear D u := by
  induction h with
  | refl => exact ht
  | tail _ hstep ih =>
    obtain ⟨hv, hps⟩ := ih
    simp only [followed, hv] at hstep
    exact hps _ hstep

/-- The refusal list stops a clear walk at every forbidden type but `view` and `borrow`. -/
theorem clear_forbidden {t : Ty} (ht : Clear D t) (hf : Forbidden t) :
    ∃ n args, t = .named n args ∧ (n.text = "view" ∨ n.text = "borrow") := by
  obtain ⟨hv, -⟩ := ht
  cases t with
  | pointer t => simp [verdict] at hv
  | named n args =>
    refine ⟨n, args, rfl, ?_⟩
    simp only [Forbidden, mem_cons, not_mem_nil, or_false] at hf
    simp only [verdict, baseName_named] at hv
    split_ifs at hv with h1 h2
    · rcases h2 with h2 | h2 <;> simp [h2] at hf
    · tauto
  | _ => exact absurd hf (by simp [Forbidden])

end Reach

/-! ## 4. Soundness of `Capable` -/

/-- On the walk from `t` stand no `view<…>` or `borrow<…>`, and what the walk passes over -- the
    declared content of a name with arguments, an alias with the name of a plain value type --
    reaches nothing forbidden. -/
def SkipsNothingForbidden (D : Registry) (t : Ty) : Prop :=
  ∀ u, Walked D t u →
    (∀ n args, u = .named n args → n.text ≠ "view" ∧ n.text ≠ "borrow") ∧
    ∀ v ∈ components D u, v ∉ followed D u → ∀ w, Reach D v w → ¬ Forbidden w

theorem no_forbidden_of_clear {D : Registry} {t : Ty} (ht : Clear D t) (hskip : SkipsNothingForbidden D t)
    {w : Ty} (hw : Reach D t w) : ¬ Forbidden w := by
  -- along the path: still on the walk, or already below something it passed over
  have key : Walked D t w ∨
      ∃ u v, Walked D t u ∧ v ∈ components D u ∧ v ∉ followed D u ∧ Reach D v w := by
    induction hw with
    | refl => exact .inl .refl
    | @tail b c _ hstep ih =>
      rcases ih with hwalk | ⟨u, v, hu, hv, hnv, hr⟩
      · by_cases hc : c ∈ followed D b
        · exact .inl (hwalk.tail hc)
        · exact .inr ⟨b, c, hwalk, hstep, hc, .refl⟩
      · exact .inr ⟨u, v, hu, hv, hnv, hr.tail hstep⟩
  rcases key with hwalk | ⟨u, v, hu, hv, hnv, hr⟩
  · intro hf
    obtain ⟨n, args, rfl, hn⟩ := clear_forbidden D (walked_clear D ht hwalk) hf
    have := (hskip _ hwalk).1 n args rfl
    tauto
  · exact (hskip u hu).2 v hv hnv w hr

/-- **Where `Capable` is sound**: the walk is stopped (it does not end, or meets something refused
    or unknown), or nothing forbidden stands on it or in what it passes over. -/
theorem handoff_sound_iff (D : Registry) (t : Ty) :
    (HandoffCapable D t → ∀ w, Reach D t w → ¬ Forbidden w) ↔
      (¬ Clear D t ∨ SkipsNothingForbidden D t) := by
  rw [handoffCapable_iff]
  constructor
  · intro h
    by_cases ht : Clear D t
    · right
      intro u hu
      refine ⟨?_, fun v hv _ w hr => ?_⟩
      · rintro n args rfl
        have hn := h ht _ (walked_reach D hu)
        constructor
        all_goals
          intro he
          exact hn (by simp [Forbidden, he])
      · exact h ht w (((walked_reach D hu).tail hv).trans hr)
    · exact .inl ht
  · rintro (h | h) ht w hw
    · exact absurd ht h
    · exact no_forbidden_of_clear ht h hw

/-- `struct Box<T> { item<my<T>> }`. -/
def boxRegistry : Registry where
  structs := [⟨.ofText "Box" (by decide), [.ofText "T" (by decide)],
    [.named (.ofText "my" (by decide)) [.named (.ofText "T" (by decide)) []]]⟩]
  enums := []
  aliases := []

/-- `Box<Int>` holds a `my<Int>` and is a handoff all the same; so is `view<Int>`. -/
theorem owner_in_generic_struct_crosses : let int : Ty := .named (.ofText "Int" (by decide)) []
    let box : Ty := .named (.ofText "Box" (by decide)) [int]
    let view : Ty := .named (.ofText "view" (by decide)) [int]
    (HandoffCapable boxRegistry box ∧ ∃ w, Reach boxRegistry box w ∧ Forbidden w) ∧
      HandoffCapable boxRegistry view ∧ Forbidden view := by
  refine ⟨⟨⟨2, by decide⟩, .named (.ofText "my" (by decide)) [.named (.ofText "Int" (by decide)) []],
    ?_, ?_⟩, ⟨2, by decide⟩, ?_⟩
  · exact Relation.ReflTransGen.single (by simp [components, boxRegistry, Decl.inst, Ty.substAll, Ty.subst])
  · simp [Forbidden, Ident.ofText]
  · simp [Forbidden, Ident.ofText]

/-! ## 5. Where the classifier ends -/

/-- The classifier refuses a type at sight. -/
def refused (D : Registry) (type : Ty) : Bool :=
  match verdict D type with
  | .refused => true
  | _ => false

theorem aggregate_refused (f : Ty → Option Capability) : ∀ (ps : List Ty) (u : Bool),
    (aggregate f u ps).map (· == .notCapable) = ps.anyM fun p => (f p).map (· == .notCapable)
  | [], u => by cases u <;> rfl
  | p :: ps, u => by
    rw [aggregate, anyM_cons]
    rcases f p with _ | (_ | _ | _)
    · rfl
    · exact aggregate_refused f ps u
    · rfl
    · exact aggregate_refused f ps true

/-- To classify a type is to search it for something refused. -/
theorem capability_eq_dfs (D : Registry) : ∀ (fuel : Nat) (type : Ty),
    (capability D fuel type).map (· == .notCapable) = dfs (refused D) (followed D) fuel type
  | 0, _ => rfl
  | fuel + 1, type => by
    rw [capability_succ, dfs, refused, followed]
    cases verdict D type with
    | refused | unknown => rfl
    | parts ps =>
      rw [answer, aggregate_refused, if_neg Bool.false_ne_true]
      simp only [capability_eq_dfs D fuel]

/-- **Where the classifier ends**: the types that it asks for form no endless chain. -/
theorem classified_iff (D : Registry) (type : Ty) : (∃ fuel, (capability D fuel type).isSome = true) ↔
    Acc (AskedAt (refused D) (followed D)) type := by
  rw [← dfs_ends_iff]
  simp only [← capability_eq_dfs, isSome_map]

/-- A linked list: `struct Node { next<Node?> }`. -/
def node : Ty := .named (.ofText "Node" rfl) []

def nodeRegistry : Registry where
  structs := [⟨.ofText "Node" rfl, [], [.optional node]⟩]
  enums := []
  aliases := []

theorem capability_node : ∀ fuel, capability nodeRegistry fuel node = none ∧
    capability nodeRegistry fuel (.optional node) = none
  | 0 => ⟨rfl, rfl⟩
  | fuel + 1 => by
    have hnode : verdict nodeRegistry node = .parts [.optional node] := rfl
    have hnext : verdict nodeRegistry (.optional node) = .parts [node] := rfl
    rw [capability_succ, capability_succ, hnode, hnext, answer, aggregate_single, answer, aggregate_single]
    exact (capability_node fuel).symm

/-- The walk through a linked list does not end. -/
theorem node_never_classified : ¬ ∃ fuel, (capability nodeRegistry fuel node).isSome = true := by
  rintro ⟨fuel, h⟩
  rw [(capability_node fuel).1] at h
  cases h

end Vyb.Semantic.ThreadBoundary
