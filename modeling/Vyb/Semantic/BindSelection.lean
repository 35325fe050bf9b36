/-
  Subject:   The bind of an aspect that is selected for a receiver, by the analyzer
             (`handleQualifiedAspectCall`) and by codegen (`monomorphizeTraitMethod`).

  Both go through `genericTraitImpls`, a hash table, and take the first entry that passes a test on the
  texts of the types. The analyzer looks at nothing but the base names. Codegen takes every argument of a
  pattern that begins with a capital letter for a type parameter, and any other for itself.

  * `analyzerBind`, `codegenBind` -- the two selections, for a table in one of its orders;
  * `Bind.Covers` -- the receiver is an instance of the self type;
  * **`byInstance_iff`** -- both select one and the same bind, of which the receiver is an instance, in every
    order of the table, iff the bind has no rival (`Unrivalled`);
  * `no_instance_selected` -- a bind for `Pair<T, Int>` and a receiver `Pair<Int, String>`.
-/
import Vyb.Lib.Search
import Vyb.Syntax.Types
import Mathlib.Data.List.DropRight

namespace Vyb.Semantic.BindSelection

open Lib Syntax List Option

/-! ## 1. The tests -/

/-- `SemanticAnalyzer::matchesPattern`. -/
def matchesPattern (concreteType pattern : String) : Bool :=
  if '<' ∉ pattern.toList then concreteType == pattern
  else if '<' ∉ concreteType.toList then false
  else baseNameOf concreteType == baseNameOf pattern

structure TypePattern where
  base : String
  args : List (List Char)

namespace TypePattern

/-- The loop over the text of the arguments; a comma at depth 0 separates two of them. -/
def splitArgs : List Char → Int → List Char → List (List Char)
  | [], _, cur => if cur.isEmpty then [] else [cur]
  | c :: cs, depth, cur =>
    if c = '<' then splitArgs cs (depth + 1) (cur ++ [c])
    else if c = '>' then splitArgs cs (depth - 1) (cur ++ [c])
    else if c = ',' ∧ depth = 0 then cur :: splitArgs cs depth []
    else splitArgs cs depth (cur ++ [c])

def trim (arg : List Char) : List Char :=
  (arg.dropWhile fun c => c == ' ' || c == '\t').rdropWhile fun c => c == ' ' || c == '\t'

/-- `TypePattern::parse`: the arguments are what stands between the first `<` and the last `>`. -/
def parse (typeStr : String) : TypePattern where
  base := baseNameOf typeStr
  args :=
    let rest := (typeStr.toList.dropWhile (· != '<')).tail
    ((splitArgs (rest.rdropWhile (· != '>')).dropLast 0 []).map trim).filter (!·.isEmpty)

/-- The heuristic for a type parameter. -/
def isTypeParam (arg : List Char) : Bool :=
  (arg.length == 1 || '<' ∉ arg) && arg.head?.any Char.isUpper

/-- The loop over the arguments, with the substitutions so far. -/
def matchArgs : List (List Char × List Char) → List (List Char × List Char) → Bool
  | _, [] => true
  | substitutions, (patternArg, concreteArg) :: rest =>
    if isTypeParam patternArg then
      match substitutions.lookup patternArg with
      | some arg => arg == concreteArg && matchArgs substitutions rest
      | none => matchArgs ((patternArg, concreteArg) :: substitutions) rest
    else patternArg == concreteArg && matchArgs substitutions rest

/-- `TypePattern::matchesPattern`. -/
def matchesPattern (pattern concrete : TypePattern) : Bool :=
  pattern.base == concrete.base && pattern.args.length == concrete.args.length &&
    matchArgs [] (pattern.args.zip concrete.args)

end TypePattern

/-! ## 2. The selections -/

/-- A bind of an aspect: its type parameters, its self type, its methods. -/
structure Bind where
  genericParams : List Ident
  selfType : Ty
  methods : List String

/-- The text under which a bind is registered. -/
def Bind.pattern (b : Bind) : String := b.selfType.toString

/-- The entries of one aspect: in `traitImpls` the binds without type parameters, in `genericTraitImpls` the
    others, in one of the orders of the table. -/
structure Binds where
  concrete : List Bind
  generic : List Bind
  concrete_params : ∀ b ∈ concrete, b.genericParams = []
  generic_params : ∀ b ∈ generic, b.genericParams ≠ []
  keys : (generic.map Bind.pattern).Nodup

/-- The entry of `traitImpls`. -/
def exactBind (concrete : List Bind) (typeStr : String) : Option Bind :=
  concrete.find? fun b => b.pattern == typeStr

/-- The analyzer's test of an entry. -/
def Bind.named (typeStr : String) (b : Bind) : Bool := matchesPattern typeStr b.pattern

/-- Codegen's test of an entry; one that lacks the method is passed over. -/
def Bind.serves (methodName concreteType : String) (b : Bind) : Bool :=
  (TypePattern.parse b.pattern).matchesPattern (.parse concreteType) && b.methods.contains methodName

/-- `handleQualifiedAspectCall`: the concrete bind comes first. -/
def analyzerBind (concrete generic : List Bind) (typeStr : String) : Option Bind :=
  (exactBind concrete typeStr).or (generic.find? (Bind.named typeStr))

/-- `monomorphizeTraitMethod`: the generic binds come first. -/
def codegenBind (concrete generic : List Bind) (methodName concreteType : String) : Option Bind :=
  (generic.find? (Bind.serves methodName concreteType)).or
    ((exactBind concrete concreteType).filter fun b => b.methods.contains methodName)

/-! ## 3. Selection by instance -/

/-- Some substitution of the bind's own type parameters makes its self type the receiver. -/
def Bind.Covers (b : Bind) (receiver : Ty) : Prop :=
  ∃ σ : List (Ident × Ty), (∀ e ∈ σ, e.1 ∈ b.genericParams) ∧
    (b.selfType.subst σ).toString = receiver.toString

/-- There is one selection, by both and in every order of the table, and the receiver is an instance of it. -/
def ByInstance (t : Binds) (methodName : String) (receiver : Ty) : Prop :=
  ∃ selected : Option Bind, (∀ generic, generic.Perm t.generic →
      analyzerBind t.concrete generic receiver.toString = selected ∧
      codegenBind t.concrete generic methodName receiver.toString = selected) ∧
    ∀ b ∈ selected, b.Covers receiver

/-- No bind is a rival: the concrete bind for the receiver has the method and no generic bind passes codegen's
    test; or there is no concrete one, and both tests leave the same generic bind, or none, and it is one of
    which the receiver is an instance. -/
def Unrivalled (t : Binds) (methodName : String) (receiver : Ty) : Prop :=
  (∃ c, exactBind t.concrete receiver.toString = some c ∧ methodName ∈ c.methods ∧
      t.generic.filter (Bind.serves methodName receiver.toString) = []) ∨
    exactBind t.concrete receiver.toString = none ∧ ∃ left : Option Bind,
      t.generic.filter (Bind.named receiver.toString) = left.toList ∧
      t.generic.filter (Bind.serves methodName receiver.toString) = left.toList ∧
      ∀ b ∈ left, b.Covers receiver

/-- A concrete bind is its own instance. -/
theorem covers_of_exactBind {concrete : List Bind} {c : Bind} {receiver : Ty}
    (h : exactBind concrete receiver.toString = some c) : c.Covers receiver := by
  have hkey : c.pattern = receiver.toString := by simpa using find?_some h
  refine ⟨[], by simp, ?_⟩
  rw [Ty.subst_nil]
  exact hkey

/-- **Bind selection is by instance exactly where no bind has a rival.** -/
theorem byInstance_iff (t : Binds) (methodName : String) (receiver : Ty) :
    ByInstance t methodName receiver ↔ Unrivalled t methodName receiver := by
  have hnd : t.generic.Nodup := Nodup.of_map _ t.keys
  unfold ByInstance Unrivalled analyzerBind codegenBind
  cases hexact : exactBind t.concrete receiver.toString with
  | none =>
    simp only [none_or, filter_none, or_none, imp_and, forall_and, find?_perm_iff hnd, and_assoc]
    simp
  | some c =>
    constructor
    · intro ⟨selected, h, _⟩
      obtain ⟨hsel, hcode⟩ := h t.generic (.refl _)
      rw [← hsel, some_or] at hcode
      -- a generic bind that codegen finds is not the concrete one
      have hnone : t.generic.find? (Bind.serves methodName receiver.toString) = none := by
        cases hfind : t.generic.find? (Bind.serves methodName receiver.toString) with
        | none => rfl
        | some a =>
          rw [hfind, some_or] at hcode
          obtain rfl := some.inj hcode
          exact absurd (t.concrete_params a (mem_of_find?_eq_some hexact))
            (t.generic_params a (mem_of_find?_eq_some hfind))
      rw [hnone, none_or, filter_eq_some_iff] at hcode
      refine Or.inl ⟨c, rfl, by simpa using hcode.2, ?_⟩
      rw [filter_eq_nil_iff]
      exact find?_eq_none.mp hnone
    · intro h
      obtain ⟨c', hc, hm, hnil⟩ | ⟨hno, _⟩ := h
      · obtain rfl := some.inj hc
        refine ⟨some c, fun generic hperm => ⟨some_or, ?_⟩, fun b hb => ?_⟩
        · rw [(find?_perm_iff (o := none) hnd).mpr hnil generic hperm, none_or]
          simp [hm]
        · obtain rfl := some.inj hb
          exact covers_of_exactBind hexact
      · cases hno

/-- A name without arguments. -/
def plain (s : String) (h : (s.toList.all fun c => c.isAlphanum || c == '_' || c == ':') = true) : Ty :=
  .named (.ofText s h) []

def pair (a b : Ty) : Ty := .named (.ofText "Pair" rfl) [a, b]

/-- `bind<T> Show -> Pair<T, Int>` -/
def showPair : Bind where
  genericParams := [.ofText "T" rfl]
  selfType := pair (plain "T" rfl) (plain "Int" rfl)
  methods := ["show"]

def pairIntString : Ty := pair (plain "Int" rfl) (plain "String" rfl)

theorem not_covers_pairIntString : ¬ showPair.Covers pairIntString := by
  intro ⟨σ, hσ, htext⟩
  have hint : σ.lookup (.ofText "Int" rfl) = none := by
    rw [lookup_eq_none_iff]
    intro e he
    have hT := mem_singleton.mp (hσ e he)
    rw [hT]
    decide
  -- whatever stands for `T`, the text ends as that of `Int` does
  have hlast := congrArg (fun s => s.toList.reverse.take 2) htext
  simp only [showPair, pair, plain, Ty.subst, Ty.substAll, hint, getD_none, Ty.toString, Ty.commaSep] at hlast
  simp [Ident.ofText, pairIntString, pair, plain, Ty.toString, Ty.commaSep] at hlast

/-- The bind is selected for a receiver that is none of its instances: the analyzer sees a `Pair`, and codegen takes
    `Int` for a type parameter. -/
theorem no_instance_selected :
    analyzerBind [] [showPair] pairIntString.toString = some showPair ∧
    codegenBind [] [showPair] "show" pairIntString.toString = some showPair ∧
    ¬ showPair.Covers pairIntString := by
  refine ⟨?_, ?_, not_covers_pairIntString⟩
  · rw [analyzerBind, exactBind, find?_nil, none_or]
    exact find?_cons_of_pos (by decide +kernel)
  · rw [codegenBind, find?_cons_of_pos (by decide +kernel)]
    rfl

end Vyb.Semantic.BindSelection
