/-
  Subject:   `Self` in a signature (`SemanticAnalyzer::substituteSelfType`).

  The concrete type comes as a text. `Self` becomes a type name read from it, whose arguments are cut at every
  comma and taken for plain names; any other type is copied, with the `Self` in it.

  **`substituteSelf_iff`** -- when this is the substitution.
-/
import Vyb.Lib.Split
import Vyb.Semantic.BindSelection

namespace Vyb.Semantic.SelfType

open Lib Syntax List BindSelection

/-- What the pass returns: a copy, or a type name with the texts of its name and of its arguments. -/
inductive Node where
  | copy (type : Ty)
  | name (base : List Char) (args : List (List Char))

/-- The node is the given type. -/
def Node.Is (type : Ty) : Node → Prop
  | copy t => t = type
  | name base args => ∃ n : Ident, ∃ ms : List Ident, type = .named n (ms.map (.named · [])) ∧
      n.text.toList = base ∧ ms.map (·.text.toList) = args

/-- The arguments behind the first `<`, without a last `>`. -/
def readArgs : List Char → List (List Char)
  | [] => []
  | _ :: argsStr =>
    ((splitSep ',' (if argsStr.getLast? = some '>' then argsStr.dropLast else argsStr)).map
      TypePattern.trim).filter (!·.isEmpty)

def substituteSelfType (returnType : Ty) (concreteType : String) : Node :=
  match returnType with
  | .named n args =>
    if n.text = "Self" then .name (concreteType.toList.takeWhile (· != '<'))
      (readArgs (concreteType.toList.dropWhile (· != '<')))
    else .copy (.named n args)
  | type => .copy type

mutual

/-- Every `Self` replaced by `T`. -/
def withSelf (T : Ty) : Ty → Ty
  | .named n args => if n.text = "Self" then T else .named n (withSelfAll T args)
  | .pointer t => .pointer (withSelf T t)
  | .vec t => .vec (withSelf T t)
  | .array t n => .array (withSelf T t) n
  | .future t => .future (withSelf T t)
  | .optional t => .optional (withSelf T t)
  | .tuple ts => .tuple (withSelfAll T ts)
  | .func ps r => .func (withSelfAll T ps) (withSelf T r)

def withSelfAll (T : Ty) : List Ty → List Ty
  | [] => []
  | t :: ts => withSelf T t :: withSelfAll T ts

end

/-- A type name whose arguments are plain names. -/
def Plain (T : Ty) : Prop :=
  ∃ n : Ident, ∃ ms : List Ident, T = .named n (ms.map (.named · [])) ∧ ∀ m ∈ ms, m.text.toList ≠ []

theorem trim_ident (m : Ident) : TypePattern.trim m.text.toList = m.text.toList := by
  have hblank : ∀ c ∈ m.text.toList, ¬ (c == ' ' || c == '\t') = true := by
    rintro c hc hb
    rcases Bool.or_eq_true_iff.mp hb with h | h
    all_goals
      rw [beq_iff_eq] at h
      exact m.notMem (by decide) (by decide) (by decide) (h ▸ hc)
  rw [TypePattern.trim, dropWhile_eq_self_iff.mpr fun h => hblank _ (getElem_mem _),
    rdropWhile_eq_self_iff.mpr fun h => hblank _ (getLast_mem h)]

theorem trim_split_blank (l : List Char) :
    (splitSep ',' (' ' :: l)).map TypePattern.trim = (splitSep ',' l).map TypePattern.trim := by
  rw [splitSep, if_neg (by decide)]
  cases h : splitSep ',' l with
  | nil => exact absurd h (splitSep_ne_nil _ l)
  | cons w ws => rfl

theorem split_names : ∀ (m : Ident) (ms : List Ident),
    (splitSep ',' (Ty.commaSep ((m :: ms).map (.named · []))).toList).map TypePattern.trim =
      (m :: ms).map (·.text.toList)
  | m, [] => by
    rw [map_singleton, Ty.commaSep, Ty.toString,
      splitSep_of_notMem _ (m.notMem (by decide) (by decide) (by decide)), map_singleton, trim_ident]
    rfl
  | m, k :: ms => by
    have ih := split_names k ms
    simp only [map_cons] at ih
    simp only [map_cons, Ty.commaSep, Ty.toString, String.toList_append]
    rw [show (", " : String).toList = ',' :: [' '] from rfl, append_assoc, cons_append, singleton_append, splitSep_append,
      map_append, trim_split_blank, ih, splitSep_of_notMem _ (m.notMem (by decide) (by decide) (by decide)),
      map_singleton, trim_ident]
    rfl

/-- **A text is read back** exactly if its type is plain. -/
theorem read_iff (T : Ty) : (Node.name (T.toString.toList.takeWhile (· != '<'))
    (readArgs (T.toString.toList.dropWhile (· != '<')))).Is T ↔ Plain T := by
  constructor
  · rintro ⟨n, ms, hT, -, hargs⟩
    refine ⟨n, ms, hT, fun m hm => ?_⟩
    have hmem := mem_map_of_mem (f := fun m : Ident => m.text.toList) hm
    rw [hargs] at hmem
    revert hmem
    cases T.toString.toList.dropWhile (· != '<') <;> simp +contextual [readArgs]
  · rintro ⟨n, ms, rfl, hne⟩
    have hn : ∀ c ∈ n.text.toList, (c != '<') = true := fun c hc =>
      bne_iff_ne.mpr fun h => n.notMem (by decide) (by decide) (by decide) (h ▸ hc)
    cases ms with
    | nil =>
      obtain ⟨hbase, hrest⟩ := span_append (r := []) hn nofun
      rw [append_nil] at hbase hrest
      rw [map_nil, Ty.toString, hbase, hrest]
      exact ⟨n, [], rfl, rfl, rfl⟩
    | cons m ms =>
      obtain ⟨hbase, hrest⟩ := span_append (r := '<' :: ((Ty.commaSep ((m :: ms).map (.named · []))).toList ++ ['>'])) hn
        (by simp)
      have htext : (Ty.named n ((m :: ms).map (.named · []))).toString.toList = n.text.toList ++
          '<' :: ((Ty.commaSep ((m :: ms).map (.named · []))).toList ++ ['>']) := by
        simp [Ty.toString]
      rw [htext, hbase, hrest, readArgs, if_pos getLast?_concat, dropLast_concat, split_names,
        filter_eq_self.mpr (by simpa using hne)]
      exact ⟨n, m :: ms, rfl, rfl, rfl⟩

def IsSelf : Ty → Prop
  | .named n _ => n.text = "Self"
  | _ => False

attribute [local simp] substituteSelfType IsSelf

/-- **When the pass substitutes**: in `Self` itself for a plain type, and where there is nothing to do. -/
theorem substituteSelf_iff (S T : Ty) : (substituteSelfType S T.toString).Is (withSelf T S) ↔
    IsSelf S ∧ Plain T ∨ ¬ IsSelf S ∧ withSelf T S = S := by
  cases S with
  | named n args =>
    by_cases hn : n.text = "Self"
    · simp [withSelf, hn, read_iff]
    · simp [hn, Node.Is, eq_comm]
  | _ => simp [Node.Is, eq_comm]

/-- `Self` for `Box<Box<Int>>`: the argument becomes a name `Box<Int>`. -/
theorem nested_argument_lost : let box : Ty → Ty := fun t => .named (.ofText "Box" rfl) [t]
    let T := box (box (.named (.ofText "Int" rfl) []))
    ¬ (substituteSelfType (.named (.ofText "Self" rfl) []) T.toString).Is
      (withSelf T (.named (.ofText "Self" rfl) [])) := by
  intro box T h
  obtain ⟨n, ms, hT, -⟩ := (read_iff T).mp h
  cases ms with
  | nil => simp [T, box] at hT
  | cons m ms => simp [T, box] at hT

end Vyb.Semantic.SelfType
