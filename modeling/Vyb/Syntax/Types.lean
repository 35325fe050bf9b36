/-
  Subject:   Type nodes (`ast::TypeNode`), their text and the substitution of type parameters.

  Several passes work on the TEXT of a type (`toString()`), so the text is modelled as the source
  builds it. Sub-nodes are never null here.

  * `baseNameOf` -- `Box<Int>` to `Box`; `baseName_named` -- on a type name it is the name;
  * `subst_nil` -- substituting nothing changes nothing.
-/
import Mathlib.Data.List.TakeWhile
import Mathlib.Tactic

namespace Vyb.Syntax

open List String

/-- An identifier, as the lexer reads one; `:` occurs in qualified names. -/
structure Ident where
  text : String
  chars : ∀ c ∈ text.toList, c.isAlphanum = true ∨ c = '_' ∨ c = ':'
  deriving DecidableEq

/-- The identifier with a given text, its characters checked by evaluation. -/
def Ident.ofText (s : String)
    (h : (s.toList.all fun c => c.isAlphanum || c == '_' || c == ':') = true) : Ident where
  text := s
  chars := fun c hc => by
    have hok := all_eq_true.mp h c hc
    simp only [Bool.or_eq_true, beq_iff_eq] at hok
    rwa [or_assoc] at hok

/-- Type nodes: a type name with its generic arguments, and the built-in formers. -/
inductive Ty where
  | named (name : Ident) (args : List Ty)
  | pointer (pointee : Ty)
  | vec (element : Ty)
  | array (element : Ty) (size : Option Int)
  | future (result : Ty)
  | optional (contained : Ty)
  | tuple (members : List Ty)
  | func (params : List Ty) (result : Ty)

namespace Ty

mutual

/-- `TypeNode::toString()`. -/
def toString : Ty → String
  | .named n [] => n.text
  | .named n (a :: as) => n.text ++ "<" ++ commaSep (a :: as) ++ ">"
  | .pointer t => "ptr<" ++ t.toString ++ ">"
  | .vec t => "Vec<" ++ t.toString ++ ">"
  | .array t none => "[" ++ t.toString ++ "]"
  | .array t (some n) => "[" ++ t.toString ++ "; " ++ ToString.toString n ++ "]"
  | .future t => "Future<" ++ t.toString ++ ">"
  | .optional t => t.toString ++ "?"
  | .tuple ts => "(" ++ commaSep ts ++ ")"
  | .func ps r => "fn(" ++ commaSep ps ++ ") -> " ++ r.toString

def commaSep : List Ty → String
  | [] => ""
  | [t] => t.toString
  | t :: u :: ts => t.toString ++ ", " ++ commaSep (u :: ts)

end

mutual

/-- Replace type parameters; a parameter is a name without arguments. -/
def subst (σ : List (Ident × Ty)) : Ty → Ty
  | .named n [] => (σ.lookup n).getD (.named n [])
  | .named n (a :: as) => .named n (substAll σ (a :: as))
  | .pointer t => .pointer (t.subst σ)
  | .vec t => .vec (t.subst σ)
  | .array t n => .array (t.subst σ) n
  | .future t => .future (t.subst σ)
  | .optional t => .optional (t.subst σ)
  | .tuple ts => .tuple (substAll σ ts)
  | .func ps r => .func (substAll σ ps) (r.subst σ)

def substAll (σ : List (Ident × Ty)) : List Ty → List Ty
  | [] => []
  | t :: ts => t.subst σ :: substAll σ ts

end

mutual

theorem subst_nil : ∀ t : Ty, t.subst [] = t
  | .named n [] => rfl
  | .named n (a :: as) => by rw [subst, substAll_nil]
  | .pointer t | .vec t | .array t n | .future t | .optional t => by rw [subst, subst_nil t]
  | .tuple ts => by rw [subst, substAll_nil ts]
  | .func ps r => by rw [subst, substAll_nil ps, subst_nil r]

theorem substAll_nil : ∀ ts : List Ty, substAll [] ts = ts
  | [] => rfl
  | t :: ts => by rw [substAll, subst_nil t, substAll_nil ts]

end

/-- `namedTypeArgs`: the generic arguments of a type name. -/
def namedTypeArgs : Ty → List Ty
  | .named _ args => args
  | _ => []

end Ty

/-! ## Base names -/

/-- The text up to the first `<`. -/
def baseNameOf (typeStr : String) : String := String.ofList (typeStr.toList.takeWhile (· != '<'))

variable (n : Ident)

theorem Ident.notMem {c : Char} (hc : c.isAlphanum = false) (h1 : c ≠ '_') (h2 : c ≠ ':') :
    c ∉ n.text.toList := by
  intro hm
  rcases n.chars c hm with h | h | h
  · rw [hc] at h
    cases h
  · exact h1 h
  · exact h2 h

theorem takeWhile_of_notMem {l r : List Char} (h : '<' ∉ l) : (l ++ '<' :: r).takeWhile (· != '<') = l := by
  have hall : ∀ c ∈ l, (c != '<') = true := fun c hc => bne_iff_ne.mpr fun he => h (he ▸ hc)
  rw [takeWhile_append_of_pos hall, takeWhile_cons_of_neg (by simp), append_nil]

/-- **The base name of a type name is its name.** -/
theorem baseName_named (args : List Ty) : baseNameOf (Ty.named n args).toString = n.text := by
  have hn : '<' ∉ n.text.toList := n.notMem (by decide) (by decide) (by decide)
  cases args with
  | nil =>
    have hall : n.text.toList.takeWhile (· != '<') = n.text.toList := by
      rw [takeWhile_eq_self_iff]
      intro c hc
      simp only [bne_iff_ne, ne_eq]
      rintro rfl
      exact hn hc
    rw [Ty.toString, baseNameOf, hall, ofList_toList]
  | cons a as =>
    have h := takeWhile_of_notMem (r := (Ty.commaSep (a :: as) ++ ">").toList) hn
    rw [Ty.toString, baseNameOf, String.append_assoc, String.append_assoc, String.toList_append,
      String.toList_append]
    rw [show ("<" : String).toList = ['<'] from rfl, singleton_append, h, ofList_toList]

/-- A text with a `(` before every `<` has a base name that is no identifier. -/
theorem baseName_paren_ne {s r : String} (h : s = "fn(" ++ r) :
    n.text ≠ s ∧ n.text ≠ baseNameOf s := by
  have hn : '(' ∉ n.text.toList := n.notMem (by decide) (by decide) (by decide)
  subst h
  constructor
  · intro he
    apply hn
    rw [he, String.toList_append]
    exact mem_append_left _ (by decide)
  · intro he
    apply hn
    rw [he, baseNameOf, toList_ofList, String.toList_append]
    simp [show ("fn(" : String).toList = ['f', 'n', '('] from rfl]

end Vyb.Syntax
