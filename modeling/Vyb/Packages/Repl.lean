/-
  Subject:   The REPL (`src/repl.cpp`): what an entry that fails leaves behind.

  An entry is added to the session, and taken back if its program then fails. A statement is
  added line by line, and one line is taken back.

  * **`failed_kept_iff`** -- the entries that leave no trace when they fail;
  * `session_runs` -- with these a session always runs.
-/
import Vyb.Packages.Trust

namespace Vyb.Packages.Repl

open List

inductive Kind
  | decl
  | assign
  | stmt
  | expr

def startsWithWord (s w : Text) : Bool :=
  w.isPrefixOf s && !(s.drop w.length).head?.any fun c => c.isAlphanum || c == '_'

/-- A character between the one before it and the one behind it. -/
abbrev Placed := Option Char × Char × Option Char

/-- The characters outside strings and before a comment. -/
def outside (prev : Option Char) : Bool → Text → List Placed
  | _, [] => []
  | true, '\\' :: c :: cs => outside (some c) true cs
  | true, c :: cs => outside (some c) (c != '"') cs
  | false, c :: cs =>
    if c = '"' then outside (some c) true cs
    else if c = '#' ∨ c = '/' ∧ cs.head? = some '/' then []
    else (prev, c, cs.head?) :: outside (some c) false cs

/-- The loop of `containsTopLevelAssign`. In front of everything `strchr` finds the 0 before the `=`. -/
def assigns : Nat → List Placed → Bool
  | _, [] => false
  | depth, (prev, c, next) :: cs =>
    if c ∈ ['(', '[', '\x7b'] then assigns (depth + 1) cs
    else if c ∈ [')', ']', '\x7d'] then assigns (depth - 1) cs
    else (c == '=' && depth == 0 && next != some '=' && next != some '>' &&
      prev.any fun p => p ∉ "<>!=+-*/%&|^".toList) || assigns depth cs

/-- The loop of `isFunctionDeclLine`. -/
def arrow : Nat → Bool → List Placed → Bool
  | _, _, [] => false
  | depth, sawOpen, (_, c, next) :: cs =>
    if c = '(' then arrow (depth + 1) true cs
    else if c = ')' ∧ depth ≠ 0 then arrow (depth - 1) sawOpen cs
    else (c == '-' && next == some '>' && depth == 0 && sawOpen) || arrow depth sawOpen cs

def isFunctionDeclLine (s : Text) : Bool :=
  (s.head?.any fun c => c.isAlpha || c == '_') && arrow 0 false (outside none false s)

def classify (line : Text) : Kind :=
  let s := trim line
  let starts (kws : List String) := kws.any fun kw => startsWithWord s kw.toList
  if starts ["import", "struct", "enum", "type", "aspect", "bind", "class"] || isFunctionDeclLine s then .decl
  else if assigns 0 (outside none false s) then .assign
  else if starts ["if", "for", "while", "return", "match", "else", "break", "continue", "assert", "println",
    "print", "eprintln", "flush"] then .stmt
  else .expr

structure Session where
  decls : List Text
  body : List Text
  deriving DecidableEq

def program (decls body : List Text) : Text :=
  decls.flatMap (· ++ ['\n']) ++ "\nmain() -> \x7b\n".toList ++ body.flatMap (· ++ ['\n']) ++ "\x7d\n".toList

def bodyLines (entry : Text) : List Text :=
  ((getLines entry).filter fun l => !(trim l).isEmpty).map ("    ".toList ++ ·)

/-- The session after an entry, and whether the program ran; `run` is the compiler and the program. -/
def evaluate (run : Text → Bool) (s : Session) (entry : Text) : Session × Bool :=
  match classify entry with
  | .decl =>
    let decls := s.decls ++ [entry]
    if run (program decls s.body) then (⟨decls, s.body⟩, true) else (⟨decls.dropLast, s.body⟩, false)
  | .assign | .stmt =>
    let body := s.body ++ bodyLines entry
    if run (program s.decls body) then (⟨s.decls, body⟩, true) else (⟨s.decls, body.dropLast⟩, false)
  | .expr => (s, run (program s.decls (s.body ++ ["    println(".toList ++ trim entry ++ [')']])))

theorem dropLast_lines_iff (ls : List Text) : (∀ body, (body ++ ls).dropLast = body) ↔ ls.length = 1 := by
  constructor
  · intro h
    have hlen := congrArg length (h [[]])
    simp at hlen
    exact hlen
  · intro h body
    obtain ⟨l, rfl⟩ := length_eq_one_iff.mp h
    exact dropLast_concat

/-- **An entry that fails leaves no trace** exactly if it is a declaration, an expression or one line. -/
theorem failed_kept_iff (entry : Text) :
    (∀ run s, (evaluate run s entry).2 = false → (evaluate run s entry).1 = s) ↔
      classify entry = .decl ∨ classify entry = .expr ∨ (bodyLines entry).length = 1 := by
  cases hk : classify entry with
  | decl =>
    refine ⟨fun _ => .inl rfl, fun _ run s => ?_⟩
    simp only [evaluate, hk]
    split
    · exact nofun
    · intro _
      rw [dropLast_concat]
  | expr =>
    refine ⟨fun _ => .inr (.inl rfl), fun _ run s _ => ?_⟩
    rw [evaluate, hk]
  | assign | stmt =>
    simp only [evaluate, hk, reduceCtorEq, false_or, ← dropLast_lines_iff]
    constructor
    · intro h body
      exact congrArg Session.body (h (fun _ => false) ⟨[], body⟩ rfl)
    · intro h run s
      split
      · exact nofun
      · intro _
        rw [h]

/-- The first of the two lines stays. -/
theorem failed_line_left : evaluate (fun _ => false) ⟨[], []⟩ "x = f(\n1)".toList =
    (⟨[], ["    x = f(".toList]⟩, false) := by decide

variable {run : Text → Bool}

def Session.Runs (run : Text → Bool) (s : Session) : Prop := run (program s.decls s.body) = true

theorem Session.Runs.evaluate {s : Session} (h : s.Runs run) {entry : Text}
    (hentry : classify entry = .decl ∨ classify entry = .expr ∨ (bodyLines entry).length = 1) :
    (evaluate run s entry).1.Runs run := by
  unfold Repl.evaluate
  cases hk : classify entry with
  | expr => exact h
  | decl =>
    dsimp only
    split
    · assumption
    · rwa [dropLast_concat]
  | assign | stmt =>
    simp only [hk, reduceCtorEq, false_or] at hentry
    dsimp only
    split
    · assumption
    · rwa [(dropLast_lines_iff _).mpr hentry]

/-- **A session runs**: after any declarations, expressions and single lines, whichever of them have failed, its
    program is one that has run. -/
theorem session_runs (hstart : run (program [] []) = true) (entries : List Text) (hentries : ∀ entry ∈ entries,
    classify entry = .decl ∨ classify entry = .expr ∨ (bodyLines entry).length = 1) :
    (entries.foldl (fun s entry => (evaluate run s entry).1) ⟨[], []⟩).Runs run :=
  foldlRecOn (motive := Session.Runs run) entries _ hstart fun _ h entry hmem => h.evaluate (hentries entry hmem)

/-- The second assignment makes the program too long. -/
theorem session_runs_short : (["x = 1".toList, "y = 222222".toList].foldl
    (fun s entry => (evaluate (·.length ≤ 30) s entry).1) ⟨[], []⟩).Runs (·.length ≤ 30) :=
  have hone : ∀ entry ∈ ["x = 1".toList, "y = 222222".toList], (bodyLines entry).length = 1 := by decide
  session_runs (by decide) _ fun entry hmem => .inr (.inr (hone entry hmem))

end Vyb.Packages.Repl
