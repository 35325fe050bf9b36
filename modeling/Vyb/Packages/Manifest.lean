/-
  Subject:   `vyb.toml`: the subset of TOML that the manifest parser reads (`src/manifest.cpp`).

  A text is the list of its characters. What is modelled is the parse into tables and, of the
  manifest, the `[dependencies]` and the `[mod]` table; the bins and the package's own name and
  version play no part in the trust decisions. The texts of the errors are left out: a manifest that
  cannot be read is none.

  * `parseToml`, `loadManifest` -- the parser;
  * `privilegedFrom` -- the boundary and the capabilities a package declares, if it declares any.
-/
import Mathlib.Tactic

namespace Vyb.Packages

/-- The contents of a file, a path, a name. -/
abbrev Text := List Char

/-! ## 1. Lines and values -/

def isSpace (c : Char) : Bool := c ∈ [' ', '\t', '\n', '\r', '\x0b', '\x0c']

def trim (s : Text) : Text := ((s.dropWhile isSpace).reverse.dropWhile isSpace).reverse

/-- The part of a line before the first `x` outside quotes, and the part after it. -/
def cutOutsideQuotes (x : Char) : Bool → Text → Option (Text × Text)
  | _, [] => none
  | inQuotes, c :: cs =>
    if c = '"' then (cutOutsideQuotes x (!inQuotes) cs).map fun p => (c :: p.1, p.2)
    else if c = x && !inQuotes then some ([], cs)
    else (cutOutsideQuotes x inQuotes cs).map fun p => (c :: p.1, p.2)

def stripComment (line : Text) : Text :=
  match cutOutsideQuotes '#' false line with
  | some (before, _) => before
  | none => line

/-- `key = value`, both not empty. -/
def splitKv (line : Text) : Option (Text × Text) :=
  match cutOutsideQuotes '=' false line with
  | some (k, v) => if (trim k).isEmpty || (trim v).isEmpty then none else some (trim k, trim v)
  | none => none

/-- `s` without its first and last character, if they are `l` and `r`. -/
def unwrap (l r : Char) (s : Text) : Text :=
  match s with
  | c :: cs => if c = l && !cs.isEmpty && cs.getLast? = some r then cs.dropLast else s
  | [] => s

def unquote (raw : Text) : Text := unwrap '"' '"' (trim raw)

/-- The parts of a text between the commas outside quotes. -/
def splitCommas : Bool → Text → List Text
  | _, [] => [[]]
  | inQuotes, c :: cs =>
    let inQuotes := if c = '"' then !inQuotes else inQuotes
    if c = ',' && !inQuotes then [] :: splitCommas inQuotes cs
    else
      match splitCommas inQuotes cs with
      | [] => [[c]]
      | p :: ps => (c :: p) :: ps

def parseInlineTable (raw : Text) : List (Text × Text) :=
  (splitCommas false (unwrap '{' '}' (trim raw))).filterMap fun part =>
    (splitKv part).map fun (k, v) => (k, unquote v)

def parseStringArray (raw : Text) : List Text :=
  ((splitCommas false (unwrap '[' ']' (trim raw))).map fun part => unquote (trim part)).filter
    fun v => !v.isEmpty

/-! ## 2. Tables -/

structure Table where
  header : Text
  keys : List (Text × Text)
  deriving DecidableEq, Repr

def lines (s : Text) : List Text :=
  s.foldr (fun c ls => if c = '\n' then [] :: ls else match ls with
    | [] => [[c]]
    | l :: ls => (c :: l) :: ls) [[]]

/-- The name in a header `[name]` or `[[name]]`: up to the last `]`. -/
def headerName (t : Text) : Option Text :=
  if t.contains ']' then
    let body := (t.reverse.dropWhile (· ≠ ']')).tail.reverse
    some (trim (if "[[".toList.isPrefixOf t then body.drop 2 else body.drop 1))
  else none

/-- A key goes into the last table. A value that is an array is accepted for two keys of `[mod]`
    only. -/
def addKey (tables : List Table) (key value : Text) : Option (List Table) :=
  match tables.getLast? with
  | none => none
  | some cur =>
    let isModArrayKey := (key = "boundary".toList || key = "capabilities".toList) &&
      cur.header = "mod".toList
    if value.head? = some '[' && !isModArrayKey then none
    else some (tables.dropLast ++ [{ cur with keys := cur.keys ++ [(key, value)] }])

def parseLine (tables : List Table) (line : Text) : Option (List Table) :=
  let t := trim (stripComment line)
  match t with
  | [] => some tables
  | '[' :: _ => (headerName t).map fun name => tables ++ [⟨name, []⟩]
  | _ => (splitKv t).bind fun (key, value) => addKey tables key value

def parseToml (text : Text) : Option (List Table) := (lines text).foldlM parseLine []

/-! ## 3. The manifest -/

inductive Source where
  | path
  | git
  | github
  | version
  deriving DecidableEq, Repr

structure Dependency where
  name : Text
  source : Source := .version
  path : Text := []
  url : Text := []
  version : Text := []
  deriving DecidableEq, Repr

/-- `[mod]`: what a package asks to be trusted with. -/
structure ModTable where
  freedomBoundary : Bool := false
  capabilities : List Text := []
  deriving DecidableEq, Repr

structure Manifest where
  dependencies : List Dependency := []
  mod : ModTable := {}
  deriving DecidableEq, Repr

/-- A later key of the inline table overrides an earlier one. -/
def readKey (dep : Dependency) (kv : Text × Text) : Dependency :=
  if kv.1 = "path".toList then { dep with source := .path, path := kv.2 }
  else if kv.1 = "git".toList then { dep with source := .git, url := kv.2 }
  else if kv.1 = "github".toList then { dep with source := .github, url := kv.2 }
  else if kv.1 = "version".toList then { dep with source := .version, version := kv.2 }
  else if kv.1 = "tag".toList then { dep with version := kv.2 }
  else dep

def readDependency (kv : Text × Text) : Dependency :=
  let dep : Dependency := { name := kv.1 }
  let raw := trim kv.2
  let dep := if raw.head? = some '{' then (parseInlineTable raw).foldl readKey dep
    else { dep with source := .version, version := unquote kv.2 }
  let dep := if dep.source = .path && dep.path.isEmpty then { dep with source := .version } else dep
  if dep.source = .version && dep.version.isEmpty then { dep with source := .path } else dep

def readMod (m : ModTable) (keys : List (Text × Text)) : ModTable :=
  let m := match keys.lookup "boundary".toList with
    | some v => if (parseStringArray v).contains "freedom".toList then { m with freedomBoundary := true }
      else m
    | none => m
  match keys.lookup "capabilities".toList with
  | some v => { m with capabilities := parseStringArray v }
  | none => m

def readTable (m : Manifest) (t : Table) : Manifest :=
  if t.header = "dependencies".toList then
    { m with dependencies := m.dependencies ++ t.keys.map readDependency }
  else if t.header = "mod".toList then { m with mod := readMod m.mod t.keys }
  else m

/-- `load_manifest`, from the contents of `vyb.toml` if there is one. A text without a table is not a
    manifest, unless it is empty. -/
def loadManifest (toml : Option Text) : Option Manifest :=
  toml.bind fun text => (parseToml text).bind fun tables =>
    if tables.isEmpty && !text.isEmpty then none else some (tables.foldl readTable {})

/-- `mod_privileged_from`: the declarations of a package that has any. -/
def privilegedFrom (toml : Option Text) : Option ModTable :=
  (loadManifest toml).bind fun m =>
    if m.mod.freedomBoundary || !m.mod.capabilities.isEmpty then some m.mod else none

/-- A manifest with a freedom boundary and two capabilities. -/
def freedomToml : Text :=
  "[mod] # trust\nboundary = [\"freedom\"]\ncapabilities = [\"ffi\", \"nvptx\"]\n".toList

example : privilegedFrom (some freedomToml) = some ⟨true, ["ffi".toList, "nvptx".toList]⟩ := by decide

end Vyb.Packages
