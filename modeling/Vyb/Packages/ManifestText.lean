/-
  Subject:   A whole manifest, its text, and what is read back from it (`src/manifest.cpp`,
             `manifest_to_toml` and `load_manifest`).

  The writer gives every dependency the one form `name = { <source> = "<path>", version = "<version>" }`. It
  writes neither the url nor `[mod]`. The reader lets a later key of an inline table decide on the source, so
  that `version` wins over what stands before it; and it cuts the header `[[bin]]` at its last bracket, so
  that the table is called `bin]`, which is not a name it knows.

  * `ProjectManifest`, `loadProject`, `manifestToToml` -- the code; `loadProject_manifest` says that it reads
    of dependencies and `[mod]` what `loadManifest` does;
  * `parseLine_key` -- a line `key = value` is read as that key with that value;
  * `readBack` -- what is left of a dependency, and of a manifest;
  * `keyOk_of_contributes` -- a name that is read back is one that can stand before a `=`;
  * **`manifest_round_trip_iff`** -- which manifests are read back as they were written;
  * `round_trips_lost` -- four that are not.
-/
import Vyb.Packages.Fetch
import Mathlib.Data.List.DropRight
import Mathlib.Data.List.ReduceOption

namespace Vyb.Packages

open List
open Option (bind_eq_bind bind_some map_eq_some_iff some_inj)

/-! ## 1. The code -/

structure Bin where
  name : Text := []
  path : Text := "src/main.vyb".toList
  deriving DecidableEq, Repr

/-- All that a manifest says. -/
structure ProjectManifest extends Manifest where
  name : Text := "unnamed".toList
  version : Text := "0.0.0".toList
  bins : List Bin := []
  rootDir : Text
  hasExplicitBins : Bool := false
  deriving DecidableEq, Repr

/-- A string value of a table, if its key is there. -/
def stringIn (keys : List (Text × Text)) (key otherwise : Text) : Text :=
  match keys.lookup key with
  | some v => unquote v
  | none => otherwise

def readBin (keys : List (Text × Text)) : Bin :=
  let b : Bin := {}
  { name := stringIn keys "name".toList b.name, path := stringIn keys "path".toList b.path }

/-- One table of the loop of `load_manifest`. -/
def readSection (m : ProjectManifest) (t : Table) : ProjectManifest :=
  if t.header = "package".toList then
    { m with name := stringIn t.keys "name".toList m.name, version := stringIn t.keys "version".toList m.version }
  else if t.header = "bin".toList then { m with bins := m.bins ++ [readBin t.keys] }
  else { m with toManifest := readTable m.toManifest t }

/-- `if (m.bins[0].name.empty()) m.bins[0].name = m.name`. -/
def nameFirst (name : Text) : List Bin → List Bin
  | [] => []
  | b :: bs => (if b.name.isEmpty then { b with name } else b) :: bs

/-- The name of the directory, where none is given. -/
def givenName (m : ProjectManifest) : Text :=
  if m.name = "unnamed".toList && !(filename m.rootDir).isEmpty then filename m.rootDir else m.name

/-- What `load_manifest` does when all tables are read. -/
def complete (m : ProjectManifest) : ProjectManifest :=
  let hasExplicitBins := m.hasExplicitBins || !m.bins.isEmpty
  let bins := if hasExplicitBins then m.bins else m.bins ++ [({} : Bin)]
  let name := givenName m
  { m with hasExplicitBins, name, bins := nameFirst name bins }

/-- `load_manifest` of a directory, from the contents of its `vyb.toml` if there is one. -/
def loadProject (rootDir : Text) (toml : Option Text) : Option ProjectManifest :=
  toml.bind fun text => (parseToml text).bind fun tables =>
    if tables.isEmpty && !text.isEmpty then none else some (complete (tables.foldl readSection { rootDir }))

def Source.text : Source → Text
  | .path => "path".toList
  | .git => "git".toList
  | .github => "github".toList
  | .version => "version".toList

/-- A string value. -/
def quoted (s : Text) : Text := '"' :: s ++ ['"']

/-- `key = value`. -/
def keyLine (key value : Text) : Text := key ++ " = ".toList ++ value

/-- `{ <source> = "<path>", version = "<version>" }`. -/
def dependencyValue (d : Dependency) : Text :=
  "\x7b ".toList ++ keyLine d.source.text (quoted d.path) ++ ", ".toList ++
    keyLine "version".toList (quoted d.version) ++ " \x7d".toList

def binLines (b : Bin) : List Text :=
  [[], "[[bin]]".toList, keyLine "name".toList (quoted b.name), keyLine "path".toList (quoted b.path)]

/-- The lines before those of the dependencies. -/
def headLines (m : ProjectManifest) : List Text :=
  ["[package]".toList, keyLine "name".toList (quoted m.name), keyLine "version".toList (quoted m.version)] ++
    (if m.hasExplicitBins then m.bins.flatMap binLines else []) ++
    (if m.dependencies.isEmpty then [] else [[], "[dependencies]".toList])

def dependencyLines (m : ProjectManifest) : List Text :=
  m.dependencies.map fun d => keyLine d.name (dependencyValue d)

/-- `manifest_to_toml`, each line ended by a line break. -/
def manifestToToml (m : ProjectManifest) : Text := (headLines m ++ dependencyLines m).flatMap (· ++ ['\n'])

/-! ## 2. Trimmed texts -/

/-- Neither the first nor the last character is a blank. -/
structure Tight (s : Text) : Prop where
  head : ∀ c, s.head? = some c → isSpace c = false
  last : ∀ c, s.getLast? = some c → isSpace c = false

theorem trim_eq (s : Text) : trim s = (s.dropWhile isSpace).rdropWhile isSpace := rfl

variable {s : Text}

theorem dropWhile_of_head (h : ∀ c, s.head? = some c → isSpace c = false) :
    s.dropWhile isSpace = s := by
  cases s with
  | nil => rfl
  | cons c s => exact dropWhile_cons_of_neg (by simp [h c rfl])

theorem rdropWhile_of_last (h : ∀ c, s.getLast? = some c → isSpace c = false) :
    s.rdropWhile isSpace = s := by
  rcases eq_nil_or_concat' s with rfl | ⟨l, c, rfl⟩
  · rfl
  · exact rdropWhile_concat_neg _ _ _ (by simp [h c getLast?_concat])

theorem trim_of_tight (h : Tight s) : trim s = s := by
  rw [trim_eq, dropWhile_of_head h.head, rdropWhile_of_last h.last]

theorem tight_trim (s : Text) : Tight (trim s) := by
  refine ⟨fun c hc => ?_, fun c hc => ?_⟩
  · -- the first character is that of the text without its leading blanks
    obtain ⟨t, ht⟩ := rdropWhile_prefix isSpace (s.dropWhile isSpace)
    rw [← trim_eq] at ht
    have hhead : (s.dropWhile isSpace).head? = some c := by
      rw [← ht, head?_append, hc]
      rfl
    have hno := head?_dropWhile_not isSpace s
    rw [hhead] at hno
    simpa using hno
  · have hne : trim s ≠ [] := fun h => by simp [h] at hc
    have hno := rdropWhile_last_not isSpace (s.dropWhile isSpace) hne
    rw [getLast?_eq_some_getLast hne, some_inj] at hc
    rw [← hc]
    exact Bool.eq_false_iff.mpr hno

theorem trim_trim (s : Text) : trim (trim s) = trim s := trim_of_tight (tight_trim s)

theorem trim_blank_left (s : Text) : trim (' ' :: s) = trim s := rfl

theorem trim_blank_right (s : Text) : trim (s ++ [' ']) = trim s := by
  rw [trim_eq, trim_eq, dropWhile_append]
  split
  · rename_i hempty
    rw [List.isEmpty_iff] at hempty
    rw [hempty]
    rfl
  · exact rdropWhile_concat_pos _ _ _ rfl

variable {c : Char}

theorem mem_of_mem_trim (h : c ∈ trim s) : c ∈ s := by
  rw [trim_eq] at h
  exact (dropWhile_suffix isSpace).subset ((List.rdropWhile_prefix _ _).subset h)

theorem tight_append {s t : Text} (hs : s ≠ []) (ht : t ≠ [])
    (hhead : ∀ c, s.head? = some c → isSpace c = false) (hlast : ∀ c, t.getLast? = some c → isSpace c = false) :
    Tight (s ++ t) := by
  refine ⟨fun c hc => hhead c ?_, fun c hc => hlast c ?_⟩
  · rwa [head?_append_of_ne_nil _ hs] at hc
  · rwa [getLast?_append_of_ne_nil _ ht] at hc

/-! ## 3. Texts with quotes -/

/-- A search for `x` passes over `s` and goes on behind it. -/
def Passes (x : Char) (s : Text) : Prop :=
  ∀ t, cutOutsideQuotes x false (s ++ t) = (cutOutsideQuotes x false t).map fun p => (s ++ p.1, p.2)

section Passes

variable {x : Char} {s t : Text}

theorem Passes.append (hs : Passes x s) (ht : Passes x t) : Passes x (s ++ t) := fun r => by
  rw [append_assoc, hs, ht, Option.map_map]
  congr 1
  funext p
  simp

theorem Passes.cut (hs : Passes x s) : cutOutsideQuotes x false s = none := by
  have h := hs []
  rwa [append_nil, cutOutsideQuotes] at h

attribute [local simp] cutOutsideQuotes

theorem passes_char (hc : c ≠ '"') (hx : c ≠ x) : Passes x [c] := fun t => by
  simp [hc, hx]

theorem passes_plain : ∀ {s : Text}, '"' ∉ s → x ∉ s → Passes x s
  | [], _, _ => fun t => by simp
  | c :: s, hq, hx => by
    rw [mem_cons, not_or] at hq hx
    exact (passes_char (Ne.symm hq.1) (Ne.symm hx.1)).append (passes_plain hq.2 hx.2)

theorem cut_inQuotes : ∀ {s : Text} (t : Text), '"' ∉ s →
    cutOutsideQuotes x true (s ++ '"' :: t) = (cutOutsideQuotes x false t).map fun p => (s ++ '"' :: p.1, p.2)
  | [], t, _ => by simp
  | c :: s, t, hq => by
    rw [mem_cons, not_or] at hq
    rw [cons_append, cutOutsideQuotes, if_neg (Ne.symm hq.1), if_neg (by simp), cut_inQuotes t hq.2,
      Option.map_map]
    rfl

theorem passes_quoted (hq : '"' ∉ s) : Passes x (quoted s) := fun t => by
  have h := cut_inQuotes (x := x) t hq
  simp only [quoted, cons_append, append_assoc, nil_append, cutOutsideQuotes, if_true, h,
    Bool.not_false, Option.map_map]
  rfl

theorem cut_of_passes (hs : Passes x s) (hx : x ≠ '"') :
    cutOutsideQuotes x false (s ++ x :: t) = some (s, t) := by
  rw [hs]
  simp [hx]

end Passes

/-- `s` before the first piece. -/
def onFirst (s : Text) : List Text → List Text
  | [] => [s]
  | p :: ps => (s ++ p) :: ps

/-- A text whose commas, if it has any, stand within quotes. -/
def OnePiece (s : Text) : Prop := ∀ t, splitCommas false (s ++ t) = onFirst s (splitCommas false t)

section OnePiece

variable {s t : Text}

theorem onFirst_onFirst (s t : Text) (ps : List Text) : onFirst s (onFirst t ps) = onFirst (s ++ t) ps := by
  cases ps with
  | nil => rfl
  | cons p ps => exact congrArg (· :: ps) (append_assoc s t p).symm

theorem splitCommas_char {b a : Bool} (hb : (if c = '"' then !b else b) = a) (hc : c ≠ ',' ∨ a = true)
    (t : Text) : splitCommas b (c :: t) = onFirst [c] (splitCommas a t) := by
  have hno : ¬ ((decide (c = ',') && !a) = true) := by
    rcases hc with h | h <;> simp [h]
  simp only [splitCommas, hb, if_neg hno]
  cases splitCommas a t with
  | nil | cons p ps => rfl

theorem OnePiece.append (hs : OnePiece s) (ht : OnePiece t) : OnePiece (s ++ t) := fun r => by
  rw [append_assoc, hs, ht, onFirst_onFirst]

theorem splitCommas_ne_nil (b : Bool) : ∀ t : Text, splitCommas b t ≠ []
  | [] => cons_ne_nil _ _
  | c :: t => by
    simp only [splitCommas]
    generalize (if c = '"' then !b else b) = b'
    split
    · exact cons_ne_nil _ _
    · cases splitCommas b' t with
      | nil | cons p ps => exact cons_ne_nil _ _

theorem onePiece_plain : ∀ {s : Text}, '"' ∉ s → ',' ∉ s → OnePiece s
  | [], _, _ => fun t => by
    obtain ⟨p, ps, hps⟩ := exists_cons_of_ne_nil (splitCommas_ne_nil false t)
    rw [nil_append, hps]
    rfl
  | c :: s, hq, hc => by
    rw [mem_cons, not_or] at hq hc
    have hchar : OnePiece [c] := fun t => splitCommas_char (by simp [Ne.symm hq.1]) (.inl (Ne.symm hc.1)) t
    exact hchar.append (onePiece_plain hq.2 hc.2)

theorem splitCommas_inQuotes : ∀ {s : Text} (t : Text), '"' ∉ s →
    splitCommas true (s ++ '"' :: t) = onFirst (s ++ ['"']) (splitCommas false t)
  | [], t, _ => splitCommas_char (by simp) (.inl (by decide)) t
  | c :: s, t, hq => by
    rw [mem_cons, not_or] at hq
    rw [cons_append, splitCommas_char (a := true) (by simp [Ne.symm hq.1]) (.inr rfl),
      splitCommas_inQuotes t hq.2,
      onFirst_onFirst]
    rfl

theorem onePiece_quoted (hq : '"' ∉ s) : OnePiece (quoted s) := fun t => by
  rw [quoted, cons_append, cons_append, append_assoc, singleton_append,
    splitCommas_char (a := true) (by simp) (.inr rfl), splitCommas_inQuotes t hq, onFirst_onFirst]
  rfl

theorem splitCommas_of_onePiece (hs : OnePiece s) : splitCommas false s = [s] := by
  have h := hs []
  rw [append_nil] at h
  rw [h]
  simp [splitCommas, onFirst]

theorem splitCommas_pieces (hs : OnePiece s) (ht : OnePiece t) :
    splitCommas false (s ++ ',' :: t) = [s, t] := by
  rw [hs]
  simp [splitCommas, splitCommas_of_onePiece ht, onFirst]

end OnePiece

/-! ## 4. Lines -/

/-- A text that can stand before a `=`. -/
@[mk_iff]
structure KeyOk (k : Text) : Prop where
  ne_nil : k ≠ []
  trimmed : trim k = k
  no_comment : '#' ∉ k
  no_equals : '=' ∉ k
  no_header : k.head? ≠ some '['

instance decKeyOk (k : Text) : Decidable (KeyOk k) := decidable_of_iff' _ (keyOk_iff k)

attribute [local simp] keyLine quoted

theorem tight_quoted (s : Text) : Tight (quoted s) := by
  refine ⟨fun c hc => ?_, fun c hc => ?_⟩
  · obtain rfl : '"' = c := by simpa using hc
    rfl
  · rw [quoted, getLast?_concat, some_inj] at hc
    subst hc
    rfl

theorem unwrap_wrapped (l r : Char) (s : Text) : unwrap l r (l :: s ++ [r]) = s := by
  simp [unwrap]

theorem unquote_quoted (s : Text) : unquote (quoted s) = s := by
  rw [unquote, trim_of_tight (tight_quoted s)]
  exact unwrap_wrapped _ _ s

variable {k v : Text}

theorem KeyOk.tight (hk : KeyOk k) : Tight k := hk.trimmed ▸ tight_trim k

theorem tight_keyLine (hk : KeyOk k) (hv : Tight v) (hne : v ≠ []) : Tight (keyLine k v) :=
  tight_append (by simp [hk.ne_nil]) hne (fun c hc => hk.tight.head c (by
    rwa [head?_append_of_ne_nil _ hk.ne_nil] at hc)) hv.last

theorem passes_keyLine (hk : KeyOk k) (hq : '"' ∉ k) (hv : Passes '#' v) : Passes '#' (keyLine k v) :=
  ((passes_plain hq hk.no_comment).append (passes_plain (by decide) (by decide))).append hv

theorem splitKv_sides {left right : Text} (hpass : Passes '=' left) (hl : trim left = k) (hr : trim right = v)
    (hk : k ≠ []) (hv : v ≠ []) : splitKv (left ++ '=' :: right) = some (k, v) := by
  rw [splitKv, cut_of_passes hpass (by decide)]
  simp only [hl, hr]
  rw [if_neg (by simp [hk, hv])]

theorem splitKv_keyLine (hk : KeyOk k) (hq : '"' ∉ k) (hv : Tight v) (hne : v ≠ []) :
    splitKv (keyLine k v) = some (k, v) := by
  have hsides : keyLine k v = (k ++ [' ']) ++ '=' :: ' ' :: v := by simp
  rw [hsides]
  refine splitKv_sides ((passes_plain hq hk.no_equals).append (passes_plain (by decide) (by decide))) ?_ ?_
    hk.ne_nil hne
  · rw [trim_blank_right, hk.trimmed]
  · rw [trim_blank_left, trim_of_tight hv]

/-- The blanks around a part of an inline table do not matter. -/
theorem splitKv_blanks (hk : KeyOk k) (hq : '"' ∉ k) (hv : Tight v) (hne : v ≠ []) {blanks : Text}
    (hblanks : blanks = [] ∨ blanks = [' ']) : splitKv (' ' :: keyLine k v ++ blanks) = some (k, v) := by
  have hsides : ' ' :: keyLine k v ++ blanks = (' ' :: (k ++ [' '])) ++ '=' :: ' ' :: (v ++ blanks) := by simp
  have hblank : Passes '=' [' '] := passes_plain (by decide) (by decide)
  rw [hsides]
  refine splitKv_sides (hblank.append ((passes_plain hq hk.no_equals).append hblank)) ?_ ?_ hk.ne_nil hne
  · rw [trim_blank_left, trim_blank_right, hk.trimmed]
  · rw [trim_blank_left]
    rcases hblanks with rfl | rfl
    · rw [append_nil, trim_of_tight hv]
    · rw [trim_blank_right, trim_of_tight hv]

theorem parseLine_of_head {ts : List Table} {line : Text} {rest : Text}
    (ht : trim (stripComment line) = c :: rest) (hc : c ≠ '[') :
    parseLine ts line = (splitKv (c :: rest)).bind fun kv => addKey ts kv.1 kv.2 := by
  rw [parseLine, ht]
  split
  · rename_i heq
    cases heq
  · rename_i heq
    exact absurd (cons.inj heq).1 hc
  · rfl

/-- **A line `key = value`** adds the key to the last table. -/
theorem parseLine_key (hk : KeyOk k) (hq : '"' ∉ k) (hv : Tight v) (hne : v ≠ []) (hpass : Passes '#' v)
    (hhead : v.head? ≠ some '[') (ts : List Table) (header : Text) (keys : List (Text × Text)) :
    parseLine (ts ++ [⟨header, keys⟩]) (keyLine k v) = some (ts ++ [⟨header, keys ++ [(k, v)]⟩]) := by
  have hstrip : trim (stripComment (keyLine k v)) = keyLine k v := by
    rw [stripComment, (passes_keyLine hk hq hpass).cut]
    exact trim_of_tight (tight_keyLine hk hv hne)
  obtain ⟨c, cs, hkc⟩ := exists_cons_of_ne_nil hk.ne_nil
  have hc : c ≠ '[' := fun h => hk.no_header (by rw [hkc, h]; rfl)
  have hline : keyLine k v = c :: (cs ++ " = ".toList ++ v) := by
    rw [keyLine, hkc, cons_append, cons_append]
  have hadd : addKey (ts ++ [⟨header, keys⟩]) k v = some (ts ++ [⟨header, keys ++ [(k, v)]⟩]) := by
    rw [addKey, getLast?_concat, dropLast_concat]
    exact if_neg (by rw [decide_eq_false hhead]; exact Bool.false_ne_true)
  rw [parseLine_of_head (hstrip.trans hline) hc, ← hline, splitKv_keyLine hk hq hv hne]
  exact hadd

variable (ts : List Table)

theorem parseLine_blank : parseLine ts [] = some ts := rfl

theorem parseLine_package :
    parseLine ts "[package]".toList = some (ts ++ [⟨"package".toList, []⟩]) := rfl

theorem parseLine_dependencies :
    parseLine ts "[dependencies]".toList = some (ts ++ [⟨"dependencies".toList, []⟩]) := rfl

theorem parseLine_bin :
    parseLine ts "[[bin]]".toList = some (ts ++ [⟨"bin]".toList, []⟩]) := rfl

/-! ## 5. What is read of a written manifest -/

/-- No quotes and no line breaks. -/
def Clean (s : Text) : Prop := '"' ∉ s ∧ '\n' ∉ s

instance decClean (s : Text) : Decidable (Clean s) := inferInstanceAs (Decidable (_ ∧ _))

/-- Every string of the manifest is free of quotes and line breaks. -/
structure CleanManifest (m : ProjectManifest) : Prop where
  name : Clean m.name
  version : Clean m.version
  bins : ∀ b ∈ m.bins, Clean b.name ∧ Clean b.path
  dependencies : ∀ d ∈ m.dependencies, Clean d.name ∧ Clean d.path ∧ Clean d.url ∧ Clean d.version
  capabilities : ∀ c ∈ m.mod.capabilities, Clean c

theorem keyOk_name : KeyOk "name".toList := by decide

theorem keyOk_version : KeyOk "version".toList := by decide

theorem keyOk_path : KeyOk "path".toList := by decide

theorem parseLine_quoted {key s : Text} (hk : KeyOk key) (hq : '"' ∉ key) (hs : '"' ∉ s) (ts : List Table)
    (header : Text) (keys : List (Text × Text)) :
    parseLine (ts ++ [⟨header, keys⟩]) (keyLine key (quoted s)) =
      some (ts ++ [⟨header, keys ++ [(key, quoted s)]⟩]) :=
  parseLine_key hk hq (tight_quoted s) (cons_ne_nil _ _) (passes_quoted hs) (by simp) ts header keys

def packageTable (m : ProjectManifest) : Table :=
  ⟨"package".toList, [("name".toList, quoted m.name), ("version".toList, quoted m.version)]⟩

def binTable (b : Bin) : Table :=
  ⟨"bin]".toList, [("name".toList, quoted b.name), ("path".toList, quoted b.path)]⟩

theorem foldlM_bins : ∀ {bins : List Bin}, (∀ b ∈ bins, Clean b.name ∧ Clean b.path) → ∀ ts : List Table,
    (bins.flatMap binLines).foldlM parseLine ts = some (ts ++ bins.map binTable)
  | [], _, ts => by simp
  | b :: bins, h, ts => by
    obtain ⟨hname, hpath⟩ := h b mem_cons_self
    have ih := foldlM_bins (fun b hb => h b (mem_cons_of_mem _ hb)) (ts ++ [binTable b])
    rw [flatMap_cons, foldlM_append]
    simp only [binLines, foldlM_cons, foldlM_nil, parseLine_blank, parseLine_bin, bind_eq_bind,
      bind_some, parseLine_quoted keyOk_name (by decide) hname.1,
      parseLine_quoted keyOk_path (by decide) hpath.1, Option.pure_def]
    rw [append_assoc, singleton_append] at ih
    exact ih

/-- The tables before the dependencies are read. -/
def headTables (m : ProjectManifest) : List Table :=
  packageTable m :: if m.hasExplicitBins then m.bins.map binTable else []

variable {m : ProjectManifest}

theorem foldlM_head (hm : CleanManifest m) :
    (headLines m).foldlM parseLine [] =
      some (headTables m ++ if m.dependencies.isEmpty then [] else [⟨"dependencies".toList, []⟩]) := by
  have hpackage : ["[package]".toList, keyLine "name".toList (quoted m.name),
      keyLine "version".toList (quoted m.version)].foldlM parseLine [] = some [packageTable m] := by
    have hname := parseLine_quoted keyOk_name (by decide) hm.name.1 [] "package".toList []
    have hversion := parseLine_quoted keyOk_version (by decide) hm.version.1 [] "package".toList
      [("name".toList, quoted m.name)]
    simp only [foldlM_cons, foldlM_nil, parseLine_package, nil_append, bind_eq_bind,
      bind_some] at hname hversion ⊢
    rw [hname, bind_some, hversion]
    rfl
  have hbins : (if m.hasExplicitBins then m.bins.flatMap binLines else []).foldlM parseLine [packageTable m] =
      some (headTables m) := by
    rw [headTables]
    split
    · exact foldlM_bins hm.bins [packageTable m]
    · rfl
  rw [headLines, foldlM_append, foldlM_append, hpackage, bind_eq_bind, bind_some, hbins, bind_some]
  split
  · simp
  · simp only [foldlM_cons, foldlM_nil, parseLine_blank, parseLine_dependencies, bind_eq_bind,
      bind_some, Option.pure_def]

/-! ## 6. Dependencies -/

/-- What is left of a dependency: whatever its source was, that is `version` or, without a version, `path`. -/
def readBack (d : Dependency) : Dependency where
  name := d.name
  source := if d.version.isEmpty then .path else .version
  path := if d.source = .path then d.path else []
  url := if d.source = .git ∨ d.source = .github then d.path else []
  version := d.version

section Dependency

variable {d : Dependency}

theorem Source.text_plain (s : Source) : KeyOk s.text ∧ '"' ∉ s.text ∧ ',' ∉ s.text := by
  cases s <;> exact ⟨by decide, by decide, by decide⟩

theorem dependencyValue_eq (d : Dependency) : dependencyValue d =
    '{' :: ((' ' :: keyLine d.source.text (quoted d.path)) ++ ',' :: (' ' :: keyLine "version".toList (quoted d.version) ++ [' '])) ++ ['}'] := by
  simp [dependencyValue]

theorem tight_dependencyValue (d : Dependency) : Tight (dependencyValue d) := by
  rw [dependencyValue_eq]
  refine ⟨fun c hc => ?_, fun c hc => ?_⟩
  · obtain rfl : '{' = c := by simpa using hc
    rfl
  · rw [getLast?_concat, some_inj] at hc
    subst hc
    rfl

theorem passes_dependencyValue (hpath : '"' ∉ d.path) (hversion : '"' ∉ d.version) :
    Passes '#' (dependencyValue d) := by
  obtain ⟨hk, hq, -⟩ := d.source.text_plain
  exact (((((passes_plain (by decide) (by decide)).append (passes_keyLine hk hq (passes_quoted hpath))).append
    (passes_plain (by decide) (by decide))).append
      (passes_keyLine keyOk_version (by decide) (passes_quoted hversion))).append
        (passes_plain (by decide) (by decide)))

theorem onePiece_keyLine {k s : Text} (hq : '"' ∉ k) (hc : ',' ∉ k) (hs : '"' ∉ s) :
    OnePiece (keyLine k (quoted s)) :=
  ((onePiece_plain hq hc).append (onePiece_plain (by decide) (by decide))).append (onePiece_quoted hs)

theorem parseInlineTable_dependencyValue (hpath : '"' ∉ d.path) (hversion : '"' ∉ d.version) :
    parseInlineTable (dependencyValue d) = [(d.source.text, d.path), ("version".toList, d.version)] := by
  obtain ⟨hk, hq, hc⟩ := d.source.text_plain
  have hbody : unwrap '{' '}' (trim (dependencyValue d)) = (' ' :: keyLine d.source.text (quoted d.path)) ++
      ',' :: (' ' :: keyLine "version".toList (quoted d.version) ++ [' ']) := by
    rw [trim_of_tight (tight_dependencyValue d), dependencyValue_eq]
    exact unwrap_wrapped _ _ _
  have hsplit : splitCommas false ((' ' :: keyLine d.source.text (quoted d.path)) ++
      ',' :: (' ' :: keyLine "version".toList (quoted d.version) ++ [' '])) =
      [' ' :: keyLine d.source.text (quoted d.path), ' ' :: keyLine "version".toList (quoted d.version) ++ [' ']] := by
    have hblank : OnePiece [' '] := onePiece_plain (by decide) (by decide)
    exact splitCommas_pieces (hblank.append (onePiece_keyLine hq hc hpath))
      ((hblank.append (onePiece_keyLine (by decide) (by decide) hversion)).append hblank)
  have hsource := splitKv_blanks hk hq (tight_quoted d.path) (cons_ne_nil _ _) (.inl rfl)
  have hlast := splitKv_blanks keyOk_version (by decide) (tight_quoted d.version) (cons_ne_nil _ _) (.inr rfl)
  rw [append_nil] at hsource
  simp only [parseInlineTable, hbody, hsplit, filterMap_cons, filterMap_nil, hsource, hlast,
    Option.map_some, unquote_quoted]

/-- **What is read of a written dependency.** -/
theorem readDependency_written (hpath : '"' ∉ d.path) (hversion : '"' ∉ d.version) :
    readDependency (d.name, dependencyValue d) = readBack d := by
  have hraw : trim (dependencyValue d) = dependencyValue d := trim_of_tight (tight_dependencyValue d)
  have hhead : (dependencyValue d).head? = some '{' := rfl
  obtain ⟨name, source, path, url, version⟩ := d
  simp only [readDependency, hraw, hhead, parseInlineTable_dependencyValue hpath hversion, if_true,
    foldl_cons, foldl_nil]
  cases source <;> cases version <;> rfl

/-- The line of a dependency whose name can stand before a `=`. -/
theorem parseLine_dependency (hk : KeyOk d.name)
    (hclean : Clean d.name ∧ Clean d.path ∧ Clean d.url ∧ Clean d.version) (ts : List Table) (header : Text)
    (keys : List (Text × Text)) :
    parseLine (ts ++ [⟨header, keys⟩]) (keyLine d.name (dependencyValue d)) =
      some (ts ++ [⟨header, keys ++ [(d.name, dependencyValue d)]⟩]) :=
  parseLine_key hk hclean.1.1 (tight_dependencyValue d) (cons_ne_nil _ _)
    (passes_dependencyValue hclean.2.1.1 hclean.2.2.2.1) (by rw [dependencyValue_eq]; simp) ts header keys

theorem foldlM_dependencies (header : Text) : ∀ {ds : List Dependency}, (∀ d ∈ ds, KeyOk d.name) →
    (∀ d ∈ ds, Clean d.name ∧ Clean d.path ∧ Clean d.url ∧ Clean d.version) →
    ∀ (ts : List Table) (keys : List (Text × Text)),
    (ds.map fun d => keyLine d.name (dependencyValue d)).foldlM parseLine (ts ++ [⟨header, keys⟩]) =
      some (ts ++ [⟨header, keys ++ ds.map fun d => (d.name, dependencyValue d)⟩])
  | [], _, _, ts, keys => by simp
  | d :: ds, hk, hclean, ts, keys => by
    have ih := foldlM_dependencies header (fun d hd => hk d (mem_cons_of_mem _ hd))
      (fun d hd => hclean d (mem_cons_of_mem _ hd)) ts (keys ++ [(d.name, dependencyValue d)])
    rw [map_cons, foldlM_cons, parseLine_dependency (hk d mem_cons_self) (hclean d mem_cons_self),
      bind_eq_bind, bind_some, ih, map_cons, append_assoc, singleton_append]

end Dependency

/-! ## 7. The whole manifest -/

/-- What is left of a manifest. -/
def readBackManifest (m : ProjectManifest) : ProjectManifest where
  dependencies := m.dependencies.map readBack
  mod := {}
  name := givenName m
  version := m.version
  bins := [{ name := givenName m }]
  rootDir := m.rootDir
  hasExplicitBins := false

theorem newline_notMem_keyLine {k v : Text} (hk : '\n' ∉ k) (hv : '\n' ∉ v) : '\n' ∉ keyLine k v := by
  simp [hk, hv]

theorem newline_notMem_quoted (hs : '\n' ∉ s) : '\n' ∉ quoted s := by
  simp [hs]

theorem newline_notMem_dependencyValue {d : Dependency} (hpath : '\n' ∉ d.path) (hversion : '\n' ∉ d.version) :
    '\n' ∉ dependencyValue d := by
  have hsource : '\n' ∉ d.source.text := by cases d.source <;> decide
  simp [dependencyValue, hsource, hpath, hversion]

theorem lines_manifestToToml (hm : CleanManifest m) :
    lines (manifestToToml m) = headLines m ++ dependencyLines m ++ [[]] := by
  refine lines_flatMap fun l hl => ?_
  rw [headLines, append_assoc, append_assoc] at hl
  rcases mem_append.mp hl with hl | hl
  · have hname := newline_notMem_keyLine (k := "name".toList) (by decide) (newline_notMem_quoted hm.name.2)
    have hversion := newline_notMem_keyLine (k := "version".toList) (by decide) (newline_notMem_quoted hm.version.2)
    simp only [mem_cons, not_mem_nil, or_false] at hl
    rcases hl with rfl | rfl | rfl
    · decide
    · exact hname
    · exact hversion
  rcases mem_append.mp hl with hl | hl
  · split at hl
    · obtain ⟨b, hb, hl⟩ := mem_flatMap.mp hl
      obtain ⟨hname, hpath⟩ := hm.bins b hb
      simp only [binLines, mem_cons, not_mem_nil, or_false] at hl
      rcases hl with rfl | rfl | rfl | rfl
      · decide
      · decide
      · exact newline_notMem_keyLine (by decide) (newline_notMem_quoted hname.2)
      · exact newline_notMem_keyLine (by decide) (newline_notMem_quoted hpath.2)
    · cases hl
  rcases mem_append.mp hl with hl | hl
  · split at hl
    · cases hl
    · simp only [mem_cons, not_mem_nil, or_false] at hl
      rcases hl with rfl | rfl <;> decide
  · obtain ⟨d, hd, rfl⟩ := mem_map.mp hl
    obtain ⟨hname, hpath, -, hversion⟩ := hm.dependencies d hd
    exact newline_notMem_keyLine hname.2 (newline_notMem_dependencyValue hpath.2 hversion.2)

theorem parseToml_manifestToToml (hm : CleanManifest m) :
    parseToml (manifestToToml m) = (dependencyLines m).foldlM parseLine
      (headTables m ++ if m.dependencies.isEmpty then [] else [⟨"dependencies".toList, []⟩]) := by
  rw [parseToml, lines_manifestToToml hm, foldlM_append, foldlM_append, foldlM_head hm, bind_eq_bind, bind_some]
  cases (dependencyLines m).foldlM parseLine
    (headTables m ++ if m.dependencies.isEmpty then [] else [⟨"dependencies".toList, []⟩]) with
  | none | some ts => rfl

/-- The tables of a manifest whose dependencies have names that can stand before a `=`. -/
theorem parseToml_of_keyOk (hm : CleanManifest m) (hk : ∀ d ∈ m.dependencies, KeyOk d.name) :
    parseToml (manifestToToml m) = some (headTables m ++ if m.dependencies.isEmpty then [] else
      [⟨"dependencies".toList, m.dependencies.map fun d => (d.name, dependencyValue d)⟩]) := by
  rw [parseToml_manifestToToml hm, dependencyLines]
  cases hds : m.dependencies with
  | nil => rfl
  | cons d ds =>
    rw [← hds]
    have hne : m.dependencies.isEmpty = false := by simp [hds]
    rw [hne]
    exact foldlM_dependencies _ hk hm.dependencies (headTables m) []

theorem foldl_readSection_bins (m : ProjectManifest) : ∀ bins : List Bin,
    (bins.map binTable).foldl readSection m = m
  | [] => rfl
  | b :: bins => by
    rw [map_cons, foldl_cons]
    exact foldl_readSection_bins m bins

/-- A manifest with these package fields and dependencies, before it is completed. -/
def tablesRead (m : ProjectManifest) (name version : Text) (ds : List Dependency) : ProjectManifest :=
  { rootDir := m.rootDir, name, version, dependencies := ds }

/-- **What is read of a written manifest.** -/
theorem loadProject_of_keyOk (hm : CleanManifest m) (hk : ∀ d ∈ m.dependencies, KeyOk d.name) :
    loadProject m.rootDir (some (manifestToToml m)) = some (readBackManifest m) := by
  have hpackage : readSection { rootDir := m.rootDir } (packageTable m) = tablesRead m m.name m.version [] := by
    have hname : stringIn (packageTable m).keys "name".toList "unnamed".toList = m.name := unquote_quoted _
    have hversion : stringIn (packageTable m).keys "version".toList "0.0.0".toList = m.version := unquote_quoted _
    rw [← hname, ← hversion]
    exact if_pos rfl
  have hhead : (headTables m).foldl readSection { rootDir := m.rootDir } = tablesRead m m.name m.version [] := by
    rw [headTables, foldl_cons, hpackage]
    split
    · exact foldl_readSection_bins _ _
    · rfl
  have hdeps : (m.dependencies.map fun d => (d.name, dependencyValue d)).map readDependency =
      m.dependencies.map readBack := by
    rw [map_map]
    refine map_congr_left fun d hd => ?_
    obtain ⟨-, hpath, -, hversion⟩ := hm.dependencies d hd
    rw [Function.comp_apply, readDependency_written hpath.1 hversion.1]
  -- the tables put together
  have hall : (headTables m ++ if m.dependencies.isEmpty then [] else
      [(⟨"dependencies".toList, m.dependencies.map fun d => (d.name,
        dependencyValue d)⟩ : Table)]).foldl readSection
        { rootDir := m.rootDir } = tablesRead m m.name m.version (m.dependencies.map readBack) := by
    rw [foldl_append, hhead]
    split
    · rename_i hempty
      rw [isEmpty_iff.mp hempty]
      rfl
    · exact congrArg (tablesRead m m.name m.version) hdeps
  have hcomplete : complete (tablesRead m m.name m.version (m.dependencies.map readBack)) = readBackManifest m := rfl
  have hsome : ∀ ts, (headTables m ++ ts).isEmpty = false := fun ts => rfl
  rw [loadProject, bind_some, parseToml_of_keyOk hm hk, bind_some, hall, hcomplete, hsome,
    Bool.false_and, if_neg Bool.false_ne_true]

/-- **The two readers agree** on the dependencies and on `[mod]`. -/
theorem loadProject_manifest (rootDir : Text) (toml : Option Text) :
    (loadProject rootDir toml).map (·.toManifest) = loadManifest toml := by
  have hsection : ∀ (m : ProjectManifest) (t : Table), (readSection m t).toManifest = readTable m.toManifest t := by
    intro m t
    have hother : ∀ h : Text, h ≠ "dependencies".toList → h ≠ "mod".toList → t.header = h →
        readTable m.toManifest t = m.toManifest := fun h hd hmod ht => by
      rw [readTable, if_neg (ht ▸ hd), if_neg (ht ▸ hmod)]
    rw [readSection]
    split_ifs with hpackage hbin
    · exact (hother _ (by decide) (by decide) hpackage).symm
    · exact (hother _ (by decide) (by decide) hbin).symm
    · rfl
  have hfold : ∀ (ts : List Table) (m : ProjectManifest),
      (ts.foldl readSection m).toManifest = ts.foldl readTable m.toManifest := by
    intro ts
    induction ts with
    | nil => exact fun m => rfl
    | cons t ts ih =>
      intro m
      rw [foldl_cons, foldl_cons, ih, hsection]
  rw [loadProject, loadManifest, Option.map_bind]
  congr 1
  funext text
  rw [Function.comp_apply, Option.map_bind]
  congr 1
  funext ts
  rw [Function.comp_apply]
  split_ifs
  · rfl
  · exact congrArg some (hfold ts { rootDir })

/-! ## 8. What a line can add -/

/-- The dependencies of the tables. -/
def dependenciesOf (ts : List Table) : List Dependency := (ts.foldl readTable {}).dependencies

/-- `d` is read from a line `key = value`. -/
def Contributes (line : Text) (d : Dependency) : Prop :=
  ∃ c rest k v, trim (stripComment line) = c :: rest ∧ c ≠ '[' ∧ splitKv (c :: rest) = some (k, v) ∧
    d = readDependency (k, v)

theorem dependencies_readTable (m : Manifest) (t : Table) : (readTable m t).dependencies =
    m.dependencies ++ if t.header = "dependencies".toList then t.keys.map readDependency else [] := by
  rw [readTable]
  split_ifs <;> simp

theorem dependenciesOf_concat (t : Table) : dependenciesOf (ts ++ [t]) =
    dependenciesOf ts ++ if t.header = "dependencies".toList then t.keys.map readDependency else [] := by
  rw [dependenciesOf, foldl_append]
  exact dependencies_readTable _ t

/-- **One line** adds a dependency at most, and one that it is the line of. -/
theorem parseLine_adds {ts ts' : List Table} {line : Text} (h : parseLine ts line = some ts') :
    ∃ o : Option Dependency, dependenciesOf ts' = dependenciesOf ts ++ o.toList ∧ ∀ d ∈ o,
      Contributes line d := by
  have hnone : ∀ {o : Option Dependency}, o = none → ∀ d ∈ o, Contributes line d := fun ho d hd => by
    rw [ho] at hd
    cases hd
  cases ht : trim (stripComment line) with
  | nil =>
    rw [parseLine, ht] at h
    obtain rfl := some_inj.mp h
    exact ⟨none, by simp, hnone rfl⟩
  | cons c rest =>
    by_cases hc : c = '['
    · -- a header opens a table that has no keys yet
      rw [parseLine, ht, hc] at h
      obtain ⟨name, -, rfl⟩ := map_eq_some_iff.mp h
      exact ⟨none, by rw [dependenciesOf_concat, map_nil, ite_self]; rfl, hnone rfl⟩
    · rw [parseLine_of_head ht hc, Option.bind_eq_some_iff] at h
      obtain ⟨⟨k, v⟩, hsplit, hadd⟩ := h
      rcases eq_nil_or_concat' ts with rfl | ⟨ts₀, ⟨header, keys⟩, rfl⟩
      · cases hadd
      · rw [addKey, getLast?_concat, dropLast_concat] at hadd
        simp only at hadd
        split at hadd
        · cases hadd
        · obtain rfl := some_inj.mp hadd
          by_cases hheader : header = "dependencies".toList
          · refine ⟨some (readDependency (k, v)), ?_, fun d hd => ⟨c, rest, k, v, ht, hc, hsplit, ?_⟩⟩
            · rw [dependenciesOf_concat, dependenciesOf_concat, if_pos hheader, if_pos hheader, map_append,
                append_assoc]
              rfl
            · exact (some_inj.mp hd).symm
          · refine ⟨none, ?_, hnone rfl⟩
            rw [dependenciesOf_concat, dependenciesOf_concat, if_neg hheader, if_neg hheader]
            exact (append_nil _).symm

/-- **Lines** add as many dependencies as they are at most. -/
theorem foldlM_adds : ∀ {ls : List Text} {ts ts' : List Table}, ls.foldlM parseLine ts = some ts' →
    ∃ os : List (Option Dependency), dependenciesOf ts' = dependenciesOf ts ++ os.reduceOption ∧
      List.Forall₂ (fun line o => ∀ d ∈ o, Contributes line d) ls os
  | [], ts, ts', h => by
    obtain rfl : ts = ts' := by simpa using h
    exact ⟨[], by simp, .nil⟩
  | line :: ls, ts, ts', h => by
    rw [foldlM_cons, bind_eq_bind, Option.bind_eq_some_iff] at h
    obtain ⟨ts₁, hline, hrest⟩ := h
    obtain ⟨o, hadd, ho⟩ := parseLine_adds hline
    obtain ⟨os, hadds, hos⟩ := foldlM_adds hrest
    refine ⟨o :: os, ?_, .cons ho hos⟩
    rw [hadds, hadd, append_assoc]
    cases o <;> simp

theorem name_foldl_readKey : ∀ (kvs : List (Text × Text)) (dep : Dependency),
    (kvs.foldl readKey dep).name = dep.name
  | [], _ => rfl
  | kv :: kvs, dep => by
    have hkey : (readKey dep kv).name = dep.name := by
      rw [readKey]
      split_ifs <;> rfl
    rw [foldl_cons, name_foldl_readKey kvs, hkey]

theorem name_readDependency (k v : Text) : (readDependency (k, v)).name = k := by
  have hread : ∀ dep : Dependency, dep.name = k →
      ((if dep.source = .version && dep.version.isEmpty then { dep with source := .path } else dep).name = k) ∧
      ((if dep.source = .path && dep.path.isEmpty then { dep with source := .version } else dep).name = k) := by
    intro dep hdep
    constructor <;> split_ifs <;> exact hdep
  refine (hread _ (hread _ ?_).2).1
  split_ifs
  · exact name_foldl_readKey _ _
  · rfl

theorem cut_eq_some :
    ∀ {x : Char} {b : Bool} {s p q : Text}, cutOutsideQuotes x b s = some (p, q) → s = p ++ x :: q
  | _, _, [], _, _, h => by cases h
  | x, b, c :: s, p, q, h => by
    rw [cutOutsideQuotes] at h
    split_ifs at h with hquote hx
    · obtain ⟨⟨p', q'⟩, hrec, heq⟩ := map_eq_some_iff.mp h
      cases heq
      exact congrArg (c :: ·) (cut_eq_some hrec)
    · obtain ⟨rfl, rfl⟩ := Prod.mk.inj (some_inj.mp h)
      rw [Bool.and_eq_true, decide_eq_true_eq] at hx
      rw [hx.1]
      rfl
    · obtain ⟨⟨p', q'⟩, hrec, heq⟩ := map_eq_some_iff.mp h
      cases heq
      exact congrArg (c :: ·) (cut_eq_some hrec)

theorem splitKv_eq_some {s k v : Text} (h : splitKv s = some (k, v)) :
    ∃ left right, cutOutsideQuotes '=' false s = some (left, right) ∧ k = trim left ∧ k ≠ [] := by
  rw [splitKv] at h
  cases hcut : cutOutsideQuotes '=' false s with
  | none =>
    rw [hcut] at h
    cases h
  | some p =>
    rw [hcut] at h
    simp only at h
    split_ifs at h with hempty
    obtain ⟨rfl, -⟩ := Prod.mk.inj (some_inj.mp h)
    refine ⟨p.1, p.2, rfl, rfl, fun hnil => hempty ?_⟩
    rw [hnil]
    rfl

/-- **The name of a dependency** that its own line adds can stand before a `=`. -/
theorem keyOk_of_contributes {d : Dependency}
    (hclean : Clean d.name ∧ Clean d.path ∧ Clean d.url ∧ Clean d.version)
    (h : Contributes (keyLine d.name (dependencyValue d)) d) : KeyOk d.name := by
  obtain ⟨hname, hpath, -, hversion⟩ := hclean
  obtain ⟨c, rest, k, v, ht, hc, hsplit, hd⟩ := h
  have hk : k = d.name := by rw [hd, name_readDependency]
  obtain ⟨left, right, hcut, hleft, hne⟩ := splitKv_eq_some hsplit
  have htrim : trim k = k := by rw [hleft, trim_trim]
  rw [hk] at hleft htrim hne
  -- what stands behind a `#` is no longer there
  have hcomment : '#' ∉ d.name := fun hmem => by
    obtain ⟨a, b, hab, ha⟩ := eq_append_cons_of_mem hmem
    have hstrip : stripComment (keyLine d.name (dependencyValue d)) = a := by
      have hline : keyLine d.name (dependencyValue d) = a ++ '#' :: (b ++ " = ".toList ++ dependencyValue d) := by
        simp [hab]
      rw [stripComment, hline, cut_of_passes (passes_plain (fun hq => hname.1 (by simp [hab,
        hq])) ha) (by decide)]
    rw [hstrip] at ht
    have hsub : '#' ∈ a := by
      refine mem_of_mem_trim (ht ▸ ?_)
      rw [cut_eq_some hcut]
      exact mem_append_left _ (mem_of_mem_trim (hleft ▸ hmem))
    exact ha hsub
  have hline : c :: rest = keyLine d.name (dependencyValue d) := by
    have hpass : Passes '#' (keyLine d.name (dependencyValue d)) :=
      ((passes_plain hname.1 hcomment).append (passes_plain (by decide) (by decide))).append
        (passes_dependencyValue hpath.1 hversion.1)
    have htight : Tight (keyLine d.name (dependencyValue d)) :=
      tight_append (by simp [hne]) (cons_ne_nil _ _) (fun c hc => (htrim ▸ tight_trim d.name).head c (by
        rwa [head?_append_of_ne_nil _ hne] at hc)) (tight_dependencyValue d).last
    rw [← ht, stripComment, hpass.cut, trim_of_tight htight]
  refine ⟨hne, htrim, hcomment, fun hmem => ?_, fun hhead => hc ?_⟩
  · -- a `=` in the name would end it
    obtain ⟨a, b, hab, ha⟩ := eq_append_cons_of_mem hmem
    have hcut' : cutOutsideQuotes '=' false (c :: rest) = some (a, b ++ " = ".toList ++ dependencyValue d) := by
      have hfirst : keyLine d.name (dependencyValue d) = a ++ '=' :: (b ++ " = ".toList ++ dependencyValue d) := by
        simp [hab]
      rw [hline, hfirst, cut_of_passes (passes_plain (fun hq => hname.1 (by simp [hab, hq])) ha) (by decide)]
    rw [hcut, some_inj] at hcut'
    cases hcut'
    exact ha (mem_of_mem_trim (hleft ▸ hmem))
  · have hc' : (c :: rest).head? = some '[' := by
      rw [hline, keyLine, append_assoc, head?_append_of_ne_nil _ hne]
      exact hhead
    exact some_inj.mp hc'

theorem eq_map_some {α : Type} : ∀ {os : List (Option α)}, os.reduceOption.length = os.length →
    os = os.reduceOption.map some
  | [], _ => rfl
  | o :: os, h => by
    have hall := reduceOption_length_eq_iff.mp h
    obtain ⟨a, rfl⟩ := Option.isSome_iff_exists.mp (hall o mem_cons_self)
    have ih := eq_map_some (reduceOption_length_eq_iff.mpr fun x hx => hall x (mem_cons_of_mem _ hx))
    rw [reduceOption_cons_of_some, map_cons, ← ih]

theorem dependenciesOf_head (m : ProjectManifest) : dependenciesOf (headTables m ++
    if m.dependencies.isEmpty then [] else [⟨"dependencies".toList, []⟩]) = [] := by
  have hbins : ∀ bins : List Bin, dependenciesOf (packageTable m :: bins.map binTable) = [] := by
    intro bins
    induction bins using reverseRecOn with
    | nil => rfl
    | append_singleton bins b ih =>
      rw [map_append, ← cons_append]
      exact (dependenciesOf_concat _ (binTable b)).trans (by rw [ih]; rfl)
  have hhead : dependenciesOf (headTables m) = [] := by
    rw [headTables]
    split
    · exact hbins m.bins
    · rfl
  split
  · rw [append_nil, hhead]
  · rw [dependenciesOf_concat, hhead, map_nil, ite_self]
    rfl

/-- **If a manifest is read back**, every dependency was added by its own line. -/
theorem contributes_of_round_trip (hm : CleanManifest m)
    (h : loadProject m.rootDir (some (manifestToToml m)) = some m) :
    ∀ d ∈ m.dependencies, Contributes (keyLine d.name (dependencyValue d)) d := by
  have hload := loadProject_manifest m.rootDir (some (manifestToToml m))
  rw [h, Option.map_some, loadManifest, bind_some, parseToml_manifestToToml hm] at hload
  obtain ⟨ts, hts, hread⟩ := Option.bind_eq_some_iff.mp hload.symm
  split_ifs at hread
  have hdeps : dependenciesOf ts = m.dependencies := congrArg Manifest.dependencies (some_inj.mp hread)
  obtain ⟨os, hadds, hos⟩ := foldlM_adds hts
  rw [dependenciesOf_head, nil_append, hdeps] at hadds
  -- as many dependencies as lines: no line has added none
  have hlen : os.reduceOption.length = os.length := by
    rw [← hadds, ← hos.length_eq, dependencyLines, length_map]
  rw [eq_map_some hlen, ← hadds, dependencyLines, forall₂_map_left_iff, forall₂_map_right_iff,
    forall₂_same] at hos
  exact fun d hd => hos d hd d rfl

/-! ## 9. The round trip -/

/-- A dependency that is read back as it was written. -/
def Kept (d : Dependency) : Prop :=
  KeyOk d.name ∧ d.url = [] ∧
    ((d.source = .path ∧ d.version = []) ∨ (d.source = .version ∧ d.path = [] ∧ d.version ≠ []))

theorem readBack_eq_iff (d : Dependency) : readBack d = d ↔ d.url = [] ∧
    ((d.source = .path ∧ d.version = []) ∨ (d.source = .version ∧ d.path = [] ∧ d.version ≠ [])) := by
  obtain ⟨name, source, path, url, version⟩ := d
  cases source <;> cases version <;> simp [readBack, eq_comm, and_comm]

/-- The manifests that are read back as they were written. -/
structure Faithful (m : ProjectManifest) : Prop where
  mod : m.mod = {}
  implicitBins : m.hasExplicitBins = false
  bins : m.bins = [{ name := m.name }]
  name : m.name = "unnamed".toList → filename m.rootDir = [] ∨ filename m.rootDir = "unnamed".toList
  dependencies : ∀ d ∈ m.dependencies, Kept d

theorem readBackManifest_eq_iff (m : ProjectManifest) : readBackManifest m = m ↔
    m.mod = {} ∧ m.hasExplicitBins = false ∧ m.bins = [{ name := m.name }] ∧ givenName m = m.name ∧
      ∀ d ∈ m.dependencies, readBack d = d := by
  constructor
  · intro h
    have hname : givenName m = m.name := congrArg ProjectManifest.name h
    have hbins : [({ name := givenName m } : Bin)] = m.bins := congrArg ProjectManifest.bins h
    have hdeps : m.dependencies.map readBack = m.dependencies := congrArg (·.dependencies) h
    refine ⟨(congrArg (·.mod) h).symm, (congrArg ProjectManifest.hasExplicitBins h).symm, ?_, hname,
      fun d hd => ?_⟩
    · rw [← hbins, hname]
    · exact map_inj_left.mp (hdeps.trans (map_id _).symm) d hd
  · rintro ⟨hmod, hexplicit, hbins, hname, hdeps⟩
    have hall : m.dependencies.map readBack = m.dependencies :=
      (map_congr_left hdeps).trans (map_id _)
    rw [readBackManifest, hname, ← hbins, hall, ← hmod, ← hexplicit]

theorem givenName_eq_iff (m : ProjectManifest) : givenName m = m.name ↔
    (m.name = "unnamed".toList → filename m.rootDir = [] ∨ filename m.rootDir = "unnamed".toList) := by
  rw [givenName]
  by_cases hname : m.name = "unnamed".toList
  · rw [decide_eq_true hname, Bool.true_and, hname]
    by_cases hempty : filename m.rootDir = []
    · simp only [hempty, isEmpty_nil, Bool.not_true, Bool.false_eq_true, if_false, true_or, implies_true]
    · have hne : (!(filename m.rootDir).isEmpty) = true := by simpa using hempty
      rw [if_pos hne]
      exact ⟨fun h _ => .inr h, fun h => (h rfl).resolve_left hempty⟩
  · rw [decide_eq_false hname, Bool.false_and, if_neg Bool.false_ne_true]
    exact iff_of_true rfl fun h => absurd h hname

/-- **The round trip of a manifest.** -/
theorem manifest_round_trip_iff (m : ProjectManifest) (hm : CleanManifest m) :
    loadProject m.rootDir (some (manifestToToml m)) = some m ↔ Faithful m := by
  constructor
  · intro h
    have hk : ∀ d ∈ m.dependencies, KeyOk d.name := fun d hd =>
      keyOk_of_contributes (hm.dependencies d hd) (contributes_of_round_trip hm h d hd)
    rw [loadProject_of_keyOk hm hk, some_inj, readBackManifest_eq_iff, givenName_eq_iff] at h
    obtain ⟨hmod, hexplicit, hbins, hname, hdeps⟩ := h
    exact ⟨hmod, hexplicit, hbins, hname, fun d hd => ⟨hk d hd, (readBack_eq_iff d).mp (hdeps d hd)⟩⟩
  · intro h
    rw [loadProject_of_keyOk hm fun d hd => (h.dependencies d hd).1, some_inj, readBackManifest_eq_iff,
      givenName_eq_iff]
    exact ⟨h.mod, h.implicitBins, h.bins, h.name, fun d hd => (readBack_eq_iff d).mpr (h.dependencies d hd).2⟩

/-- A manifest of the package `app` with some dependencies. -/
def appManifest (dependencies : List Dependency) : ProjectManifest :=
  { name := "app".toList, version := "0.1.0".toList, bins := [{ name := "app".toList }],
    rootDir := "/home/app".toList, dependencies }

/-- A path and a version. -/
def keptDependencies : List Dependency :=
  [{ name := "lib".toList, source := .path, path := "../lib # 2".toList },
    { name := "json".toList, source := .version, version := "1.2".toList }]

theorem manifest_round_trip_kept :
    loadProject "/home/app".toList (some (manifestToToml (appManifest keptDependencies))) =
      some (appManifest keptDependencies) := by
  refine (manifest_round_trip_iff (appManifest keptDependencies) ⟨by decide, by decide, by decide, by decide,
    by decide⟩).mpr
    ⟨rfl, rfl, rfl, fun h => absurd h (by decide), fun d hd => ?_⟩
  simp only [appManifest, keptDependencies, mem_cons, not_mem_nil, or_false] at hd
  rcases hd with rfl | rfl
  · exact ⟨by decide, rfl, .inl ⟨rfl, rfl⟩⟩
  · exact ⟨by decide, rfl, .inr ⟨rfl, rfl, by decide⟩⟩

/-- A second binary, a git dependency, a path dependency with a version, a freedom boundary: none of them is
    there again after writing and reading. -/
def lostManifests : List ProjectManifest :=
  [{ appManifest [] with
      hasExplicitBins := true
      bins := [{ name := "app".toList }, { name := "tool".toList, path := "src/tool.vyb".toList }] },
    appManifest [{ name := "lib".toList, source := .git, url := "lib.git".toList }],
    appManifest [{ name := "lib".toList, source := .path, path := "../lib".toList, version := "1.0".toList }],
    { appManifest [] with mod := ⟨true, ["ffi".toList]⟩ }]

theorem round_trips_lost : lostManifests.length = 4 ∧ ∀ m ∈ lostManifests,
    CleanManifest m ∧ loadProject m.rootDir (some (manifestToToml m)) ≠ some m := by
  refine ⟨rfl, fun m hm => ?_⟩
  simp only [lostManifests, mem_cons, not_mem_nil, or_false] at hm
  rcases hm with rfl | rfl | rfl | rfl
  all_goals exact ⟨⟨by decide, by decide, by decide, by decide, by decide⟩, by decide +kernel⟩

end Vyb.Packages
