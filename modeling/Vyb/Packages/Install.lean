/-
  Subject:   `vyb mod install` (`src/main.cpp`, `mod_install`): the specification of a source, the pin,
             the lock and the entry in `vyb.toml`.

  The pin is compared with the hash of one file, the primary. All module files are installed.

  * `parseSpec`, `sourceDir`, `modInstall` -- the code, over the local directories and the remote files;
  * **`pin_determines_iff`** -- when two installations with one pin install the same;
  * `sibling_not_pinned` -- which is not so for two directories with the same `mod.vyb`.
-/
import Vyb.Packages.Fetch

namespace Vyb.Packages

open List

open Vyb.Lib (search occurs cutAt replay_keys_nodup replay_of_nodup)

/-! ## 1. Sources -/

/-- The source and the pin: what follows the first `@`, if that is a hash. -/
def parseSpec (spec : Text) : Text × Text :=
  match cutAt '@' spec with
  | some (src, tail) =>
    if "sha256:".toList.isPrefixOf tail then (src, hexLower (tail.drop 7)) else (spec, [])
  | none => (spec, [])

/-- What an installation reads of the world around the project. -/
structure World where
  dirs : Text → Option Dir
  remote : Text → Option Text
  verify : Text → Text → Bool
  accept : Question → Bool

/-- The directory that a fetch has made. -/
def Fetched.dir (out : Fetched) : Dir where
  entries := out.files.map fun f => (f.1, .file f.2.bytes)
  distinct := by
    rw [map_map]
    exact replay_keys_nodup out.writes

inductive InstallError where
  | notSigned
  | fetch (e : FetchError)
  | badSpec
  | noDir
  | copy (e : CopyError)
  deriving DecidableEq, Repr

/-- The name under which a directory is installed. -/
def packageName (dirPath : Text) : Text :=
  let name := filename dirPath
  if name.isEmpty || name = ".".toList then "mod".toList else name

section Install

variable (sha : Text → Text) (W : World)

/-- The package name and the module directory of a source. -/
def sourceDir (src : Text) (requireSigned : Bool) : Except InstallError (Text × Dir) :=
  if "path:".toList.isPrefixOf src then
    if requireSigned then .error .notSigned
    else
      match W.dirs (src.drop 5) with
      | some dir => .ok (packageName (src.drop 5), dir)
      | none => .error .noDir
  else if "github:".toList.isPrefixOf src then
    match modFetchGithub sha W.remote W.verify (src.drop 7) requireSigned with
    | .ok out => .ok (packageName out.name, out.dir)
    | .error e => .error (.fetch e)
  else .error .badSpec

end Install

/-! ## 2. The project -/

/-- The entry of an installed module in `vyb.toml`. -/
def depLine (name : Text) : Text :=
  name ++ " = \x7b path = \".vybmod/".toList ++ name ++ "\" \x7d".toList

/-- A line that declares the dependency `name`. -/
def declares (name line : Text) : Bool :=
  (name ++ " =".toList).isPrefixOf (line.dropWhile fun c => c = ' ' || c = '\t')

/-- The manifest with a `[dependencies]`. -/
def withDependencies (toml : Text) : Text :=
  if occurs "[dependencies]".toList toml then toml
  else (if toml.isEmpty || toml.getLast? = some '\n' then toml else toml ++ ['\n']) ++
    "[dependencies]\n".toList

/-- `entry` below the line of the first `[dependencies]`. -/
def insertEntry (toml entry : Text) : Text :=
  match search "[dependencies]".toList toml with
  | none => toml
  | some found =>
    let before := toml.take (toml.length - found.length)
    match cutAt '\n' found with
    | some (header, rest) => before ++ header ++ ['\n'] ++ (entry ++ ['\n']) ++ rest
    | none => before ++ found ++ (entry ++ ['\n'])

/-- The entry replaces the declarations of its name. Without one it is put below the first
    `[dependencies]`, which is added if there is none. -/
def registerDependency (toml name : Text) : Text :=
  let entry := "  ".toList ++ depLine name
  if (getLines toml).any (declares name) then
    (getLines toml).flatMap fun line => (if declares name line then entry else line) ++ ['\n']
  else if occurs (depLine name) toml then toml
  else insertEntry (withDependencies toml) entry

/-- The files of the project that an installation reads and writes. -/
structure Project where
  lock : Text
  toml : Text
  vybmod : Text → List (Text × Text)

structure Installed where
  name : Text
  asked : Bool
  project : Project

section Install

variable (sha : Text → Text) (W : World)

def modInstall (P : Project) (spec : Text) (requireSigned yesAll : Bool) :
    Except InstallError Installed :=
  let (src, pin) := parseSpec spec
  match sourceDir sha W src requireSigned with
  | .error e => .error e
  | .ok (name, dir) =>
    let run := modCopyModuleInto sha W.accept dir name P.lock (P.vybmod name) src pin true yesAll
    match run.result with
    | .error e => .error (.copy e)
    | .ok m =>
      .ok ⟨name, run.asked,
        { lock := updateLock P.lock name src m.hex m.trust
          toml := registerDependency P.toml name
          vybmod := fun n => if n = name then m.files else P.vybmod n }⟩

end Install

/-! ## 3. Two installations with one pin -/

/-- The two directories have module files of the same names and with the same bytes; a file that is the
    hashed one in both, under a pin, need not be compared. -/
structure SameButPinned (pin : Text) (D D' : Dir) : Prop where
  names : ∀ n, n ∈ D.modFiles.map Prod.fst ↔ n ∈ D'.modFiles.map Prod.fst
  bytes : ∀ n b b', (n, b) ∈ D.modFiles → (n, b') ∈ D'.modFiles →
    ¬ (pin ≠ [] ∧ D.primary = some n ∧ D'.primary = some n) → b = b'

section Dirs

variable {D D' : Dir} {n b : Text}

theorem moduleFile_eq_some_iff {e : Text × Entry} :
    moduleFile e = some (n, b) ↔ e = (n, .file b) ∧ isVyb n = true := by
  obtain ⟨m, e⟩ := e
  cases e with
  | other => simp [moduleFile]
  | file bytes =>
    by_cases hvyb : isVyb m = true
    · constructor
      · intro h
        rw [moduleFile, if_pos hvyb] at h
        cases h
        exact ⟨rfl, hvyb⟩
      · intro ⟨h, _⟩
        obtain ⟨rfl, hb⟩ := Prod.mk.inj h
        rw [moduleFile, if_pos hvyb, Entry.file.inj hb]
    · constructor
      · intro h
        rw [moduleFile, if_neg hvyb] at h
        cases h
      · intro ⟨h, hn⟩
        rw [(Prod.mk.inj h).1] at hvyb
        exact absurd hn hvyb

theorem mem_modFiles : (n, b) ∈ D.modFiles ↔ (n, .file b) ∈ D.entries ∧ isVyb n = true := by
  simp [Dir.modFiles, mem_filterMap, moduleFile_eq_some_iff]

theorem moduleFiles_sublist : ∀ es : List (Text × Entry),
    ((es.filterMap moduleFile).map Prod.fst).Sublist (es.map Prod.fst)
  | [] => .slnil
  | e :: es => by
    rw [filterMap_cons, map_cons]
    cases hf : moduleFile e with
    | none => exact (moduleFiles_sublist es).cons _
    | some f =>
      obtain ⟨rfl, -⟩ := moduleFile_eq_some_iff.mp hf
      exact (moduleFiles_sublist es).cons_cons _

theorem lookup_of_mem (h : (n, b) ∈ D.modFiles) : D.entries.lookup n = some (.file b) := by
  obtain ⟨pre, post, hsplit⟩ := append_of_mem (mem_modFiles.mp h).1
  refine lookup_eq_some_iff.mpr ⟨pre, post, hsplit, fun e he => ?_⟩
  have hnd := D.distinct
  rw [hsplit, map_append, nodup_append'] at hnd
  simpa using fun heq : n = e.1 => hnd.2.2 (mem_map_of_mem he) (by simp [heq])

theorem read_of_mem (h : (n, b) ∈ D.modFiles) : D.read n = b := by
  rw [Dir.read, lookup_of_mem h]

end Dirs

section Runs

variable {sha : Text → Text} {W : World} {P : Project} {spec : Text} {requireSigned yesAll : Bool}
  {r : Installed}

/-- What an installation that succeeds has installed into an empty place: the module files of the
    source, whose primary meets the pin. -/
theorem modInstall_ok {name : Text} {D : Dir} (hrun : modInstall sha W P spec requireSigned yesAll = .ok r)
    (hsrc : sourceDir sha W (parseSpec spec).1 requireSigned = .ok (name, D)) (hempty : P.vybmod r.name = []) :
    r.project.vybmod r.name = D.modFiles ∧
      ∃ primary, Installable sha D (parseSpec spec).2 primary := by
  simp only [modInstall, hsrc] at hrun
  split at hrun
  · cases hrun
  · rename_i m hm
    obtain rfl := Except.ok.inj hrun
    obtain ⟨primary, hi, -, -, hfiles⟩ := installable_of_ok hm
    refine ⟨?_, primary, hi⟩
    simp only at hempty
    rw [hempty] at hfiles
    simp only [if_true]
    exact hfiles.trans (replay_of_nodup (D.distinct.sublist (moduleFiles_sublist D.entries)))

end Runs

/-- **Pinned installations.** Two installations that succeed with one pin, under one name and into empty
    places, leave the same module files exactly if their source directories have the same module files
    up to the one file that both have hashed. -/
theorem pin_determines_iff (sha : Text → Text) (hsha : Function.Injective sha) (W W' : World) (P P' : Project)
    (spec spec' : Text) (signed signed' yesAll yesAll' : Bool) (r r' : Installed) (D D' : Dir)
    (hrun : modInstall sha W P spec signed yesAll = .ok r)
    (hrun' : modInstall sha W' P' spec' signed' yesAll' = .ok r')
    (hsrc : sourceDir sha W (parseSpec spec).1 signed = .ok (r.name, D))
    (hsrc' : sourceDir sha W' (parseSpec spec').1 signed' = .ok (r'.name, D'))
    (hpin : (parseSpec spec).2 = (parseSpec spec').2) (hname : r.name = r'.name)
    (hempty : P.vybmod r.name = []) (hempty' : P'.vybmod r.name = []) :
    (∀ f, f ∈ r.project.vybmod r.name ↔ f ∈ r'.project.vybmod r.name) ↔
      SameButPinned (parseSpec spec).2 D D' := by
  rw [hname] at hempty'
  obtain ⟨hfiles, primary, -, hprimary, hhash⟩ := modInstall_ok hrun hsrc hempty
  obtain ⟨hfiles', primary', -, hprimary', hhash'⟩ := modInstall_ok hrun' hsrc' hempty'
  rw [hfiles, hname, hfiles']
  constructor
  · intro h
    refine ⟨fun n => ?_, fun n b b' hb hb' _ => ?_⟩
    · simp [h]
    · rw [← read_of_mem ((h _).mp hb), read_of_mem hb']
  · intro h
    -- the bytes agree under every name: by the condition, or by the pin
    have hbytes : ∀ n b b', (n, b) ∈ D.modFiles → (n, b') ∈ D'.modFiles → b = b' := by
      intro n b b' hb hb'
      by_cases hboth : (parseSpec spec).2 ≠ [] ∧ D.primary = some n ∧ D'.primary = some n
      · obtain ⟨hne, hn, hn'⟩ := hboth
        obtain rfl := Option.some.inj (hprimary.symm.trans hn)
        obtain rfl := Option.some.inj (hprimary'.symm.trans hn')
        refine hsha ?_
        rw [← read_of_mem hb, ← read_of_mem hb', hhash.resolve_left hne,
          hhash'.resolve_left (hpin ▸ hne), hpin]
      · exact h.bytes n b b' hb hb' hboth
    intro ⟨n, b⟩
    constructor
    · intro hb
      obtain ⟨⟨m, b'⟩, hb', rfl⟩ := mem_map.mp ((h.names n).mp (mem_map_of_mem hb))
      rwa [hbytes _ _ _ hb hb']
    · intro hb'
      obtain ⟨⟨m, b⟩, hb, rfl⟩ := mem_map.mp ((h.names n).mpr (mem_map_of_mem hb'))
      rwa [← hbytes _ _ _ hb hb']

/-! ## 4. A file that no pin covers -/

/-- A local directory with a `mod.vyb` and one other module file. -/
def withSibling (bytes : Text) : Dir where
  entries := [(modVyb, .file "m".toList), ("helper.vyb".toList, .file bytes)]
  distinct := (by decide : [modVyb, "helper.vyb".toList].Nodup)

/-- A world whose one directory is `lib`. -/
def localWorld (D : Dir) : World where
  dirs := fun p => if p = "lib".toList then some D else none
  remote := fun _ => none
  verify := fun _ _ => false
  accept := fun _ => false

def emptyProject : Project := ⟨[], [], fun _ => []⟩

/-- The pinned specification of `lib`. -/
abbrev libSpec : Text := "path:lib@sha256:m".toList

/-- What an installation of `libSpec` leaves of `withSibling bytes`. -/
def libInstalled (bytes : Text) : Installed where
  name := "lib".toList
  asked := false
  project :=
    { lock := updateLock [] "lib".toList "path:lib".toList "m".toList none
      toml := registerDependency [] "lib".toList
      vybmod := fun n => if n = "lib".toList then
        [(modVyb, "m".toList), ("helper.vyb".toList, bytes)] else [] }

theorem pin_determines_lib :
    modInstall id (localWorld (withSibling "a".toList)) emptyProject libSpec false false =
      .ok (libInstalled "a".toList) ∧
    ((∀ f, f ∈ (libInstalled "a".toList).project.vybmod "lib".toList ↔
        f ∈ (libInstalled "a".toList).project.vybmod "lib".toList) ↔
      SameButPinned "m".toList (withSibling "a".toList) (withSibling "a".toList)) :=
  ⟨rfl, pin_determines_iff id Function.injective_id (localWorld (withSibling "a".toList))
    (localWorld (withSibling "a".toList)) emptyProject emptyProject libSpec libSpec false false false
    false (libInstalled "a".toList) (libInstalled "a".toList) _ _ rfl rfl rfl rfl rfl rfl rfl rfl⟩

/-- Two installations with one pin, and different files. The hash is injective: it is the identity. -/
theorem sibling_not_pinned :
    modInstall id (localWorld (withSibling "a".toList)) emptyProject libSpec false false =
      .ok (libInstalled "a".toList) ∧
    modInstall id (localWorld (withSibling "b".toList)) emptyProject libSpec false false =
      .ok (libInstalled "b".toList) ∧
    ¬ ∀ f, f ∈ (libInstalled "a".toList).project.vybmod "lib".toList ↔
      f ∈ (libInstalled "b".toList).project.vybmod "lib".toList := by
  refine ⟨rfl, rfl, fun h => ?_⟩
  exact absurd ((h ("helper.vyb".toList, "a".toList)).mp (by decide)) (by decide)

end Vyb.Packages
