/-
  Subject:   The trust gate of package installation (`src/main.cpp`, `mod_copy_module_into` and
             `vyb.lock`).

  A package that declares a freedom boundary or capabilities is installed without a question if
  `vyb.lock` says that it was accepted before. The lock is searched as a text: for the first place that
  reads `<name> = {`, wherever it stands, with `capabilities` behind it on the line.

  * `Dir` -- a directory, its entries in the order in which it is enumerated;
  * `modCopyModuleInto` -- the copy of a module directory into `.vybmod/<name>`, with the pin, the trust
    gate and whether a question was asked;
  * `lockEntry`, `updateLock` -- the line that an installation records, and the new lock;
  * **`silent_iff`** -- when it is true that nothing is installed silently which the lock does not
    record, with name, source, hash and capabilities;
  * `foreign_entry_trusted` -- an entry of another package, and one of other content, that are taken for
    the acceptance.
-/
import Vyb.Lib.Overwrite
import Vyb.Lib.Search
import Vyb.Packages.Manifest

namespace Vyb.Packages

open List

open Vyb.Lib (overwrite search occurs takeUntil search_eq_some_iff occurs_iff)

/-! ## 1. Directories -/

/-- What stands under a name: a regular file or something else. -/
inductive Entry where
  | file (bytes : Text)
  | other
  deriving DecidableEq, Repr

/-- A directory, in the order of its enumeration. -/
structure Dir where
  entries : List (Text × Entry)
  distinct : (entries.map Prod.fst).Nodup

namespace Dir

def has (d : Dir) (name : Text) : Bool := (d.entries.lookup name).isSome

/-- `modReadFile`: what is not a file reads as nothing. -/
def read (d : Dir) (name : Text) : Text :=
  match d.entries.lookup name with
  | some (.file bytes) => bytes
  | _ => []

/-- The contents of `vyb.toml`, if it is there. -/
def toml (d : Dir) : Option Text :=
  if d.has "vyb.toml".toList then some (d.read "vyb.toml".toList) else none

end Dir

/-- `path.extension() == ".vyb"`; a name that begins with its last dot has no extension. -/
def isVyb (name : Text) : Bool := ".vyb".toList.isSuffixOf name && decide (4 < name.length)

/-- An entry that is a regular file with the extension of modules. -/
def moduleFile : Text × Entry → Option (Text × Text)
  | (name, .file bytes) => if isVyb name then some (name, bytes) else none
  | (_, .other) => none

/-- The module files of a directory. -/
def Dir.modFiles (d : Dir) : List (Text × Text) := d.entries.filterMap moduleFile

abbrev modVyb : Text := "mod.vyb".toList

/-- The file whose hash stands for the module: `mod.vyb`, and without one the last module file of the
    enumeration. -/
def Dir.primary (d : Dir) : Option Text :=
  if d.has modVyb then some modVyb else d.modFiles.getLast?.map Prod.fst

/-! ## 2. The lock -/

/-- The lines that `std::getline` reads. -/
def getLines (s : Text) : List Text :=
  let ls := lines s
  if ls.getLast? = some [] then ls.dropLast else ls

/-- `", "` between the entries and a blank at both ends. -/
def quotedList : List Text → Text
  | [] => []
  | c :: cs => " \"".toList ++ c ++ "\"".toList ++
    cs.flatMap (fun c => ", \"".toList ++ c ++ "\"".toList) ++ " ".toList

/-- The line that an installation records; `trust` is what a privileged package has declared. -/
def lockEntry (name src hex : Text) (trust : Option ModTable) : Text :=
  name ++ " = \x7b source = \"".toList ++ src ++ "\", sha256 = \"".toList ++ hex ++ "\"".toList ++
    (match trust with
      | some m => ", capabilities = [".toList ++ quotedList m.capabilities ++ "]".toList ++
        if m.freedomBoundary then ", freedom = true".toList else []
      | none => []) ++ " \x7d".toList

/-- The text that begins an entry. -/
abbrev entryStart (name : Text) : Text := name ++ " = \x7b".toList

/-- The lock that an installation writes: the entry replaces those of its name. -/
def updateLock (lock name src hex : Text) (trust : Option ModTable) : Text :=
  ((getLines lock).filter fun line => !(entryStart name).isPrefixOf line).flatMap (· ++ ['\n']) ++
    lockEntry name src hex trust ++ ['\n']

/-- `mod_lock_already_trusted` -/
def lockAlreadyTrusted (lock name : Text) : Bool :=
  match search (entryStart name) lock with
  | none => false
  | some rest => occurs "capabilities".toList (takeUntil '\n' rest)

/-! ## 3. The copy -/

/-- What `mod_confirm_privileged` shows before it asks. -/
structure Question where
  name : Text
  src : Text
  hex : Text
  trust : ModTable
  deriving DecidableEq, Repr

inductive CopyError where
  | noModule
  | pinMismatch (pinned fetched : Text)
  | needsInstall
  | notAccepted
  deriving DecidableEq, Repr

/-- The module directory after the copy, the hash of the primary and the declarations. -/
structure Materialized where
  files : List (Text × Text)
  hex : Text
  trust : Option ModTable
  deriving DecidableEq, Repr

structure CopyRun where
  asked : Bool
  result : Except CopyError Materialized

section Copy

variable (sha : Text → Text) (accept : Question → Bool)

/-- The trust gate: whether it asks, and whether the installation may go on. -/
def trustGate (lock : Text) (q : Question) (yesAll : Bool) : Bool × Bool :=
  if lockAlreadyTrusted lock q.name || yesAll then (false, true) else (true, accept q)

/-- The hash of the primary, where there is a module and the hash meets the pin. -/
def primaryHex (dir : Dir) (pin : Text) : Except CopyError Text :=
  match dir.primary with
  | none => .error .noModule
  | some primary =>
    let hex := sha (dir.read primary)
    if dir.modFiles.isEmpty then .error .noModule
    else if !pin.isEmpty && hex ≠ pin then .error (.pinMismatch pin hex)
    else .ok hex

/-- `sha` is the hash in lower-case hexadecimal, `accept` the answer of `mod_confirm_privileged`. -/
def modCopyModuleInto (dir : Dir) (name lock : Text) (dest : List (Text × Text)) (src pin : Text)
    (allowPrivileged yesAll : Bool) : CopyRun :=
  match primaryHex sha dir pin with
  | .error e => ⟨false, .error e⟩
  | .ok hex =>
    let trust := privilegedFrom dir.toml
    let done : Except CopyError Materialized :=
      .ok ⟨dir.modFiles.foldl overwrite dest, hex, trust⟩
    match trust with
    | none => ⟨false, done⟩
    | some m =>
      if !allowPrivileged then ⟨false, .error .needsInstall⟩
      else
        let gate := trustGate accept lock ⟨name, src, hex, m⟩ yesAll
        ⟨gate.1, if gate.2 then done else .error .notAccepted⟩

end Copy

/-! ## 4. What the lock records -/

/-- The lock has the line that records an acceptance of exactly this. -/
def Recorded (lock name src hex : Text) (m : ModTable) : Prop :=
  lockEntry name src hex (some m) ∈ getLines lock

instance (lock name src hex : Text) (m : ModTable) : Decidable (Recorded lock name src hex m) :=
  inferInstanceAs (Decidable (_ ∈ _))

/-- The first place of the lock that reads `<name> = {` is followed by `capabilities` on its line. -/
def Mentioned (lock name : Text) : Prop :=
  ∃ t, t <:+ lock ∧ entryStart name <+: t ∧
    (∀ u, u <:+ lock → entryStart name <+: u → u.length ≤ t.length) ∧
    "capabilities".toList <:+: takeUntil '\n' t

theorem lockAlreadyTrusted_iff {lock name : Text} :
    lockAlreadyTrusted lock name = true ↔ Mentioned lock name := by
  unfold lockAlreadyTrusted
  constructor
  · intro h
    split at h
    · cases h
    · rename_i rest hs
      obtain ⟨hsuffix, hstart, hfirst⟩ := search_eq_some_iff.mp hs
      exact ⟨rest, hsuffix, hstart, hfirst, occurs_iff.mp h⟩
  · intro ⟨t, hsuffix, hstart, hfirst, hcap⟩
    rw [search_eq_some_iff.mpr ⟨hsuffix, hstart, hfirst⟩]
    exact occurs_iff.mpr hcap

variable (s : Text)

theorem lines_newline : lines ('\n' :: s) = [] :: lines s := rfl

theorem lines_head : ∃ ls, lines s = takeUntil '\n' s :: ls := by
  induction s with
  | nil => exact ⟨[], rfl⟩
  | cons c s ih =>
    by_cases hc : c = '\n'
    · subst hc
      exact ⟨lines s, rfl⟩
    · obtain ⟨ls, hls⟩ := ih
      refine ⟨ls, ?_⟩
      rw [lines, foldr_cons, if_neg hc, ← lines, hls]
      simp [takeUntil, hc]

/-- A character that is no line break goes to the front of the first line. -/
theorem lines_cons {c : Char} (hc : c ≠ '\n') {s l : Text} {ls : List Text} (h : lines s = l :: ls) :
    lines (c :: s) = (c :: l) :: ls := by
  rw [lines, foldr_cons, if_neg hc, ← lines, h]

theorem lines_append (a b : Text) : lines (a ++ '\n' :: b) = lines a ++ lines b := by
  induction a with
  | nil => rfl
  | cons c a ih =>
    by_cases hc : c = '\n'
    · subst hc
      exact congrArg ([] :: ·) ih
    · obtain ⟨ls, hls⟩ := lines_head a
      rw [hls, cons_append] at ih
      rw [cons_append, lines_cons hc ih, lines_cons hc hls, cons_append]

theorem lines_flatMap {ls : List Text} (h : ∀ l ∈ ls, '\n' ∉ l) :
    lines (ls.flatMap (· ++ ['\n'])) = ls ++ [[]] := by
  have hone : ∀ l : Text, '\n' ∉ l → lines l = [l] := by
    intro l hl
    induction l with
    | nil => rfl
    | cons c l ih =>
      obtain ⟨hc, hl⟩ := not_or.mp (mt mem_cons.mpr hl)
      exact lines_cons (Ne.symm hc) (ih hl)
  induction ls with
  | nil => rfl
  | cons l ls ih =>
    rw [flatMap_cons, append_assoc, singleton_append, lines_append,
      hone l (h l mem_cons_self), ih fun l hl => h l (mem_cons_of_mem _ hl)]
    rfl

theorem getLines_flatMap {ls : List Text} (h : ∀ l ∈ ls, '\n' ∉ l) :
    getLines (ls.flatMap (· ++ ['\n'])) = ls := by
  simp [getLines, lines_flatMap h]

theorem newline_not_mem_lines : ∀ l ∈ lines s, '\n' ∉ l := by
  induction s with
  | nil => simp [lines]
  | cons c s ih =>
    by_cases hc : c = '\n'
    · rw [hc, lines_newline]
      simpa using ih
    · obtain ⟨ls, hls⟩ := lines_head s
      rw [hls] at ih
      rw [lines_cons hc hls]
      simpa [Ne.symm hc] using ih

theorem newline_not_mem_getLines : ∀ l ∈ getLines s, '\n' ∉ l := by
  intro l hl
  unfold getLines at hl
  dsimp only at hl
  split at hl
  · exact newline_not_mem_lines s l (mem_of_mem_dropLast hl)
  · exact newline_not_mem_lines s l hl

/-- **The writer.** The new lock has the lines of the old one that do not begin with the name, and the
    record. -/
theorem getLines_updateLock {lock name src hex : Text} {trust : Option ModTable}
    (hentry : '\n' ∉ lockEntry name src hex trust) :
    getLines (updateLock lock name src hex trust) =
      ((getLines lock).filter fun line => !(entryStart name).isPrefixOf line) ++
        [lockEntry name src hex trust] := by
  have hnew : ∀ l ∈ ((getLines lock).filter fun line => !(entryStart name).isPrefixOf line) ++
      [lockEntry name src hex trust], '\n' ∉ l := by
    intro l hl
    rcases mem_append.mp hl with hl | hl
    · exact newline_not_mem_getLines lock l (mem_of_mem_filter hl)
    · rwa [mem_singleton.mp hl]
  rw [← getLines_flatMap hnew, flatMap_append]
  simp [updateLock]

/-- An acceptance is on record after the installation, and the lines of other packages are kept. -/
theorem recorded_updateLock {lock name src hex : Text} {m : ModTable}
    (hentry : '\n' ∉ lockEntry name src hex (some m)) :
    Recorded (updateLock lock name src hex (some m)) name src hex m ∧
      ∀ line ∈ getLines lock, ¬ entryStart name <+: line →
        line ∈ getLines (updateLock lock name src hex (some m)) := by
  rw [Recorded, getLines_updateLock hentry]
  refine ⟨by simp, fun line hline hother => mem_append_left _ (mem_filter.mpr ⟨hline, ?_⟩)⟩
  rw [← isPrefixOf_iff_prefix, Bool.not_eq_true] at hother
  rw [hother]
  rfl

/-- The directory has a module, and its primary meets the pin if there is one. -/
def Installable (sha : Text → Text) (dir : Dir) (pin primary : Text) : Prop :=
  dir.modFiles ≠ [] ∧ dir.primary = some primary ∧ (pin = [] ∨ sha (dir.read primary) = pin)

section Copy

variable {sha : Text → Text} {accept : Question → Bool} {dir : Dir} {name lock src pin : Text}
  {dest : List (Text × Text)} {allowPrivileged yesAll : Bool}

theorem primaryHex_eq_ok_iff {hex : Text} : primaryHex sha dir pin = .ok hex ↔
    ∃ primary, Installable sha dir pin primary ∧ hex = sha (dir.read primary) := by
  unfold primaryHex Installable
  cases dir.primary with
  | none => simp
  | some primary =>
    by_cases hf : dir.modFiles = []
    · simp [hf]
    · by_cases hpin : pin = []
      · simp [hf, hpin, eq_comm (a := hex)]
      · by_cases hhex : sha (dir.read primary) = pin
        · simp [hf, hhex, eq_comm (a := hex)]
        · simp [hf, hpin, hhex]

/-- A copy that succeeds is one of an installable directory. -/
theorem installable_of_ok {r : Materialized}
    (h : (modCopyModuleInto sha accept dir name lock dest src pin allowPrivileged yesAll).result =
      .ok r) : ∃ primary, Installable sha dir pin primary ∧ r.hex = sha (dir.read primary) ∧
        r.trust = privilegedFrom dir.toml ∧ r.files = dir.modFiles.foldl overwrite dest := by
  unfold modCopyModuleInto at h
  cases hx : primaryHex sha dir pin with
  | error e => simp [hx] at h
  | ok hex =>
    obtain ⟨primary, hi, rfl⟩ := primaryHex_eq_ok_iff.mp hx
    refine ⟨primary, hi, ?_⟩
    rw [hx] at h
    simp only at h
    split at h
    · obtain rfl := Except.ok.inj h
      exact ⟨rfl, rfl, rfl⟩
    · split at h
      · cases h
      · split at h
        · obtain rfl := Except.ok.inj h
          exact ⟨rfl, rfl, rfl⟩
        · cases h

/-- With an installable privileged package, the outcome is the trust gate's. -/
theorem copy_privileged {m : ModTable} {primary : Text} (hm : privilegedFrom dir.toml = some m)
    (hi : Installable sha dir pin primary) :
    modCopyModuleInto sha accept dir name lock dest src pin true false =
      ⟨(trustGate accept lock ⟨name, src, sha (dir.read primary), m⟩ false).1,
        if (trustGate accept lock ⟨name, src, sha (dir.read primary), m⟩ false).2 then
          .ok ⟨dir.modFiles.foldl overwrite dest, sha (dir.read primary), some m⟩
        else .error .notAccepted⟩ := by
  rw [modCopyModuleInto, primaryHex_eq_ok_iff.mpr ⟨primary, hi, rfl⟩, hm]
  rfl

/-- **Trust decisions and the lock.** For every lock, package and pin: it is true that a privileged
    package is installed without a question only if the lock records the acceptance of this name,
    source, hash and these capabilities, exactly when the first `<name> = {` in the lock is not followed
    by `capabilities` or the lock has that record (or there is nothing to install). -/
theorem silent_iff (sha : Text → Text) (accept : Question → Bool) (dir : Dir) (name lock src pin : Text)
    (dest : List (Text × Text)) :
    (∀ m r, privilegedFrom dir.toml = some m →
      (modCopyModuleInto sha accept dir name lock dest src pin true false).asked = false →
      (modCopyModuleInto sha accept dir name lock dest src pin true false).result = .ok r →
      Recorded lock name src r.hex m) ↔
    ∀ m primary, privilegedFrom dir.toml = some m → Installable sha dir pin primary →
      Mentioned lock name → Recorded lock name src (sha (dir.read primary)) m := by
  constructor
  · intro h m primary hm hi hmentioned
    have hgate : trustGate accept lock ⟨name, src, sha (dir.read primary), m⟩ false = (false, true) := by
      rw [trustGate, lockAlreadyTrusted_iff.mpr hmentioned]
      rfl
    have hrun : modCopyModuleInto sha accept dir name lock dest src pin true false = _ :=
      copy_privileged hm hi
    rw [hgate] at hrun
    exact h m ⟨_, _, _⟩ hm (by rw [hrun]) (by rw [hrun]; rfl)
  · intro h m r hm hasked hok
    obtain ⟨primary, hi, hhex, -⟩ := installable_of_ok hok
    rw [hhex]
    refine h m primary hm hi ?_
    rw [copy_privileged hm hi] at hasked
    rw [← lockAlreadyTrusted_iff]
    by_contra hno
    rw [trustGate] at hasked
    simp [hno] at hasked

end Copy

/-! ## 5. Locks that are taken for an acceptance -/

/-- A privileged package, whose `mod.vyb` reads `new`. -/
def cudaDir : Dir where
  entries := [(modVyb, .file "new".toList), ("vyb.toml".toList, .file freedomToml)]
  distinct := by decide

/-- What the package of `cudaDir` declares. -/
def cudaTrust : ModTable := ⟨true, ["ffi".toList, "nvptx".toList]⟩

/-- The lock after the acceptance of another package, whose name ends in `cuda`. -/
def xcudaLock : Text :=
  updateLock [] "xcuda".toList "path:xcuda".toList "old".toList (some cudaTrust)

/-- The lock after the acceptance of `cuda` with another content, from another source. -/
def oldCudaLock : Text := updateLock [] "cuda".toList "path:old".toList "old".toList (some cudaTrust)

/-- Whether a copy of `cudaDir` as `cuda` goes through without a question and without a record. -/
def SlipsThrough (lock : Text) : Prop :=
  let run := modCopyModuleInto id (fun _ => false) cudaDir "cuda".toList lock [] "path:cuda".toList []
    true false
  privilegedFrom cudaDir.toml = some cudaTrust ∧ run.asked = false ∧
    run.result.toOption = some ⟨[(modVyb, "new".toList)], "new".toList, some cudaTrust⟩ ∧
    ¬ Recorded lock "cuda".toList "path:cuda".toList "new".toList cudaTrust

instance (lock : Text) : Decidable (SlipsThrough lock) := inferInstanceAs (Decidable (_ ∧ _))

set_option maxRecDepth 4000 in
/-- Both locks let a package through that nobody has accepted. -/
theorem foreign_entry_trusted : SlipsThrough xcudaLock ∧ SlipsThrough oldCudaLock := by decide

end Vyb.Packages
