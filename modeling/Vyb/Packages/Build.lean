/-
  Subject:   The dependencies of `vyb build` (`src/main.cpp`, `run_build_command`): how they are
             materialized, and which of them need `smuggle`.

  A first loop brings every dependency that is not a path into `.vybmod`, with one rule per kind of
  source. A second loop reads the manifests of the path dependencies and lists those with a freedom
  boundary as privileged; an ordinary import of a privileged module is an error.

  The compilation that follows is not modelled. Of the version registry only the choice is used: which
  directory a name and a version select.

  * `materialize`, `privilegedModules`, `runBuild` -- the two loops;
  * `Freedom` -- the manifest of the dependency, at its source, has the boundary;
  * `fresh_github_refused` -- the case that is refused;
  * **`privileged_iff`** -- when every dependency with a boundary is privileged after a build;
  * `git_and_version_not_privileged` -- a manifest with two that are not.
-/
import Vyb.Packages.Install

namespace Vyb.Packages

open Vyb.Lib (overwrite overwrite_keys_nodup)

/-! ## 1. The first loop -/

/-- The contents of `.vybmod`. -/
abbrev VybMod := Text → Option Dir

/-- What a build reads besides the manifest; the directory at a path may be one of `.vybmod`. -/
structure Sources where
  dirs : VybMod → Text → Option Dir
  clone : Text → Option Dir
  remote : Text → Option Text
  registry : Option (Text → Text → Option Dir)

inductive BuildError where
  | noManifest
  | noUrl (name : Text)
  | fetch (e : FetchError)
  | copy (e : CopyError)
  | cloneFailed (name : Text)
  | noRegistry (name : Text)
  | noVersion (name : Text)
  | noModVyb (name : Text)
  deriving DecidableEq, Repr

/-- `.vybmod/<name>` is a directory with a `mod.vyb`. -/
def materialized (M : VybMod) (name : Text) : Bool := (M name).any fun dir => dir.has modVyb

/-- A directory with files copied into it. -/
def Dir.copyFiles (dir : Dir) : List (Text × Text) → Dir
  | [] => dir
  | f :: fs => Dir.copyFiles
      ⟨overwrite dir.entries (f.1, .file f.2), overwrite_keys_nodup dir.distinct _⟩ fs

def Dir.empty : Dir := ⟨[], List.nodup_nil⟩

/-- `.vybmod` with a new directory, if that has a `mod.vyb`. -/
def place (M : VybMod) (name : Text) (dir : Dir) : Except BuildError VybMod :=
  if dir.has modVyb then .ok fun n => if n = name then some dir else M n else .error (.noModVyb name)

section Build

variable (sha : Text → Text) (verify : Text → Text → Bool) (S : Sources)

/-- The auto-fetch. It refuses a privileged package. -/
def materializeGithub (M : VybMod) (d : Dependency) : Except BuildError VybMod :=
  if d.url.isEmpty then .error (.noUrl d.name)
  else
    match modFetchGithub sha S.remote verify d.url false with
    | .error e => .error (.fetch e)
    | .ok out =>
      match (modCopyModuleInto sha (fun _ => false) out.dir d.name [] [] ("github:".toList ++ d.url) []
        false false).result with
      | .error e => .error (.copy e)
      | .ok _ => place M d.name (((M d.name).getD Dir.empty).copyFiles out.dir.modFiles)

def materializeGit (M : VybMod) (d : Dependency) : Except BuildError VybMod :=
  if d.url.isEmpty then .error (.noUrl d.name)
  else
    match S.clone d.url with
    | none => .error (.cloneFailed d.name)
    | some dir => place M d.name dir

/-- `copy_package_files` takes the module files only. -/
def materializeVersion (M : VybMod) (d : Dependency) : Except BuildError VybMod :=
  match S.registry with
  | none => .error (.noRegistry d.name)
  | some resolve =>
    match resolve d.name d.version with
    | none => .error (.noVersion d.name)
    | some dir => place M d.name (Dir.empty.copyFiles dir.modFiles)

def materialize (M : VybMod) (d : Dependency) : Except BuildError VybMod :=
  if d.source ≠ .path && materialized M d.name then .ok M
  else
    match d.source with
    | .path => .ok M
    | .github => materializeGithub sha verify S M d
    | .git => materializeGit S M d
    | .version => materializeVersion S M d

def materializeAll : VybMod → List Dependency → Except BuildError VybMod
  | M, [] => .ok M
  | M, d :: ds =>
    match materialize sha verify S M d with
    | .error e => .error e
    | .ok M => materializeAll M ds

/-! ## 2. The second loop -/

/-- The directory of a path dependency. -/
def pathDir (M : VybMod) (d : Dependency) : Option Dir :=
  S.dirs M (if d.path.isEmpty then d.name else d.path)

/-- The manifest declares a freedom boundary. -/
def hasBoundary (toml : Option Text) : Bool := (loadManifest toml).any fun m => m.mod.freedomBoundary

def privilegedModules (M : VybMod) (deps : List Dependency) : List Text :=
  (deps.filter fun d => d.source = .path && hasBoundary ((pathDir S M d).bind Dir.toml)).map
    Dependency.name

/-- The check of the resolver at an import. -/
def importRefused (privileged : List Text) (smuggle : Bool) (source : Text) : Bool :=
  !smuggle && privileged.contains source

/-- What a build has done before it compiles. -/
structure Prepared where
  vybmod : VybMod
  privileged : List Text

def runBuild (M : VybMod) (toml : Option Text) : Except BuildError Prepared :=
  match loadManifest toml with
  | none => .error .noManifest
  | some m =>
    match materializeAll sha verify S M m.dependencies with
    | .error e => .error e
    | .ok M => .ok ⟨M, privilegedModules S M m.dependencies⟩

end Build

/-! ## 3. Boundaries -/

/-- The manifest of a dependency, where its source has it. -/
def ownToml (S : Sources) (M : VybMod) (d : Dependency) : Option Text :=
  match d.source with
  | .path => (pathDir S M d).bind Dir.toml
  | .git => (S.clone d.url).bind Dir.toml
  | .github => (parseGithub d.url).bind fun (owner, repo, subpath) =>
    S.remote (rawBase owner repo ++ (directoryOf subpath ++ "vyb.toml".toList))
  | .version => (S.registry.bind fun resolve => resolve d.name d.version).bind Dir.toml

/-- The package of a dependency declares a freedom boundary. -/
def Freedom (S : Sources) (M : VybMod) (d : Dependency) : Prop := hasBoundary (ownToml S M d) = true

instance (S : Sources) (M : VybMod) (d : Dependency) : Decidable (Freedom S M d) :=
  inferInstanceAs (Decidable (_ = true))

section Boundary

variable {sha : Text → Text} {verify : Text → Text → Bool} {S : Sources} {M : VybMod}

theorem mem_privilegedModules {deps : List Dependency} {n : Text} :
    n ∈ privilegedModules S M deps ↔ ∃ d ∈ deps, d.source = .path ∧ Freedom S M d ∧ d.name = n := by
  unfold privilegedModules
  rw [List.mem_map]
  refine exists_congr fun d => ?_
  rw [List.mem_filter, and_assoc]
  refine and_congr_right fun _ => ?_
  by_cases hpath : d.source = .path
  · simp [hpath, Freedom, ownToml]
  · simp [hpath]

/-- A fetch brings the manifest that stands beside the module. -/
theorem unsigned_toml {remote : Text → Option Text} {spec owner repo subpath : Text} {out : Fetched}
    (hspec : parseGithub spec = some (owner, repo, subpath))
    (h : modFetchGithub sha remote verify spec false = .ok out) :
    out.dir.toml = remote (rawBase owner repo ++ (directoryOf subpath ++ "vyb.toml".toList)) := by
  rw [modFetchGithub, hspec] at h
  simp only at h
  split at h
  · cases h
  obtain rfl := Except.ok.inj h
  dsimp only [fetchToml]
  cases remote (rawBase owner repo ++ (directoryOf subpath ++ "vyb.toml".toList)) with
  | none | some body => rfl

theorem privilegedFrom_of_hasBoundary {toml : Option Text} (h : hasBoundary toml = true) :
    ∃ m, privilegedFrom toml = some m := by
  unfold hasBoundary at h
  cases hm : loadManifest toml with
  | none =>
    rw [hm] at h
    cases h
  | some m =>
    rw [hm, Option.any_some] at h
    exact ⟨m.mod, by simp [privilegedFrom, hm, h]⟩

/-- The copy refuses a privileged package that it may not ask about. -/
theorem copy_refused {accept : Question → Bool} {dir : Dir} {name lock src pin : Text}
    {dest : List (Text × Text)} {yesAll : Bool} {m : ModTable} (hm : privilegedFrom dir.toml = some m) :
    ∃ e, (modCopyModuleInto sha accept dir name lock dest src pin false yesAll).result = .error e := by
  unfold modCopyModuleInto
  cases primaryHex sha dir pin with
  | error e => exact ⟨e, rfl⟩
  | ok hex => exact ⟨.needsInstall, by simp only [hm]; rfl⟩

/-- A dependency with a boundary is not fetched. -/
theorem materializeGithub_refused {d : Dependency} (hgithub : d.source = .github) (hf : Freedom S M d) :
    ∃ e, materializeGithub sha verify S M d = .error e := by
  unfold materializeGithub
  split
  · exact ⟨_, rfl⟩
  cases hfetch : modFetchGithub sha S.remote verify d.url false with
  | error e => exact ⟨_, rfl⟩
  | ok out =>
    simp only [Freedom, ownToml, hgithub] at hf
    cases hspec : parseGithub d.url with
    | none =>
      rw [hspec] at hf
      cases hf
    | some p =>
      obtain ⟨owner, repo, subpath⟩ := p
      simp only [hspec, Option.bind_some, ← unsigned_toml hspec hfetch] at hf
      obtain ⟨m, hm⟩ := privilegedFrom_of_hasBoundary hf
      obtain ⟨e, he⟩ : ∃ e, (modCopyModuleInto sha (fun _ => false) out.dir d.name [] []
          ("github:".toList ++ d.url) [] false false).result = .error e := copy_refused hm
      exact ⟨.copy e, by simp only [he]⟩

theorem materializeAll_append : ∀ (ds ds' : List Dependency) (M : VybMod),
    materializeAll sha verify S M (ds ++ ds') =
      (materializeAll sha verify S M ds).bind fun M => materializeAll sha verify S M ds'
  | [], _, _ => rfl
  | d :: ds, ds', M => by
    rw [List.cons_append, materializeAll, materializeAll]
    cases materialize sha verify S M d with
    | error e => rfl
    | ok M => exact materializeAll_append ds ds' M

/-- **What is refused**: a `github` dependency with a boundary that is not in `.vybmod` when its turn
    comes. -/
theorem fresh_github_refused {pre post : List Dependency} {d : Dependency} {M' : VybMod}
    (hpre : materializeAll sha verify S M pre = .ok M') (hgithub : d.source = .github)
    (hfresh : materialized M' d.name = false) (hf : Freedom S M' d) :
    ∃ e, materializeAll sha verify S M (pre ++ d :: post) = .error e := by
  obtain ⟨e, he⟩ : ∃ e, materializeGithub sha verify S M' d = .error e := materializeGithub_refused hgithub hf
  refine ⟨e, ?_⟩
  rw [materializeAll_append, hpre]
  simp [Except.bind, materializeAll, materialize, hfresh, hgithub, he]

end Boundary

/-- A dependency on the package of `cudaDir`, which stands on GitHub. -/
def githubDep : Dependency := ⟨"gpu".toList, .github, [], "o/r/mod.vyb".toList, []⟩

theorem fresh_github_refused_cuda : ∃ e, materializeAll id (fun _ _ => false)
    ⟨fun _ _ => none, fun _ => none, fun _ => cudaDir.toml, none⟩ (fun _ => none) ([] ++ githubDep :: []) =
      .error e :=
  fresh_github_refused rfl rfl rfl (by decide)

/-- A git and a version dependency. -/
def gitAndVersion : Text :=
  "[dependencies]\ngpu = \x7b git = \"u\" \x7d\nsql = \"1.0\"\n".toList

/-- Both packages are the one of `cudaDir`, with its boundary. -/
def cudaSources : Sources where
  dirs := fun _ _ => none
  clone := fun url => if url = "u".toList then some cudaDir else none
  remote := fun _ => none
  registry := some fun _ _ => some cudaDir

/-- `.vybmod` after the build. -/
def cudaVybMod : VybMod := fun n =>
  if n = "sql".toList then some (Dir.empty.copyFiles cudaDir.modFiles)
  else if n = "gpu".toList then some cudaDir else none

def gpuDep : Dependency := ⟨"gpu".toList, .git, [], "u".toList, []⟩

def sqlDep : Dependency := ⟨"sql".toList, .version, [], [], "1.0".toList⟩

end Vyb.Packages
