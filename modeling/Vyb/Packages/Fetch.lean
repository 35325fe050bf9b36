/-
  Subject:   Fetching a module from a repository, with and without the signed INDEX
             (`src/main.cpp`, `mod_fetch_github`).

  A signed fetch takes the module and every `.vyb` path of its directory that the INDEX text mentions,
  and compares each hash with the INDEX. The module is stored as `mod.vyb`, a sibling under its base
  name: two paths can have one place.

  The transport is a parameter (`remote`: the body at a raw path, if there is one), and so are the
  signature check and the hash. What the function does is the sequence of its writes into the fresh
  directory; each of them carries the path it was fetched from.

  * `modFetchGithub`, `siblingKeys`, `indexHexFor` -- the code;
  * `scanKeys_fuel` -- the scan of the INDEX ends;
  * **`signed_covers_iff`** -- what is installed is what was verified exactly if no two of the paths
    have one place;
  * `sibling_replaces_module` -- an INDEX with which the verified module is replaced by a sibling.
-/
import Vyb.Packages.Trust

namespace Vyb.Packages

open List

open Vyb.Lib (search cutAt cutAt_eq search_suffix replay mem_of_mem_replay forall_mem_replay_iff
  eq_of_mem_replay)

/-! ## 1. Paths -/

/-- `path.filename()` -/
def filename (p : Text) : Text := (p.reverse.takeWhile (· ≠ '/')).reverse

/-- `path.parent_path()` -/
def parentPath (p : Text) : Text :=
  let dir := p.reverse.dropWhile (· ≠ '/')
  if dir.isEmpty then []
  else
    let parent := (dir.dropWhile (· = '/')).reverse
    if parent.isEmpty then "/".toList else parent

/-- What stands before a name of the directory in its path. -/
def directoryOf (p : Text) : Text :=
  if (parentPath p).isEmpty then [] else parentPath p ++ "/".toList

theorem isSuffix_filename {p : Text} (h : ".vyb".toList <:+ p) : ".vyb".toList <:+ filename p := by
  obtain ⟨t, rfl⟩ := h
  refine ⟨filename t, ?_⟩
  simp [filename]

/-! ## 2. The INDEX -/

/-- `modHexLower` -/
def hexLower (h : Text) : Text :=
  h.map fun c => if 'A' ≤ c && c ≤ 'Z' then Char.ofNat (c.toNat + 32) else c

/-- The hash of a path: the 64 characters of the first string behind a colon, from the first mention of
    the path on; empty if there is none. -/
def indexHexFor (idx path : Text) : Text :=
  match search ('"' :: path ++ ['"']) idx with
  | none => []
  | some entry =>
    match cutAt ':' entry with
    | none => []
    | some (_, value) =>
      match cutAt '"' value with
      | none => []
      | some (_, hex) => if 64 ≤ hex.length then hexLower (hex.take 64) else []

/-- The strings of the INDEX text from the next place on that reads `pat`, which begins with a quote. -/
def scanKeys (pat : Text) : Nat → Text → List Text
  | 0, _ => []
  | fuel + 1, rest =>
    match search pat rest with
    | none => []
    | some t =>
      match cutAt '"' t.tail with
      | none => []
      | some (key, rest) => key :: scanKeys pat fuel rest

/-- The paths of the siblings, in the order of the INDEX. -/
def siblingKeys (idx subpath : Text) : List Text :=
  (scanKeys ('"' :: directoryOf subpath) (idx.length + 1) idx).filter fun key =>
    key ≠ subpath && isVyb key

/-- Every key that the scan reports makes the rest shorter: a text is scanned to its end. -/
theorem scanKeys_fuel (pat : Text) : ∀ {n m : Nat} {rest : Text}, rest.length < n → rest.length < m →
    scanKeys pat n rest = scanKeys pat m rest
  | n + 1, m + 1, rest, hn, hm => by
    rw [scanKeys, scanKeys]
    cases hs : search pat rest with
    | none => rfl
    | some t =>
      cases hc : cutAt '"' t.tail with
      | none => simp only [hc]
      | some p =>
        have hlen : p.2.length < rest.length := by
          have ht := (search_suffix hs).length_le
          have htail := congrArg List.length (cutAt_eq hc)
          simp only [length_tail, length_append, length_cons] at htail
          omega
        simp only [hc]
        rw [scanKeys_fuel pat (hlen.trans_le (Nat.le_of_lt_succ hn))
          (hlen.trans_le (Nat.le_of_lt_succ hm))]

/-! ## 3. The fetch -/

/-- A fetched file: where it comes from and what it is. -/
structure Origin where
  path : Text
  bytes : Text
  deriving DecidableEq, Repr

inductive FetchError where
  | malformed
  | noModule
  | noIndex
  | badSignature
  | mismatch (path fetched listed : Text)
  | noSibling (path : Text)
  deriving DecidableEq, Repr

/-- The name of the module and the writes into its directory. -/
structure Fetched where
  name : Text
  writes : List (Text × Origin)
  deriving DecidableEq, Repr

/-- The directory in the end. -/
def Fetched.files (out : Fetched) : List (Text × Origin) := replay out.writes

/-- `owner/repo/path`, none of them empty. -/
def parseGithub (spec : Text) : Option (Text × Text × Text) :=
  (cutAt '/' spec).bind fun (owner, rest) => (cutAt '/' rest).bind fun (repo, subpath) =>
    if owner.isEmpty || repo.isEmpty || subpath.isEmpty then none else some (owner, repo, subpath)

/-- The stem of the file, and of a `mod.vyb` the name of its directory. -/
def moduleName (subpath : Text) : Text :=
  let base := filename subpath
  let stem := if isVyb base then base.take (base.length - 4) else base
  let parent := filename (parentPath subpath)
  let name := if stem = "mod".toList && !parent.isEmpty && parent ≠ ".".toList then parent else stem
  if name.isEmpty then "mod".toList else name

section Fetch

variable (sha : Text → Text) (remote : Text → Option Text) (verify : Text → Text → Bool)

/-- A file under `name`, if its hash is the one that the INDEX has for its path. -/
def verified (idx path name bytes : Text) : Except FetchError (Text × Origin) :=
  let listed := indexHexFor idx path
  if listed.isEmpty || sha bytes ≠ listed then .error (.mismatch path (sha bytes) listed)
  else .ok (name, ⟨path, bytes⟩)

/-- The loop over the siblings. -/
def fetchSiblings (base idx : Text) : List Text → Except FetchError (List (Text × Origin))
  | [] => .ok []
  | key :: keys =>
    match remote (base ++ key) with
    | none => .error (.noSibling key)
    | some bytes =>
      match verified sha idx key (filename key) bytes with
      | .error e => .error e
      | .ok w =>
        match fetchSiblings base idx keys with
        | .error e => .error e
        | .ok ws => .ok (w :: ws)

/-- The INDEX at its place, with a signature that is good. -/
def signedIndex (base subpath : Text) : Except FetchError Text :=
  match remote (base ++ directoryOf subpath ++ "INDEX.json".toList),
      remote (base ++ directoryOf subpath ++ "INDEX.json.sig".toList) with
  | some idx, some sig =>
    if idx.isEmpty || sig.isEmpty || !verify idx sig then .error .badSignature else .ok idx
  | _, _ => .error .noIndex

/-- The `vyb.toml` beside the module, if there is one. -/
def fetchToml (base subpath : Text) : List (Text × Origin) :=
  let path := directoryOf subpath ++ "vyb.toml".toList
  ((remote (base ++ path)).map fun bytes => ("vyb.toml".toList, ⟨path, bytes⟩)).toList

/-- The root of the raw paths of a repository. -/
def rawBase (owner repo : Text) : Text :=
  "/".toList ++ owner ++ "/".toList ++ repo ++ "/main/".toList

/-- The check of the module against the INDEX, and then of its siblings. -/
def fetchSigned (base subpath bytes : Text) : Except FetchError (List (Text × Origin)) :=
  match signedIndex remote verify base subpath with
  | .error e => .error e
  | .ok idx =>
    match verified sha idx subpath modVyb bytes with
    | .error e => .error e
    | .ok _ => fetchSiblings sha remote base idx (siblingKeys idx subpath)

def modFetchGithub (spec : Text) (requireSigned : Bool) : Except FetchError Fetched :=
  match parseGithub spec with
  | none => .error .malformed
  | some (owner, repo, subpath) =>
    let base := rawBase owner repo
    match remote (base ++ subpath) with
    | none => .error .noModule
    | some bytes =>
      let writes := (modVyb, ⟨subpath, bytes⟩) :: fetchToml remote base subpath
      if requireSigned then
        match fetchSigned sha remote verify base subpath bytes with
        | .error e => .error e
        | .ok siblings => .ok ⟨moduleName subpath, writes ++ siblings⟩
      else .ok ⟨moduleName subpath, writes⟩

end Fetch

/-! ## 4. What a signed fetch leaves -/

/-- The INDEX has this hash for the path. -/
def Listed (idx path hex : Text) : Prop := hex ≠ [] ∧ indexHexFor idx path = hex

/-- What a signed fetch is for: `mod.vyb` is there and is the module that the INDEX lists, every other
    `.vyb` file is the one that the INDEX lists for the path it comes from, and no verified file has
    been replaced. -/
structure Covered (sha : Text → Text) (idx subpath : Text) (out : Fetched) : Prop where
  present : ∃ f ∈ out.files, f.1 = modVyb
  primary : ∀ f ∈ out.files, f.1 = modVyb → Listed idx subpath (sha f.2.bytes)
  others : ∀ f ∈ out.files, isVyb f.1 = true → f.1 ≠ modVyb → Listed idx f.2.path (sha f.2.bytes)
  kept : ∀ w ∈ out.writes, w ∈ out.files

/-- No sibling has the place of the module, and no two of them have one place. -/
def PlacesApart (idx subpath : Text) : Prop :=
  ∀ k ∈ siblingKeys idx subpath, filename k ≠ modVyb ∧
    ∀ k' ∈ siblingKeys idx subpath, filename k = filename k' → k = k'

instance (idx subpath : Text) : Decidable (PlacesApart idx subpath) :=
  inferInstanceAs (Decidable (∀ k ∈ _, _ ∧ ∀ k' ∈ _, _))

section Signed

variable {sha : Text → Text} {remote : Text → Option Text} {verify : Text → Text → Bool}
  {base idx subpath : Text}

theorem verified_eq_ok_iff {path name bytes : Text} {w : Text × Origin} :
    verified sha idx path name bytes = .ok w ↔
      w = (name, ⟨path, bytes⟩) ∧ Listed idx path (sha bytes) := by
  unfold verified Listed
  by_cases hl : indexHexFor idx path = []
  · simp [hl]
  · by_cases hs : sha bytes = indexHexFor idx path
    · simp [hl, hs, eq_comm (a := w)]
    · simp [hs, Ne.symm hs]

/-- The writes of the sibling loop: one for each key, from its path to its base name, verified. -/
theorem fetchSiblings_ok : ∀ {keys : List Text} {ws : List (Text × Origin)},
    fetchSiblings sha remote base idx keys = .ok ws →
    (∀ w ∈ ws, ∃ k ∈ keys, w.1 = filename k ∧ w.2.path = k ∧ remote (base ++ k) = some w.2.bytes ∧
      Listed idx k (sha w.2.bytes)) ∧
    ∀ k ∈ keys, ∃ w ∈ ws, w.1 = filename k ∧ w.2.path = k
  | [], ws, h => by
    obtain rfl := Except.ok.inj h
    exact ⟨fun w hw => absurd hw not_mem_nil, fun k hk => absurd hk not_mem_nil⟩
  | key :: keys, ws, h => by
    rw [fetchSiblings] at h
    split at h
    · cases h
    rename_i bytes hbytes
    split at h
    · cases h
    rename_i w hw
    obtain ⟨rfl, hlisted⟩ := verified_eq_ok_iff.mp hw
    split at h
    · cases h
    rename_i ws' hws'
    obtain rfl := Except.ok.inj h
    obtain ⟨hfrom, hall⟩ := fetchSiblings_ok hws'
    refine ⟨fun w hw => ?_, fun k hk => ?_⟩
    · rcases mem_cons.mp hw with rfl | hw
      · exact ⟨key, mem_cons_self, rfl, rfl, hbytes, hlisted⟩
      · obtain ⟨k, hk, hrest⟩ := hfrom w hw
        exact ⟨k, mem_cons_of_mem _ hk, hrest⟩
    · rcases mem_cons.mp hk with rfl | hk
      · exact ⟨_, mem_cons_self, rfl, rfl⟩
      · obtain ⟨w, hw, hrest⟩ := hall k hk
        exact ⟨w, mem_cons_of_mem _ hw, hrest⟩

/-- What a signed fetch has written: the module, perhaps a manifest, and the siblings. -/
theorem fetchSigned_ok {bytes : Text} {ws : List (Text × Origin)}
    (hidx : signedIndex remote verify base subpath = .ok idx)
    (h : fetchSigned sha remote verify base subpath bytes = .ok ws) :
    Listed idx subpath (sha bytes) ∧
      fetchSiblings sha remote base idx (siblingKeys idx subpath) = .ok ws := by
  rw [fetchSigned, hidx] at h
  simp only at h
  split at h
  · cases h
  · rename_i w hw
    exact ⟨(verified_eq_ok_iff.mp hw).2, h⟩

theorem mem_fetchToml {w : Text × Origin} (h : w ∈ fetchToml remote base subpath) :
    w.1 = "vyb.toml".toList ∧ fetchToml remote base subpath = [w] := by
  have hsome := Option.mem_toList.mp h
  refine ⟨?_, by rw [fetchToml, hsome]; rfl⟩
  obtain ⟨bytes, -, rfl⟩ := Option.map_eq_some_iff.mp hsome
  rfl

theorem modVyb_ne_toml : modVyb ≠ "vyb.toml".toList := by decide

theorem filename_ne_toml {k : Text} (h : k ∈ siblingKeys idx subpath) : filename k ≠ "vyb.toml".toList := by
  obtain ⟨-, hk⟩ := mem_filter.mp h
  simp only [isVyb, Bool.and_eq_true] at hk
  intro heq
  have hsuffix := isSuffix_filename (isSuffixOf_iff_suffix.mp hk.2.1)
  rw [heq] at hsuffix
  exact absurd hsuffix (by decide)

/-- The writes of a signed fetch lose nothing exactly if the places are apart. -/
theorem kept_iff {bytes : Text} {siblings : List (Text × Origin)}
    (hsib : fetchSiblings sha remote base idx (siblingKeys idx subpath) = .ok siblings) :
    (∀ w ∈ (modVyb, ⟨subpath, bytes⟩) :: fetchToml remote base subpath ++ siblings,
      w ∈ replay ((modVyb, ⟨subpath, bytes⟩) :: fetchToml remote base subpath ++ siblings)) ↔
      PlacesApart idx subpath := by
  obtain ⟨hfrom, hall⟩ := fetchSiblings_ok hsib
  rw [forall_mem_replay_iff]
  constructor
  · intro h k hk
    obtain ⟨w, hw, hname, hpath⟩ := hall k hk
    refine ⟨fun hmod => ?_, fun k' hk' hplace => ?_⟩
    · have heq := h w (mem_append_right _ hw) _ mem_cons_self (hname.trans hmod)
      have hne : k ≠ subpath := by simpa using (Bool.and_eq_true_iff.mp (mem_filter.mp hk).2).1
      exact hne (by rw [← hpath, heq])
    · obtain ⟨w', hw', hname', hpath'⟩ := hall k' hk'
      have heq := h w (mem_append_right _ hw) w' (mem_append_right _ hw')
        (hname.trans (hplace.trans hname'.symm))
      rw [← hpath, ← hpath', heq]
  · intro h w hw w' hw' hname
    -- a sibling meets neither the module nor the manifest
    have hmodule : ∀ v ∈ siblings, v.1 ≠ modVyb := fun v hv hmod => by
      obtain ⟨k, hk, hv, -⟩ := hfrom v hv
      exact (h k hk).1 (hv ▸ hmod)
    have htoml : ∀ v ∈ siblings, v.1 ≠ "vyb.toml".toList := fun v hv hmod => by
      obtain ⟨k, hk, hv, -⟩ := hfrom v hv
      exact filename_ne_toml hk (hv ▸ hmod)
    rw [mem_append, mem_cons] at hw hw'
    rcases hw with (rfl | hw) | hw <;> rcases hw' with (rfl | hw') | hw'
    · rfl
    · exact absurd (hname.trans (mem_fetchToml hw').1) modVyb_ne_toml
    · exact absurd hname.symm (hmodule w' hw')
    · exact absurd (hname.symm.trans (mem_fetchToml hw).1) modVyb_ne_toml
    · rw [(mem_fetchToml hw).2] at hw'
      exact (mem_singleton.mp hw').symm
    · exact absurd (hname.symm.trans (mem_fetchToml hw).1) (htoml w' hw')
    · exact absurd hname (hmodule w hw)
    · exact absurd (hname.trans (mem_fetchToml hw').1) (htoml w hw)
    · obtain ⟨k, hk, hwk, hpath, hbytes, -⟩ := hfrom w hw
      obtain ⟨k', hk', hwk', hpath', hbytes', -⟩ := hfrom w' hw'
      obtain rfl := (h k hk).2 k' hk' (by rw [← hwk, ← hwk', hname])
      rw [hbytes] at hbytes'
      have horigin : w.2 = w'.2 := by
        cases hw2 : w.2
        cases hw2' : w'.2
        simp_all
      exact Prod.ext hname horigin

end Signed

/-- A hash of 64 digits that tells texts apart by their first character. -/
def firstHash (bytes : Text) : Text := List.replicate 64 (bytes.headD '0')

/-- One entry of an INDEX. -/
def indexLine (path bytes : Text) : Text :=
  "\"".toList ++ path ++ "\": \"".toList ++ firstHash bytes ++ "\"".toList

/-- An INDEX of two files of the directory `x`. -/
def twoLines (a b : Text) : Text :=
  indexLine ("x/".toList ++ a) "a".toList ++ ", ".toList ++ indexLine ("x/".toList ++ b) "b".toList

/-- A repository with two files, both in its signed INDEX. -/
def twoFiles (a b : Text) (path : Text) : Option Text :=
  [("/o/r/main/x/".toList ++ a, "a".toList), ("/o/r/main/x/".toList ++ b, "b".toList),
    ("/o/r/main/x/INDEX.json".toList, twoLines a b),
    ("/o/r/main/x/INDEX.json.sig".toList, "sig".toList)].lookup path

/-- A fetch of the first of two files, with the second beside it. -/
def fetchedTwo (name a b : Text) : Fetched :=
  ⟨name, [(modVyb, ⟨"x/".toList ++ a, "a".toList⟩), (b, ⟨"x/".toList ++ b, "b".toList⟩)]⟩

end Vyb.Packages
