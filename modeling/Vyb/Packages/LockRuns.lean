/-
  Subject:   `vyb.lock` over a sequence of commands (`src/main.cpp`, `write_lockfile`,
             `mod_lock_already_trusted` and the lock writer of `mod_install`).

  Two commands write the lock. An installation replaces the line of its package and keeps the others; a build
  writes the file anew, in another format, from the dependencies of the manifest alone. All else that a command
  reads (the sources, the manifest, `.vybmod`) may change freely between commands.

  * `writeLockfile`, `Command.lock` -- the writers; `Command.lock_cases` says all that a command can do;
  * `lockAlreadyTrusted_eq` -- the search for an acceptance, line by line;
  * `Held` -- the acceptance is on record and no other line reads like it; kept by every installation;
  * **`trust_persists_iff`** -- an acceptance lasts exactly as long as nothing is built;
  * `build_forgets` -- an accepted package, and its lock after a build.
-/
import Vyb.Packages.Build
import Vyb.Packages.ManifestText

namespace Vyb.Packages

open List Option

open Vyb.Lib (search occurs takeUntil search_isSome_iff occurs_iff)

/-! ## 1. Commands -/

/-- `write_lockfile`; `absolute` is the absolute form of a path in the project. -/
def writeLockfile (absolute : Text → Text) (deps : List Dependency) : Text :=
  "# vyb.lock - generated by `vyb build`. Do not edit by hand.\nversion = 1\n\n".toList ++
    deps.flatMap fun d =>
      "[[".toList ++ d.name ++ "]]\nsource = \"".toList ++ d.source.text ++ "\"\nresolved = \"".toList ++
        absolute (if d.source ≠ .path then ".vybmod/".toList ++ d.name
          else if d.path.isEmpty then d.name else d.path) ++ "\"\n\n".toList

/-- A command, with what it finds around the lock. -/
inductive Command where
  | install (W : World) (toml : Text) (vybmod : Text → List (Text × Text)) (spec : Text)
      (requireSigned yesAll : Bool)
  | build (verify : Text → Text → Bool) (S : Sources) (M : VybMod) (toml : Option Text) (absolute : Text → Text)

/-- What an installation puts on record. -/
structure Record where
  name : Text
  src : Text
  hex : Text
  trust : Option ModTable

def Record.line (r : Record) : Text := lockEntry r.name r.src r.hex r.trust

namespace Command

variable (sha : Text → Text)

/-- The lock that a build writes, if it comes to that. -/
def rewrite : Command → Option Text
  | install .. => none
  | build verify S M toml absolute =>
    match loadManifest toml, runBuild sha verify S M toml with
    | some m, .ok _ => some (writeLockfile absolute m.dependencies)
    | _, _ => none

/-- The lock after a command. -/
def lock (old : Text) : Command → Text
  | install W toml vybmod spec requireSigned yesAll =>
    match modInstall sha W ⟨old, toml, vybmod⟩ spec requireSigned yesAll with
    | .ok r => r.project.lock
    | .error _ => old
  | build verify S M toml absolute => ((build verify S M toml absolute).rewrite sha).getD old

/-- The record of an installation, if it is made. -/
def record : Command → Option Record
  | install W _ _ spec requireSigned _ =>
    match sourceDir sha W (parseSpec spec).1 requireSigned with
    | .ok (name, dir) => dir.primary.map fun primary =>
      ⟨name, (parseSpec spec).1, sha (dir.read primary), privilegedFrom dir.toml⟩
    | .error _ => none
  | build .. => none

/-- **What a command can do to the lock**: nothing, an installation's record, or a new file. -/
theorem lock_cases (c : Command) (old : Text) : c.lock sha old = old ∧ c.rewrite sha = none ∨
    (c.rewrite sha = none ∧ ∃ r, c.record sha = some r ∧
      c.lock sha old = updateLock old r.name r.src r.hex r.trust) ∨
    ∃ text, c.rewrite sha = some text ∧ c.lock sha old = text := by
  cases c with
  | build verify S M toml absolute =>
    cases h : (build verify S M toml absolute).rewrite sha with
    | none => exact .inl ⟨by rw [lock, h]; rfl, rfl⟩
    | some text => exact .inr (.inr ⟨text, rfl, by rw [lock, h]; rfl⟩)
  | install W toml vybmod spec requireSigned yesAll =>
    cases hrun : modInstall sha W ⟨old, toml, vybmod⟩ spec requireSigned yesAll with
    | error e => exact .inl ⟨by rw [lock, hrun], rfl⟩
    | ok out =>
      refine .inr (.inl ⟨rfl, ?_⟩)
      rw [lock, hrun]
      unfold modInstall at hrun
      dsimp only at hrun
      split at hrun
      · cases hrun
      · rename_i name dir hsrc
        split at hrun
        · cases hrun
        · rename_i m hm
          obtain ⟨primary, hi, hhex, htrust, -⟩ := installable_of_ok hm
          obtain rfl := Except.ok.inj hrun
          refine ⟨⟨name, _, m.hex, m.trust⟩, ?_, rfl⟩
          rw [record, hsrc]
          simp only [hi.2.1, map_some, hhex, htrust]

end Command

/-- The lock after a sequence of commands. -/
def runLock (sha : Text → Text) (old : Text) (cs : List Command) : Text := cs.foldl (fun l c => c.lock sha l) old

/-! ## 2. The search, line by line -/

theorem prefix_takeUntil {pat s : Text} (hpat : '\n' ∉ pat) : pat <+: takeUntil '\n' s ↔ pat <+: s := by
  constructor
  · exact fun h => h.trans (List.takeWhile_prefix _)
  · rintro ⟨r, rfl⟩
    rw [takeUntil, takeWhile_append_of_pos fun c hc => by simpa using ne_of_mem_of_not_mem hc hpat]
    exact prefix_append _ _

/-- **The first occurrence of a text** without line breaks is the first one in a line. -/
theorem search_lines {pat : Text} (hne : pat ≠ []) (hpat : '\n' ∉ pat) :
    ∀ s : Text, (search pat s).map (takeUntil '\n') = (lines s).findSome? (search pat)
  | [] => by
    have hno : search pat ([] : Text) = none := by simp [search, hne]
    simp [hno, lines]
  | c :: s => by
    have ih := search_lines hne hpat s
    have hno : search pat ([] : Text) = none := by simp [search, hne]
    by_cases hc : c = '\n'
    · subst hc
      have hhead : ¬ pat <+: '\n' :: s := by
        rintro ⟨r, hr⟩
        obtain ⟨x, xs, rfl⟩ := exists_cons_of_ne_nil hne
        exact hpat ((cons.inj hr).1 ▸ mem_cons_self)
      rw [lines_newline, findSome?_cons, hno, search, if_neg (by simpa using hhead)]
      exact ih
    · obtain ⟨ls, hls⟩ := lines_head s
      have htake : takeUntil '\n' (c :: s) = c :: takeUntil '\n' s := by simp [takeUntil, hc]
      have hiff : pat <+: c :: takeUntil '\n' s ↔ pat <+: c :: s := htake ▸ prefix_takeUntil hpat
      rw [lines_cons hc hls, findSome?_cons, search, search]
      by_cases hp : pat <+: c :: s
      · rw [if_pos (by simpa using hp), if_pos (by simpa using hiff.mpr hp), map_some, htake]
      · rw [if_neg (by simpa using hp), if_neg (by simpa using mt hiff.mp hp), ih, hls, findSome?_cons]

theorem lockAlreadyTrusted_eq {name : Text} (hname : '\n' ∉ name) (lock : Text) :
    lockAlreadyTrusted lock name =
      ((getLines lock).findSome? (search (entryStart name))).any (occurs "capabilities".toList) := by
  have hne : entryStart name ≠ [] := by simp [entryStart]
  have hpat : '\n' ∉ entryStart name := by simpa [entryStart] using hname
  have hlines : (lines lock).findSome? (search (entryStart name)) =
      (getLines lock).findSome? (search (entryStart name)) := by
    simp only [getLines]
    split
    · rename_i hlast
      obtain ⟨hnil, hget⟩ := getLast?_eq_some_iff.mp hlast
      rw [hget]
      simp [findSome?_append, search]
    · rfl
  rw [← hlines, ← search_lines hne hpat, lockAlreadyTrusted]
  cases search (entryStart name) lock with
  | none | some rest => rfl

/-! ## 3. The acceptance over a run -/

section Held

variable {sha : Text → Text} {name hex lock : Text} {m : ModTable}

/-- The acceptance is on record, and no other line reads like it. -/
structure Held (name hex : Text) (m : ModTable) (lock : Text) : Prop where
  recorded : ∃ src, Recorded lock name src hex m
  only : ∀ line ∈ getLines lock, entryStart name <:+: line → ∃ src, line = lockEntry name src hex (some m)

/-- A command that brings no other content under the name, and no text of its own that reads like the record. -/
structure Command.Apart (sha : Text → Text) (name hex : Text) (m : ModTable) (c : Command) : Prop where
  oneLine : ∀ r, c.record sha = some r → '\n' ∉ r.line
  same : ∀ r, c.record sha = some r → r.name = name → r.hex = hex ∧ r.trust = some m
  other : ∀ r, c.record sha = some r → r.name ≠ name →
    ¬ entryStart name <:+: r.line ∧ ∀ src, ¬ entryStart r.name <+: lockEntry name src hex (some m)
  rewritten : ∀ text, c.rewrite sha = some text → ¬ entryStart name <:+: text

theorem entryStart_begins (name src hex : Text) (trust : Option ModTable) :
    entryStart name <+: lockEntry name src hex trust := by
  simp only [entryStart, lockEntry, append_assoc]
  rw [prefix_append_right_inj]
  exact ⟨" source = \"".toList ++ _, rfl⟩

theorem capabilities_occur (name src hex : Text) (m : ModTable) :
    "capabilities".toList <:+: lockEntry name src hex (some m) := by
  have hhere : "capabilities".toList <:+: ", capabilities = [".toList := ⟨", ".toList, " = [".toList, rfl⟩
  simp only [lockEntry, append_assoc]
  exact hhere.trans ⟨name ++ (" = \x7b source = \"".toList ++ (src ++ ("\", sha256 = \"".toList ++ (hex ++ "\"".toList)))),
    _, by simp only [append_assoc]; rfl⟩

/-- A lock that holds the acceptance is found to do so. -/
theorem Held.trusted (hname : '\n' ∉ name) (h : Held name hex m lock) :
    lockAlreadyTrusted lock name = true := by
  rw [lockAlreadyTrusted_eq hname]
  obtain ⟨src, hrec⟩ := h.recorded
  cases hfind : (getLines lock).findSome? (search (entryStart name)) with
  | none =>
    have hsome := search_isSome_iff.mpr (entryStart_begins name src hex (some m)).isInfix
    rw [findSome?_eq_none_iff.mp hfind _ hrec] at hsome
    cases hsome
  | some rest =>
    obtain ⟨line, hline, hsearch⟩ := exists_of_findSome?_eq_some hfind
    obtain ⟨src', rfl⟩ := h.only line hline (search_isSome_iff.mp (by rw [hsearch]; rfl))
    -- The record begins with the text that is searched for.
    have hwhole : rest = lockEntry name src' hex (some m) := by
      have hstart := entryStart_begins name src' hex (some m)
      obtain ⟨c, cs, hcons⟩ : ∃ c cs, lockEntry name src' hex (some m) = c :: cs :=
        exists_cons_of_ne_nil fun hnil => by simp [hnil, entryStart] at hstart
      rw [hcons] at hstart hsearch ⊢
      rw [search, if_pos (by simpa using hstart)] at hsearch
      exact (some.inj hsearch).symm
    rw [hwhole, any_some]
    exact occurs_iff.mpr (capabilities_occur name src' hex m)

theorem Held.accepted {src : Text} (hline : '\n' ∉ lockEntry name src hex (some m))
    (hown : ∀ line ∈ getLines lock, entryStart name <:+: line → entryStart name <+: line) :
    Held name hex m (updateLock lock name src hex (some m)) := by
  refine ⟨⟨src, (recorded_updateLock hline).1⟩, fun line hmem hin => ?_⟩
  rw [getLines_updateLock hline, mem_append, mem_filter, mem_singleton] at hmem
  rcases hmem with ⟨hold, hfilter⟩ | rfl
  · have hbegins := isPrefixOf_iff_prefix.mpr (hown line hold hin)
    rw [hbegins] at hfilter
    cases hfilter
  · exact ⟨src, rfl⟩

/-- **An installation keeps the acceptance.** -/
theorem Held.step {c : Command} (h : Held name hex m lock) (hc : c.Apart sha name hex m)
    (hkeep : c.rewrite sha = none) : Held name hex m (c.lock sha lock) := by
  rcases c.lock_cases sha lock with ⟨heq, -⟩ | ⟨-, r, hr, heq⟩ | ⟨text, htext, -⟩
  · rwa [heq]
  · rw [heq]
    by_cases hn : r.name = name
    · obtain ⟨hhex, htrust⟩ := hc.same r hr hn
      have hone := hc.oneLine r hr
      rw [Record.line, hn, hhex, htrust] at hone
      rw [hn, hhex, htrust]
      refine Held.accepted hone fun line hmem hin => ?_
      obtain ⟨src, rfl⟩ := h.only line hmem hin
      exact entryStart_begins name src hex (some m)
    · obtain ⟨hother, hstart⟩ := hc.other r hr hn
      obtain ⟨src, hrec⟩ := h.recorded
      refine ⟨⟨src, ?_⟩, fun line hmem hin => ?_⟩
      · rw [Recorded, getLines_updateLock (hc.oneLine r hr)]
        refine mem_append_left _ (mem_filter.mpr ⟨hrec, ?_⟩)
        exact (Bool.not_eq_true _).mp (mt isPrefixOf_iff_prefix.mp (hstart src)) ▸ rfl
      · rw [getLines_updateLock (hc.oneLine r hr), mem_append, mem_filter, mem_singleton] at hmem
        rcases hmem with ⟨hold, -⟩ | rfl
        · exact h.only line hold hin
        · exact absurd hin hother
  · rw [hkeep] at htext
    cases htext

theorem Held.run : ∀ {cs : List Command} {lock : Text}, Held name hex m lock →
    (∀ c ∈ cs, c.Apart sha name hex m) → (∀ c ∈ cs, c.rewrite sha = none) → Held name hex m (runLock sha lock cs)
  | [], _, h, _, _ => h
  | c :: cs, lock, h, hcs, hkeep => by
    have hstep := h.step (hcs c mem_cons_self) (hkeep c mem_cons_self)
    change Held name hex m (runLock sha (c.lock sha lock) cs)
    exact Held.run hstep (fun c' hc' => hcs c' (mem_cons_of_mem c hc'))
      fun c' hc' => hkeep c' (mem_cons_of_mem c hc')

end Held

/-- **How long an acceptance lasts.** A package is accepted and put on record, no other line of the lock reads like
its record, and the commands that follow neither bring other content under its name nor write such a line. Then the
lock is found to record the acceptance after each of them exactly if no build gets to its end. -/
theorem trust_persists_iff (sha : Text → Text) (lock name src hex : Text) (m : ModTable) (cs : List Command)
    (hname : '\n' ∉ name) (hline : '\n' ∉ lockEntry name src hex (some m))
    (hown : ∀ line ∈ getLines lock, entryStart name <:+: line → entryStart name <+: line)
    (hcs : ∀ c ∈ cs, c.Apart sha name hex m) :
    (∀ done, done <+: cs →
      lockAlreadyTrusted (runLock sha (updateLock lock name src hex (some m)) done) name = true) ↔
    ∀ c ∈ cs, c.rewrite sha = none := by
  constructor
  · intro htrusted c hc
    cases htext : c.rewrite sha with
    | none => rfl
    | some text =>
      obtain ⟨before, after, rfl⟩ := append_of_mem hc
      have h := htrusted (before ++ [c]) ⟨after, by simp⟩
      have hlock : runLock sha (updateLock lock name src hex (some m)) (before ++ [c]) = text := by
        rw [runLock, foldl_append, foldl_cons, foldl_nil]
        rcases c.lock_cases sha (before.foldl (fun l c => c.lock sha l) (updateLock lock name src hex (some m)))
          with ⟨-, hnone⟩ | ⟨hnone, -⟩ | ⟨text', htext', heq⟩
        · rw [hnone] at htext
          cases htext
        · rw [hnone] at htext
          cases htext
        · rw [heq]
          exact some.inj (htext'.symm.trans htext)
      have hno : search (entryStart name) text = none :=
        not_isSome_iff_eq_none.mp (mt search_isSome_iff.mp ((hcs c hc).rewritten text htext))
      rw [hlock, lockAlreadyTrusted, hno] at h
      cases h
  · rintro hkeep done ⟨rest, rfl⟩
    refine ((Held.accepted hline hown).run ?_ ?_).trusted hname
    · exact fun c hc => hcs c (mem_append_left _ hc)
    · exact fun c hc => hkeep c (mem_append_left _ hc)

/-- `vyb mod install path:cuda`, with the question answered by yes. -/
def installCuda : Command :=
  .install ⟨fun path => if path = "cuda".toList then some cudaDir else none, fun _ => none, fun _ _ => false,
    fun _ => true⟩ [] (fun _ => []) "path:cuda".toList false false

/-- `vyb build`, with the manifest that the installation has left. -/
def buildCuda : Command :=
  .build (fun _ _ => false) ⟨fun M path => if path = ".vybmod/cuda".toList then M "cuda".toList else none,
    fun _ => none, fun _ => none, none⟩ (fun name => if name = "cuda".toList then some cudaDir else none)
    (some (registerDependency [] "cuda".toList)) id

theorem record_installCuda : installCuda.record id =
    some ⟨"cuda".toList, "path:cuda".toList, "new".toList, some cudaTrust⟩ := by
  rfl

theorem trust_persists_cuda :
    (∀ done, done <+: [installCuda] → lockAlreadyTrusted (runLock id
      (updateLock [] "cuda".toList "path:cuda".toList "new".toList (some cudaTrust)) done) "cuda".toList = true) ↔
    ∀ c ∈ [installCuda], c.rewrite id = none := by
  refine trust_persists_iff id [] _ _ "new".toList cudaTrust [installCuda] (by decide) (by decide +kernel)
    (by decide) fun c hc => ?_
  obtain rfl := mem_singleton.mp hc
  refine ⟨fun r hr => ?_, fun r hr _ => ?_, fun r hr hn => ?_, fun text h => by cases h⟩
  all_goals
    rw [record_installCuda] at hr
    cases hr
  · decide +kernel
  · exact ⟨rfl, rfl⟩
  · exact absurd rfl hn

/-- **A build drops the acceptance**, so that a second installation of the same content asks again. -/
theorem build_forgets :
    lockAlreadyTrusted (runLock id [] [installCuda]) "cuda".toList = true ∧
      lockAlreadyTrusted (runLock id [] [installCuda, buildCuda]) "cuda".toList = false ∧
      runLock id [] [installCuda, buildCuda] =
        ("# vyb.lock - generated by `vyb build`. Do not edit by hand.\nversion = 1\n\n" ++
          "[[cuda]]\nsource = \"path\"\nresolved = \".vybmod/cuda\"\n\n").toList := by
  decide +kernel

end Vyb.Packages
