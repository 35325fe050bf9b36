/-
  Subject:   The edit that an installation makes in `vyb.toml` (`src/main.cpp`, `mod_install`), and the tables of
             the file.

  The edit looks at lines and texts, not at tables: every line that begins with `<name> =` is replaced, in
  whatever table it stands; without one, the entry goes below the line in which `[dependencies]` first occurs, be
  that a comment; and if the entry occurs anywhere already, nothing is written.

  * `tagged`, `outside`, `entryLines` -- the lines of a manifest with the table they stand in;
  * `sectionAfter_declares` -- a line that is replaced opens no table;
  * **`edits_only_iff`** -- when the edit stays within `[dependencies]` and leaves one entry for the name there;
  * `package_name_replaced` -- a package called `name` overwrites the name of the project.
-/
import Vyb.Packages.Install
import Vyb.Packages.ManifestText

namespace Vyb.Packages

open List

open Vyb.Lib (search occurs occurs_iff cutAt cutAt_eq search_eq_some_iff exists_last)

/-! ## 1. The tables of a manifest -/

/-- A line as the reader of the manifest sees it. -/
def content (line : Text) : Text := trim (stripComment line)

/-- The table that is open behind a line. -/
def sectionAfter (cur : Option Text) (line : Text) : Option Text :=
  if (content line).head? = some '[' then headerName (content line) else cur

/-- Each line, and whether it belongs to `[dependencies]`; the header does. -/
def tagged : Option Text → List Text → List (Bool × Text)
  | _, [] => []
  | cur, l :: ls =>
    (decide (sectionAfter cur l = some "dependencies".toList), l) :: tagged (sectionAfter cur l) ls

/-- The key that a line gives a value to. -/
def keyOf (line : Text) : Option Text :=
  if (content line).head? = some '[' then none else (splitKv (content line)).map Prod.fst

def outsideOf (ts : List (Bool × Text)) : List Text := (ts.filter fun p => !p.1).map Prod.snd

def insideOf (ts : List (Bool × Text)) : List Text := (ts.filter fun p => p.1).map Prod.snd

/-- The lines outside of `[dependencies]`. -/
def outside (toml : Text) : List Text := outsideOf (tagged none (getLines toml))

def inside (toml : Text) : List Text := insideOf (tagged none (getLines toml))

/-- The entries for a name in `[dependencies]`. -/
def entryLines (name toml : Text) : List Text := (inside toml).filter fun l => keyOf l = some name

/-- The line that an installation writes. -/
def entry (name : Text) : Text := "  ".toList ++ depLine name

/-- Only `[dependencies]` has changed, and there the one entry for the name is the written one. -/
def EditsOnly (name old new : Text) : Prop := outside new = outside old ∧ entryLines name new = [entry name]

/-! ## 2. Lines that are replaced -/

variable {name : Text}

theorem stripComment_char {blanks : Text} (hq : '"' ∉ blanks) (hc : '#' ∉ blanks) {c : Char} (h : c ≠ '#')
    (s : Text) : ∃ s', stripComment (blanks ++ c :: s) = blanks ++ c :: s' := by
  have hcut : ∃ b, cutOutsideQuotes '#' false (c :: s) =
      (cutOutsideQuotes '#' b s).map fun p => (c :: p.1, p.2) := by
    rw [cutOutsideQuotes]
    split
    · exact ⟨_, rfl⟩
    · exact ⟨false, if_neg (by simp [h])⟩
  obtain ⟨b, hcut⟩ := hcut
  rw [stripComment, passes_plain hq hc, hcut]
  cases cutOutsideQuotes '#' b s with
  | none => exact ⟨s, rfl⟩
  | some p => exact ⟨p.1, rfl⟩

/-- The first character that is no blank is the first one that counts. -/
theorem head_content {blanks : Text} (hb : ∀ b ∈ blanks, b = ' ' ∨ b = '\t') {c : Char}
    (hs : isSpace c = false) (h : c ≠ '#') (s : Text) : (content (blanks ++ c :: s)).head? = some c := by
  have hnot : ∀ x : Char, x ≠ ' ' → x ≠ '\t' → x ∉ blanks := fun x h1 h2 hx => by
    rcases hb x hx with rfl | rfl
    · exact h1 rfl
    · exact h2 rfl
  obtain ⟨s', hs'⟩ := stripComment_char (hnot '"' (by decide) (by decide)) (hnot '#' (by decide) (by decide)) h s
  have hspaces : ∀ b ∈ blanks, isSpace b = true := fun b hmem => by
    rcases hb b hmem with rfl | rfl <;> rfl
  have hdrop : (blanks ++ c :: s').dropWhile isSpace = c :: s' := by
    rw [dropWhile_append_of_pos hspaces, dropWhile_cons_of_neg (by simp [hs])]
  rw [content, hs', trim_eq, hdrop]
  obtain ⟨t, ht⟩ := rdropWhile_prefix isSpace (c :: s')
  cases hr : (c :: s').rdropWhile isSpace with
  | nil =>
    have hall := rdropWhile_eq_nil_iff.mp hr c mem_cons_self
    rw [hs] at hall
    cases hall
  | cons d r =>
    rw [hr] at ht
    rw [(cons.inj ht).1]
    rfl

/-- A name whose entry can be read back. -/
def Readable (name : Text) : Prop := '\n' ∉ name ∧ keyOf (entry name) = some name

theorem Readable.head (h : Readable name) :
    ∃ c cs, name = c :: cs ∧ isSpace c = false ∧ c ≠ '#' ∧ c ≠ '[' := by
  obtain ⟨-, h⟩ := h
  unfold keyOf at h
  split at h
  · cases h
  rename_i hhead
  obtain ⟨⟨k, v⟩, hkv, rfl⟩ := Option.map_eq_some_iff.mp h
  have hkey : k ≠ [] ∧ trim k = k := by
    unfold splitKv at hkv
    split at hkv
    · split at hkv
      · cases hkv
      · rename_i hne
        cases hkv
        exact ⟨fun hnil => hne (by simp [hnil]), trim_trim _⟩
    · cases hkv
  obtain ⟨c, cs, rfl⟩ := exists_cons_of_ne_nil hkey.1
  have hspace : isSpace c = false := (hkey.2 ▸ tight_trim (c :: cs)).head c rfl
  have hhash : c ≠ '#' := by
    rintro rfl
    cases hkv
  refine ⟨c, cs, rfl, hspace, hhash, ?_⟩
  rintro rfl
  exact hhead (@head_content "  ".toList (by simp) _ hspace hhash _)

theorem declares_iff {l : Text} : declares name l = true ↔
    name ++ " =".toList <+: l.dropWhile fun c => c = ' ' || c = '\t' := isPrefixOf_iff_prefix

/-- A line that declares the name opens no table. -/
theorem sectionAfter_declares (h : Readable name) {l : Text} (hl : declares name l = true) (cur : Option Text) :
    sectionAfter cur l = cur := by
  obtain ⟨c, cs, rfl, hspace, hhash, hopen⟩ := h.head
  obtain ⟨r, hr⟩ := declares_iff.mp hl
  have hline := takeWhile_append_dropWhile (p := fun c : Char => decide (c = ' ') || decide (c = '\t')) (l := l)
  rw [← hr] at hline
  have hhead : (content l).head? = some c := by
    rw [← hline]
    refine head_content (fun b hb => ?_) hspace hhash _
    simpa using mem_takeWhile_imp hb
  rw [sectionAfter, if_neg (by rw [hhead]; exact fun heq => hopen (Option.some.inj heq))]

theorem declares_entry (h : Readable name) : declares name (entry name) = true := by
  obtain ⟨c, cs, rfl, hspace, -, -⟩ := h.head
  have hblank : ¬ (decide (c = ' ') || decide (c = '\t')) = true := by
    rintro hor
    rcases (by simpa using hor : c = ' ' ∨ c = '\t') with rfl | rfl <;> cases hspace
  rw [declares_iff]
  have hdrop : (entry (c :: cs)).dropWhile (fun c => decide (c = ' ') || decide (c = '\t')) = depLine (c :: cs) := by
    simp only [entry, depLine, cons_append]
    exact (dropWhile_append_of_pos (by simp)).trans (dropWhile_cons_of_neg hblank)
  rw [hdrop, depLine, append_assoc, append_assoc, prefix_append_right_inj]
  exact ⟨" \x7b path = \".vybmod/".toList ++ _, rfl⟩

/-! ## 3. The edit -/

theorem tagged_append (cur : Option Text) (A B : List Text) :
    tagged cur (A ++ B) = tagged cur A ++ tagged (A.foldl sectionAfter cur) B := by
  induction A generalizing cur with
  | nil => rfl
  | cons l A ih => rw [cons_append, tagged, tagged, ih, foldl_cons, cons_append]

/-- The line that stands in the place of a line. -/
def replaced (name line : Text) : Text := if declares name line then entry name else line

theorem tagged_replaced (h : Readable name) (cur : Option Text) (ls : List Text) :
    tagged cur (ls.map (replaced name)) = (tagged cur ls).map fun p => (p.1, replaced name p.2) := by
  induction ls generalizing cur with
  | nil => rfl
  | cons l ls ih =>
    have hsame : sectionAfter cur (replaced name l) = sectionAfter cur l := by
      unfold replaced
      split
      · rename_i hl
        rw [sectionAfter_declares h hl, sectionAfter_declares h (declares_entry h)]
      · rfl
    rw [map_cons, tagged, tagged, hsame, ih, map_cons]

theorem newline_not_mem_entry (h : '\n' ∉ name) : '\n' ∉ entry name := by
  simp [entry, depLine, h]

/-- All declarations of the name stand in the table, and there is one; no other line there has the key. -/
def Declared (name toml : Text) : Prop :=
  (∀ l ∈ outside toml, declares name l = true → l = entry name) ∧
    ∃ l, (inside toml).filter (fun l => declares name l || decide (keyOf l = some name)) = [l] ∧ declares name l = true

theorem replaced_edits_iff (h : Readable name) (toml : Text) :
    EditsOnly name toml ((getLines toml).flatMap fun l => replaced name l ++ ['\n']) ↔ Declared name toml := by
  set edited := (getLines toml).flatMap fun l => replaced name l ++ ['\n']
  have hlines : getLines edited = (getLines toml).map (replaced name) := by
    have hflat : edited = ((getLines toml).map (replaced name)).flatMap (· ++ ['\n']) := by rw [flatMap_map]
    rw [hflat]
    refine getLines_flatMap fun l hl => ?_
    obtain ⟨l₀, hl₀, rfl⟩ := mem_map.mp hl
    unfold replaced
    split
    · exact newline_not_mem_entry h.1
    · exact newline_not_mem_getLines toml l₀ hl₀
  have htag := tagged_replaced h none (getLines toml)
  have houtside : outside edited = (outside toml).map (replaced name) := by
    rw [outside, outside, hlines, htag, outsideOf, outsideOf, filter_map, map_map, map_map]
    rfl
  have hinside : inside edited = (inside toml).map (replaced name) := by
    rw [inside, inside, hlines, htag, insideOf, insideOf, filter_map, map_map, map_map]
    rfl
  refine and_congr ?_ ?_
  · rw [houtside]
    conv_lhs => rhs; rw [← map_id (outside toml)]
    rw [map_inj_left]
    refine forall₂_congr fun l _ => ?_
    unfold replaced
    split
    · rename_i hl
      exact ⟨fun heq _ => heq.symm, fun heq => (heq hl).symm⟩
    · rename_i hl
      exact ⟨fun _ hl' => absurd hl' hl, fun _ => rfl⟩
  · have hkey : ∀ l, decide (keyOf (replaced name l) = some name) =
        (declares name l || decide (keyOf l = some name)) := by
      intro l
      unfold replaced
      split
      · rename_i hl
        simp [hl, h.2]
      · rename_i hl
        simp [hl]
    have hentry : ∀ l, replaced name l = entry name ↔ declares name l = true := by
      intro l
      unfold replaced
      split
      · rename_i hl
        simp [hl]
      · rename_i hl
        exact ⟨fun heq => absurd (heq ▸ declares_entry h) hl, fun hl' => absurd hl' hl⟩
    rw [entryLines, hinside, filter_map, Function.comp_def]
    simp only [hkey]
    constructor
    · intro heq
      obtain ⟨l, hl, hl'⟩ := map_eq_singleton_iff.mp heq
      exact ⟨l, hl, (hentry l).mp hl'⟩
    · rintro ⟨l, hl, hl'⟩
      rw [hl, map_singleton, (hentry l).mpr hl']

/-- The text up to the end of the line in which `[dependencies]` first occurs, if that line is ended. -/
def headText (toml : Text) : Option Text :=
  (search "[dependencies]".toList toml).bind fun found =>
    (cutAt '\n' found).map fun p => toml.take (toml.length - found.length) ++ p.1

/-- The first `[dependencies]`, if there is one, stands on a line of that table. -/
def Placed (toml : Text) : Prop :=
  occurs "[dependencies]".toList toml = true →
    ∃ T, headText toml = some T ∧ (lines T).foldl sectionAfter none = some "dependencies".toList

theorem getLines_append (a b : Text) : getLines (a ++ '\n' :: b) = lines a ++ getLines b := by
  obtain ⟨ls, hls⟩ := lines_head b
  have hlast : (lines a ++ lines b).getLast? = (lines b).getLast? := by
    rw [getLast?_append_of_ne_nil _ (by simp [hls])]
  simp only [getLines, lines_append, hlast]
  split
  · rw [dropLast_append_of_ne_nil (by simp [hls])]
  · rfl

theorem getLines_unended {s : Text} (hne : s ≠ []) (h : '\n' ∉ s) : getLines s = [s] ∧ lines s = [s] := by
  have hlines : lines (s ++ ['\n']) = [s, []] := by simpa using @lines_flatMap [s] (by simpa using h)
  have hone : lines s = [s] := by
    have hboth : lines s ++ [[]] = [s] ++ [[]] := (lines_append s []).symm.trans hlines
    exact append_cancel_right hboth
  exact ⟨by simp [getLines, hone, hne], hone⟩

variable {toml : Text}

theorem inserted_iff (h : Readable name) {T rest : Text} (hsplit : toml = T ++ '\n' :: rest) :
    EditsOnly name toml (T ++ '\n' :: (entry name ++ '\n' :: rest)) ↔
      entryLines name toml = [] ∧ (lines T).foldl sectionAfter none = some "dependencies".toList := by
  have hentry : lines (entry name) = [entry name] :=
    (getLines_unended (by simp [entry]) (newline_not_mem_entry h.1)).2
  have hnew : tagged none (getLines (T ++ '\n' :: (entry name ++ '\n' :: rest))) =
      tagged none (lines T) ++ (decide ((lines T).foldl sectionAfter none = some "dependencies".toList), entry name) ::
        tagged ((lines T).foldl sectionAfter none) (getLines rest) := by
    rw [getLines_append, getLines_append, hentry, tagged_append, singleton_append, tagged,
      sectionAfter_declares h (declares_entry h)]
  have hold : tagged none (getLines toml) =
      tagged none (lines T) ++ tagged ((lines T).foldl sectionAfter none) (getLines rest) := by
    rw [hsplit, getLines_append, tagged_append]
  rw [EditsOnly, outside, outside, entryLines, entryLines, inside, inside, hnew, hold]
  by_cases hdeps : (lines T).foldl sectionAfter none = some "dependencies".toList
  · simp [outsideOf, insideOf, hdeps, h.2, append_eq_singleton_iff]
  · refine ⟨fun ⟨hout, _⟩ => ?_, fun ⟨_, hd⟩ => absurd hd hdeps⟩
    rw [decide_eq_false hdeps] at hout
    have hlen := congrArg length hout
    simp only [outsideOf, filter_append, filter_cons, Bool.not_false, if_true, map_append,
      map_cons, length_append, length_cons] at hlen
    omega

theorem entry_mem_of_edits {old new : Text} (h : EditsOnly name old new) :
    entry name ∈ getLines new ∧ keyOf (entry name) = some name := by
  have hmem : entry name ∈ entryLines name new := h.2 ▸ mem_singleton_self _
  obtain ⟨hin, hkey⟩ := mem_filter.mp hmem
  refine ⟨?_, by simpa using hkey⟩
  obtain ⟨p, hp, heq⟩ := mem_map.mp hin
  have hall : ∀ (cur : Option Text) (ls : List Text), (tagged cur ls).map Prod.snd = ls := by
    intro cur ls
    induction ls generalizing cur with
    | nil => rfl
    | cons l ls ih => rw [tagged, map_cons, ih]
  rw [← hall none (getLines new), ← heq]
  exact mem_map_of_mem (mem_of_mem_filter hp)

theorem readable_of_edits {old new : Text} (h : EditsOnly name old new) : Readable name := by
  obtain ⟨hmem, hkey⟩ := entry_mem_of_edits h
  refine ⟨fun hn => newline_not_mem_getLines new _ hmem ?_, hkey⟩
  simp [entry, depLine, hn]

theorem prefix_before {pat a b : Text} (hpat : '\n' ∉ pat) (h : pat <+: a ++ '\n' :: b) : pat <+: a := by
  rcases prefix_or_prefix_of_prefix h (prefix_append a _) with hp | ⟨y, rfl⟩
  · exact hp
  · cases y with
    | nil => rw [append_nil]
    | cons d y =>
      rw [prefix_append_right_inj] at h
      obtain ⟨r, hr⟩ := h
      exact absurd ((cons.inj hr).1 ▸ mem_append_right a mem_cons_self) hpat

/-- Behind a line that does not contain the pattern the search goes on. -/
theorem search_behind {pat : Text} (hne : pat ≠ []) (hpat : '\n' ∉ pat) (rest : Text) :
    ∀ s : Text, ¬ pat <:+: s → search pat (s ++ '\n' :: rest) = search pat rest
  | [], _ => by
    have hno : ¬ pat <+: '\n' :: rest := fun h => hne (prefix_nil.mp (prefix_before (a := []) hpat h))
    rw [nil_append, search, if_neg (mt isPrefixOf_iff_prefix.mp hno)]
  | c :: s, h => by
    have hno : ¬ pat <+: c :: (s ++ '\n' :: rest) := fun hp => h (prefix_before (a := c :: s) hpat hp).isInfix
    rw [cons_append, search, if_neg (mt isPrefixOf_iff_prefix.mp hno)]
    exact search_behind hne hpat rest s fun hs => h (hs.trans (suffix_cons c s).isInfix)

theorem getLines_of_last {s : Text} (hne : s ≠ []) (hlast : s.getLast? ≠ some '\n') :
    getLines s = lines s := by
  by_cases hmem : '\n' ∈ s
  · obtain ⟨a, b, rfl, hb⟩ := exists_last hmem
    have hbne : b ≠ [] := by
      rintro rfl
      exact hlast getLast?_concat
    rw [getLines_append, lines_append, (getLines_unended hbne hb).1, (getLines_unended hbne hb).2]
  · rw [(getLines_unended hne hmem).1, (getLines_unended hne hmem).2]

theorem withDependencies_eq (hno : ¬ occurs "[dependencies]".toList toml = true) :
    ∃ s, withDependencies toml = s ++ "[dependencies]\n".toList ∧
      getLines (withDependencies toml) = getLines toml ++ ["[dependencies]".toList] ∧
      search "[dependencies]".toList (withDependencies toml) = some "[dependencies]\n".toList := by
  rw [withDependencies, if_neg hno]
  have hinfix : ¬ "[dependencies]".toList <:+: toml := mt occurs_iff.mpr hno
  by_cases hnil : toml = []
  · subst hnil
    exact ⟨[], rfl, rfl, rfl⟩
  have hbehind : ∀ u, ¬ "[dependencies]".toList <:+: u → search "[dependencies]".toList
      (u ++ '\n' :: "[dependencies]\n".toList) = some "[dependencies]\n".toList := fun u hu =>
    (search_behind (by decide) (by decide) _ u hu).trans rfl
  by_cases hlast : toml.getLast? = some '\n'
  · obtain ⟨u, rfl⟩ := getLast?_eq_some_iff.mp hlast
    rw [if_pos (by simp), append_assoc, singleton_append]
    refine ⟨u ++ ['\n'], by simp, ?_, hbehind u fun hu => hinfix (hu.trans (prefix_append _ _).isInfix)⟩
    rw [getLines_append, getLines_append]
    simp [getLines, lines]
  · rw [if_neg (by simp [hnil, hlast]), append_assoc, singleton_append]
    refine ⟨toml ++ ['\n'], by simp, ?_, hbehind toml hinfix⟩
    rw [getLines_append, getLines_of_last hnil hlast]
    rfl

/-- Where the entry goes, if the line of the first `[dependencies]` is ended. -/
theorem insertEntry_eq {T : Text} (h : headText toml = some T) (e : Text) :
    ∃ rest, toml = T ++ '\n' :: rest ∧ insertEntry toml e = T ++ '\n' :: (e ++ '\n' :: rest) := by
  obtain ⟨found, hfound, h⟩ := Option.bind_eq_some_iff.mp h
  obtain ⟨⟨a, rest⟩, hcut, rfl⟩ := Option.map_eq_some_iff.mp h
  obtain ⟨⟨u, hu⟩, -⟩ := search_eq_some_iff.mp hfound
  have htake : toml.take (toml.length - found.length) = u := by
    rw [← hu, length_append, Nat.add_sub_cancel, take_left]
  refine ⟨rest, ?_, ?_⟩
  · rw [htake, append_assoc, ← cutAt_eq hcut, hu]
  · simp only [insertEntry, hfound, hcut, append_assoc, cons_append, nil_append]

/-- The table that is added holds the entry, and changes no other line. -/
theorem withDependencies_placed (name : Text) (hno : ¬ occurs "[dependencies]".toList toml = true) :
    outside (withDependencies toml) = outside toml ∧ entryLines name (withDependencies toml) = entryLines name toml ∧
      ∃ T, headText (withDependencies toml) = some T ∧
        (lines T).foldl sectionAfter none = some "dependencies".toList := by
  obtain ⟨s, hs, hlines, hsearch⟩ := withDependencies_eq hno
  have htag : tagged none (getLines (withDependencies toml)) =
      tagged none (getLines toml) ++ [(true, "[dependencies]".toList)] := by
    rw [hlines, tagged_append]
    rfl
  have hcut : cutAt '\n' "[dependencies]\n".toList = some ("[dependencies]".toList, []) := rfl
  have hT : lines (s ++ "[dependencies]".toList) = getLines toml ++ ["[dependencies]".toList] := by
    have hw : withDependencies toml = (s ++ "[dependencies]".toList) ++ '\n' :: [] := by
      rw [hs, append_assoc]
      rfl
    rw [← hlines, hw, getLines_append]
    exact (append_nil _).symm
  refine ⟨?_, ?_, s ++ "[dependencies]".toList, ?_, ?_⟩
  · rw [outside, outside, htag, outsideOf, filter_append, map_append]
    exact append_nil _
  · rw [entryLines, entryLines, inside, inside, htag, insideOf, filter_append, map_append,
      filter_append]
    exact append_nil _
  · rw [headText, hsearch, Option.bind_some, hcut, Option.map_some, hs, length_append, Nat.add_sub_cancel,
      take_left]
  · rw [hT, foldl_append]
    rfl

/-- Without an end of that line the entry is put on it. -/
theorem insertEntry_glued (h : headText toml = none) (hocc : occurs "[dependencies]".toList toml = true)
    (hno : entry name ∉ getLines toml) (hname : '\n' ∉ name) :
    entry name ∉ getLines (insertEntry toml (entry name)) := by
  obtain ⟨found, hfound⟩ := Option.isSome_iff_exists.mp hocc
  obtain ⟨⟨u, hu⟩, ⟨r, hr⟩, -⟩ := search_eq_some_iff.mp hfound
  have hcut : cutAt '\n' found = none := by
    rw [headText, hfound, Option.bind_some] at h
    exact Option.map_eq_none_iff.mp h
  have hfne : found ≠ [] := by
    rintro rfl
    exact absurd (append_eq_nil_iff.mp hr).1 (by decide)
  have hend : '\n' ∉ found := fun hmem => by simp [cutAt, hmem] at hcut
  have htake : toml.take (toml.length - found.length) = u := by
    rw [← hu, length_append, Nat.add_sub_cancel, take_left]
  have hlast : toml.getLast? ≠ some '\n' := by
    intro hl
    rw [← hu, getLast?_append_of_ne_nil _ hfne] at hl
    exact hend (mem_of_getLast? hl)
  have hne : toml ≠ [] := fun hnil => hfne (append_eq_nil_iff.mp (hu.trans hnil)).2
  have hnew : insertEntry toml (entry name) = (toml ++ entry name) ++ '\n' :: [] := by
    simp only [insertEntry, hfound, hcut, htake, hu, append_assoc]
  have hlonger : ∀ b : Text, b ≠ [] → entry name ≠ b ++ entry name := fun b hb heq => by
    have hlen := congrArg length heq
    have := length_pos_of_ne_nil hb
    rw [length_append] at hlen
    omega
  have hone : ∀ b : Text, b ≠ [] → '\n' ∉ b → lines (b ++ entry name) = [b ++ entry name] := fun b hb hnl =>
    (getLines_unended (by simp [hb]) (by simp [hnl, newline_not_mem_entry hname])).2
  rw [hnew, getLines_append, show getLines ([] : Text) = [] from rfl, append_nil]
  rw [getLines_of_last hne hlast] at hno
  by_cases hmem : '\n' ∈ toml
  · obtain ⟨a, b, rfl, hb⟩ := exists_last hmem
    have hbne : b ≠ [] := by
      rintro rfl
      exact hlast getLast?_concat
    rw [append_assoc, cons_append, lines_append, hone b hbne hb, mem_append, mem_singleton]
    rw [lines_append] at hno
    rintro (hin | heq)
    · exact hno (mem_append_left _ hin)
    · exact hlonger b hbne heq
  · rw [hone toml hne hmem, mem_singleton]
    exact hlonger toml hne

/-- **The edit of an installation.** It changes nothing outside of `[dependencies]` and leaves the written entry as the
only one for the name there, exactly if the entry can be read back and: where lines begin with `<name> =`, they
stand in the table (or are the entry already), there is one in the table, and no other line there has the key;
where none does, the entry occurs nowhere in the file, the table has no line with the key, and the first
`[dependencies]` of the file, if there is one, is on an ended line of the table. -/
theorem edits_only_iff (name toml : Text) :
    EditsOnly name toml (registerDependency toml name) ↔ Readable name ∧
      if (getLines toml).any (declares name) then Declared name toml
      else occurs (depLine name) toml = false ∧ entryLines name toml = [] ∧ Placed toml := by
  suffices key : Readable name → (EditsOnly name toml (registerDependency toml name) ↔
      if (getLines toml).any (declares name) then Declared name toml
      else occurs (depLine name) toml = false ∧ entryLines name toml = [] ∧ Placed toml) from
    ⟨fun he => ⟨readable_of_edits he, (key (readable_of_edits he)).mp he⟩, fun ⟨h, hc⟩ => (key h).mpr hc⟩
  intro h
  unfold registerDependency
  split
  · exact replaced_edits_iff h toml
  rename_i hdecl
  have hno : entry name ∉ getLines toml := fun hmem =>
    hdecl (any_eq_true.mpr ⟨_, hmem, declares_entry h⟩)
  split
  · rename_i hocc
    simp only [hocc, Bool.true_eq_false, false_and, iff_false]
    exact fun hedits => hno (entry_mem_of_edits hedits).1
  rename_i hfresh
  rw [Bool.not_eq_true] at hfresh
  rw [and_iff_right hfresh]
  by_cases hocc : occurs "[dependencies]".toList toml = true
  · rw [withDependencies, if_pos hocc]
    cases hhead : headText toml with
    | none =>
      refine ⟨fun hedits => absurd (entry_mem_of_edits hedits).1 (insertEntry_glued hhead hocc hno h.1), ?_⟩
      rintro ⟨-, hplaced⟩
      obtain ⟨T, hT, -⟩ := hplaced hocc
      rw [hhead] at hT
      cases hT
    | some T =>
      obtain ⟨rest, hsplit, hnew⟩ := insertEntry_eq hhead (entry name)
      have hplaced : Placed toml ↔ (lines T).foldl sectionAfter none = some "dependencies".toList := by
        refine ⟨fun hp => ?_, fun hsec _ => ⟨T, hhead, hsec⟩⟩
        obtain ⟨T', hT', hsec⟩ := hp hocc
        obtain rfl := Option.some.inj (hhead.symm.trans hT')
        exact hsec
      rw [hplaced, ← inserted_iff h hsplit, ← hnew]
      rfl
  · obtain ⟨hout, hentries, T, hhead, hT⟩ := withDependencies_placed name hocc
    obtain ⟨rest, hsplit, hnew⟩ := insertEntry_eq hhead (entry name)
    have hplaced : Placed toml := fun hocc' => absurd hocc' hocc
    have hiff := inserted_iff h hsplit
    rw [← hnew, EditsOnly, hout, hentries, and_iff_left hT] at hiff
    rw [and_iff_left hplaced, ← hiff]
    rfl

/-- **Two edits that go wrong**: a package called `name` overwrites the name of the project, and a declaration
without a blank before `=` gets a second entry beside it. -/
theorem package_name_replaced :
    registerDependency "[package]\nname = \"app\"\n".toList "name".toList =
        "[package]\n  name = \x7b path = \".vybmod/name\" \x7d\n".toList ∧
      ¬ EditsOnly "name".toList "[package]\nname = \"app\"\n".toList
        (registerDependency "[package]\nname = \"app\"\n".toList "name".toList) ∧
      entryLines "lib".toList (registerDependency "[dependencies]\nlib=\x7b git = \"u\" \x7d\n".toList "lib".toList) =
        [entry "lib".toList, "lib=\x7b git = \"u\" \x7d".toList] := by
  refine ⟨by decide +kernel, fun h => ?_, by decide +kernel⟩
  exact absurd h.1 (by decide +kernel)

end Vyb.Packages
