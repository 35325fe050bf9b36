/-
  Subject:   The choice of a version in the package registry (`src/main.cpp`, `resolve_version_dep`).

  The directories of a package are versions. Their names are read with `sscanf("%d.%d.%d")`, which skips
  blanks and signs, reads each number into an `int`, and does not ask what stands behind the last one; a
  specification is read in the same way.

  * `scanInt`, `parseVersion`, `matchSpec`, `resolveVersionDep` -- the code;
  * `Version`, `Line` -- what the names and the specifications stand for: `x.y.z`, `x` and `x.y`;
  * `parseVersion_text` -- the name of a version is read as that version, as far as its numbers are `int`s;
  * `Highest` -- the directory that reads highest among those that match;
  * **`resolves_iff`** -- when the choice does not depend on the order of the directories and is the version
    that was asked for;
  * `clear_of_versions`, `choice_of_versions` -- a registry with no other directories than versions is
    such a case;
  * `lenient_choices` -- three choices that are not.
-/
import Vyb.Lib.Best
import Vyb.Lib.Search
import Vyb.Packages.Manifest

namespace Vyb.Packages

open List Nat

open Vyb.Lib (better best Tops best_eq_some_iff best_perm_iff best_tops span_append)

/-! ## 1. The code -/

/-- What `c_str()` shows of a string to a function that stops at a zero. -/
def cStr (s : Text) : Text := s.takeWhile (· ≠ '\x00')

/-- The `int` that is left of what `strtol` returns. -/
def toInt (n : Int) : Int := Int.bmod (max (-2 ^ 63) (min n (2 ^ 63 - 1))) (2 ^ 32)

/-- A sign, if there is one, and what follows it. -/
def scanSign : Text → Bool × Text
  | '-' :: s => (true, s)
  | '+' :: s => (false, s)
  | s => (false, s)

/-- The conversion `%d`: blanks, a sign, digits. -/
def scanInt (s : Text) : Option (Int × Text) :=
  let (negative, s) := scanSign (s.dropWhile isSpace)
  let digits := s.takeWhile Char.isDigit
  if digits.isEmpty then none
  else
    let n : Int := Nat.ofDigitChars 10 digits 0
    some (toInt (if negative then -n else n), s.dropWhile Char.isDigit)

/-- The text `.` of a format. -/
def scanDot : Text → Option Text
  | '.' :: s => some s
  | _ => none

/-- `sscanf(s, "%d.%d", …) == 2`, and what was not read. -/
def scanTwo (s : Text) : Option ((Int × Int) × Text) := do
  let (x, s) ← scanInt (cStr s)
  let s ← scanDot s
  let (y, s) ← scanInt s
  some ((x, y), s)

/-- `sscanf(s, "%d.%d.%d", …) == 3`. -/
def parseVersion (s : Text) : Option (Int × Int × Int) := do
  let ((x, y), s) ← scanTwo s
  let s ← scanDot s
  let (z, _) ← scanInt s
  some (x, y, z)

def atoi (s : Text) : Int := ((scanInt (cStr s)).map (·.1)).getD 0

def matchSpec (spec : Text) (x y z : Int) : Bool :=
  if spec.isEmpty || spec = "latest".toList then true
  else
    match parseVersion spec with
    | some (sx, sy, sz) => x = sx && y = sy && z = sz
    | none =>
      if !spec.contains '.' then x = atoi spec
      else
        match scanTwo spec with
        | some ((nx, ny), _) => x = nx && y = ny
        -- an unknown form is taken for "any"
        | none => true

/-- The directory of a package, in the order of its enumeration: names, and whether they are directories. -/
structure Listing where
  entries : List (Text × Bool)
  distinct : (entries.map Prod.fst).Nodup

/-- The variables `best`, `bx`, `by` and `bz` of the loop. -/
structure Choosing where
  best : Option Text
  bx : Int
  bY : Int
  bz : Int

/-- One round of the loop. -/
def consider (spec : Text) (s : Choosing) (e : Text × Bool) : Choosing :=
  if !e.2 then s
  else
    match parseVersion e.1 with
    | none => s
    | some (x, y, z) =>
      if !matchSpec spec x y z then s
      else if x > s.bx || (x = s.bx && y > s.bY) || (x = s.bx && y = s.bY && z > s.bz) then ⟨some e.1, x, y, z⟩
      else s

/-- The directory that was chosen, and its name. -/
structure Found where
  outSrc : Text
  outVer : Text
  deriving DecidableEq, Repr

/-- `resolve_version_dep`, where `dir` is what stands at the path `pkg` of the package. -/
def resolveVersionDep (name spec pkg : Text) (dir : Option Listing) : Except Text Found :=
  match dir with
  | none => .error ("package '".toList ++ name ++ "' not found in registry (".toList ++ pkg ++ ")".toList)
  | some l =>
    match (l.entries.foldl (consider spec) ⟨none, -1, -1, -1⟩).best with
    | some v => .ok ⟨pkg ++ '/' :: v, v⟩
    | none => .error ("no version of '".toList ++ name ++ "' matches spec '".toList ++
        (if spec.isEmpty then "latest".toList else spec) ++ "' in registry (".toList ++ pkg ++ ")".toList)

/-! ## 2. Versions and what is asked for -/

/-- A version `x.y.z`. -/
structure Version where
  x : Nat
  y : Nat
  z : Nat
  deriving DecidableEq, Repr

namespace Version

def text (v : Version) : Text :=
  Nat.toDigits 10 v.x ++ '.' :: (Nat.toDigits 10 v.y ++ '.' :: Nat.toDigits 10 v.z)

/-- Versions are compared by their components, from the left. -/
def rank (v : Version) : ℕ ×ₗ ℕ ×ₗ ℕ := toLex (v.x, toLex (v.y, v.z))

end Version

/-- A line of versions: those that begin with `x`, or with `x.y`. -/
inductive Line where
  | major (x : Nat)
  | minor (x y : Nat)
  deriving DecidableEq, Repr

namespace Line

def text : Line → Text
  | major x => Nat.toDigits 10 x
  | minor x y => Nat.toDigits 10 x ++ '.' :: Nat.toDigits 10 y

def Has : Line → Version → Prop
  | major x, v => v.x = x
  | minor x y, v => v.x = x ∧ v.y = y

/-- `n` names the greatest version of the line that is there. -/
def Greatest (p : Line) (l : Listing) (n : Text) : Prop :=
  ∃ v : Version, n = v.text ∧ (n, true) ∈ l.entries ∧ p.Has v ∧
    ∀ w : Version, (w.text, true) ∈ l.entries → p.Has w → w.rank ≤ v.rank

end Line

open Line

/-- The forms that a specification has. -/
inductive Known : Text → Prop where
  | any : Known []
  | latest : Known "latest".toList
  | full (v : Version) : Known v.text
  | line (p : Line) : Known p.text

/-- The name that is chosen, if there is one. -/
def choice (name spec pkg : Text) (l : Listing) : Option Text :=
  ((resolveVersionDep name spec pkg (some l)).toOption).map (·.outVer)

/-- What is expected of the choice among the directories `l`. -/
structure Resolves (name spec pkg : Text) (l : Listing) : Prop where
  order : ∀ l' : Listing, l'.entries.Perm l.entries → choice name spec pkg l' = choice name spec pkg l
  full : ∀ v : Version, spec = v.text → ∀ n, choice name spec pkg l = some n → n = v.text
  line : ∀ p : Line, spec = p.text → ∀ n, choice name spec pkg l = some n ↔ p.Greatest l n
  known : ¬ Known spec → ∃ v : Version, matchSpec spec v.x v.y v.z = false

/-! ## 3. What the loop keeps -/

/-- What a directory that matches is read as. -/
def scanned (spec : Text) (e : Text × Bool) : Option (ℤ ×ₗ ℤ ×ₗ ℤ) :=
  if e.2 then (parseVersion e.1).bind fun t =>
    if matchSpec spec t.1 t.2.1 t.2.2 then some (toLex (t.1, toLex t.2)) else none
  else none

/-- What the first directory has to beat. -/
def below : ℤ ×ₗ ℤ ×ₗ ℤ := toLex (-1, toLex (-1, -1))

/-- A directory that matches, reads above `-1.-1.-1` and, of those that match, highest. -/
def Highest (spec : Text) (l : Listing) (n : Text) : Prop :=
  Tops (scanned spec) below l.entries (n, true)

/-- The variables of the loop as an element and its key. -/
def Choosing.Is (s : Choosing) (t : Option (Text × Bool) × (ℤ ×ₗ ℤ ×ₗ ℤ)) : Prop :=
  s.best = t.1.map (·.1) ∧ t.2 = toLex (s.bx, toLex (s.bY, s.bz))

theorem lex_lt_iff {x y z a b c : Int} : (toLex (a, toLex (b, c)) : ℤ ×ₗ ℤ ×ₗ ℤ) < toLex (x, toLex (y, z)) ↔
    (decide (x > a) || (decide (x = a) && decide (y > b)) ||
      (decide (x = a) && decide (y = b) && decide (z > c))) = true := by
  simp only [Prod.Lex.lt_iff, ofLex_toLex, Bool.or_eq_true, Bool.and_eq_true, decide_eq_true_eq]
  omega

attribute [local simp] scanned

theorem consider_better (spec : Text) {s : Choosing} {t : Option (Text × Bool) × (ℤ ×ₗ ℤ ×ₗ ℤ)} (h : s.Is t)
    (e : Text × Bool) : (consider spec s e).Is (better (scanned spec) t e) := by
  obtain ⟨n, dir⟩ := e
  obtain ⟨hbest, hkey⟩ := h
  cases dir with
  | false => exact ⟨hbest, hkey⟩
  | true =>
    cases hp : parseVersion n with
    | none =>
      have hs : scanned spec (n, true) = none := by simp [hp]
      simp only [consider, better, hp, hs]
      exact ⟨hbest, hkey⟩
    | some v =>
      obtain ⟨x, y, z⟩ := v
      cases hm : matchSpec spec x y z with
      | false =>
        have hs : scanned spec (n, true) = none := by simp [hp, hm]
        simp only [consider, better, hp, hm, hs]
        exact ⟨hbest, hkey⟩
      | true =>
        have hs : scanned spec (n, true) = some (toLex (x, toLex (y, z))) := by simp [hp, hm]
        simp only [consider, better, hp, hm, hs, hkey, lex_lt_iff, Bool.not_true, Bool.false_eq_true, if_false]
        split_ifs
        · exact ⟨rfl, rfl⟩
        · exact ⟨hbest, hkey⟩

theorem foldl_consider (spec : Text) : ∀ (es : List (Text × Bool)) {s : Choosing}
    {t : Option (Text × Bool) × (ℤ ×ₗ ℤ ×ₗ ℤ)}, s.Is t →
    (es.foldl (consider spec) s).Is (es.foldl (better (scanned spec)) t)
  | [], _, _, h => h
  | e :: es, _, _, h => foldl_consider spec es (consider_better spec h e)

/-- **The choice** is the name of the best directory. -/
theorem choice_eq (name spec pkg : Text) (l : Listing) :
    choice name spec pkg l = (best (scanned spec) below l.entries).map (·.1) := by
  have hloop := (foldl_consider spec l.entries (s := ⟨none, -1, -1, -1⟩) (t := (none, below)) ⟨rfl, rfl⟩).1
  rw [best, ← hloop, choice, resolveVersionDep]
  cases (l.entries.foldl (consider spec) ⟨none, -1, -1, -1⟩).best with
  | none | some v => rfl

variable {name spec pkg : Text} {l l' : Listing}

theorem eq_of_name_eq {e e' : Text × Bool} (he : e ∈ l.entries) (he' : e' ∈ l.entries) (h : e.1 = e'.1) :
    e = e' :=
  inj_on_of_nodup_map l.distinct he he' h

theorem snd_of_tops {e : Text × Bool} (h : Tops (scanned spec) below l.entries e) : e = (e.1, true) := by
  obtain ⟨-, k, hk, -⟩ := h
  cases hdir : e.2 with
  | false => simp [hdir] at hk
  | true => rw [← hdir]

theorem highest_unique_iff : (∀ n n', Highest spec l n → Highest spec l n' → n = n') ↔
    ∀ e e', Tops (scanned spec) below l.entries e → Tops (scanned spec) below l.entries e' → e = e' := by
  constructor
  · intro h e e' he he'
    have hn : Highest spec l e.1 := by rwa [snd_of_tops he] at he
    have hn' : Highest spec l e'.1 := by rwa [snd_of_tops he'] at he'
    exact eq_of_name_eq he.1 he'.1 (h _ _ hn hn')
  · intro h n n' hn hn'
    exact congrArg Prod.fst (h _ _ hn hn')

/-- **The order** of the directories does not matter exactly if one of them at most reads highest. -/
theorem order_iff :
    (∀ l' : Listing, l'.entries.Perm l.entries → choice name spec pkg l' = choice name spec pkg l) ↔
    ∀ n n', Highest spec l n → Highest spec l n' → n = n' := by
  rw [highest_unique_iff, ← best_perm_iff]
  constructor
  · intro h es hes
    have hd : (es.map Prod.fst).Nodup := (hes.map Prod.fst).nodup_iff.mpr l.distinct
    have hc := h ⟨es, hd⟩ hes
    rw [choice_eq, choice_eq] at hc
    -- names are distinct, so that the entries are the same if their names are
    cases hb : best (scanned spec) below es with
    | none =>
      rw [hb] at hc
      exact (Option.map_eq_none_iff.mp hc.symm).symm
    | some e =>
      rw [hb] at hc
      obtain ⟨e', hb', hn⟩ := Option.map_eq_some_iff.mp hc.symm
      rw [hb', eq_of_name_eq (best_tops hb').1 (hes.mem_iff.mp (best_tops hb).1) hn]
  · intro h l' hl'
    rw [choice_eq, choice_eq, h _ hl']

/-- Where one directory at most reads highest, that one is chosen. -/
theorem choice_eq_some_iff (hone : ∀ n n', Highest spec l n → Highest spec l n' → n = n') {n : Text} :
    choice name spec pkg l = some n ↔ Highest spec l n := by
  rw [choice_eq, Option.map_eq_some_iff]
  constructor
  · rintro ⟨e, he, rfl⟩
    have htop := best_tops he
    rwa [snd_of_tops htop] at htop
  · intro h
    exact ⟨(n, true), (best_eq_some_iff (highest_unique_iff.mp hone)).mpr h, rfl⟩

/-! ## 4. Specifications -/

theorem exists_ne (a : Int) : ∃ x : Nat, (x : Int) ≠ a :=
  ⟨a.toNat + 1, by omega⟩

theorem scanTwo_of_parseVersion {t : Int × Int × Int} (h : parseVersion spec = some t) :
    (scanTwo spec).isSome = true := by
  cases hs : scanTwo spec with
  | none => simp [parseVersion, hs] at h
  | some r => rfl

/-- **A specification that does not match everything**: one without a dot, or with two numbers. -/
theorem matchSpec_false_iff (hany : ¬ Known spec) :
    (∃ v : Version, matchSpec spec v.x v.y v.z = false) ↔ '.' ∉ spec ∨ (scanTwo spec).isSome = true := by
  have hform : (spec.isEmpty || decide (spec = "latest".toList)) = false := by
    rw [Bool.or_eq_false_iff, isEmpty_eq_false_iff, decide_eq_false_iff_not]
    exact ⟨fun h => hany (h ▸ .any), fun h => hany (h ▸ .latest)⟩
  cases hp : parseVersion spec with
  | some t =>
    obtain ⟨x, hx⟩ := exists_ne t.1
    refine iff_of_true ⟨⟨x, 0, 0⟩, ?_⟩ (.inr (scanTwo_of_parseVersion hp))
    simp only [matchSpec, hform, hp]
    simp [hx]
  | none =>
    by_cases hdot : '.' ∈ spec
    · cases hs : scanTwo spec with
      | some r =>
        obtain ⟨x, hx⟩ := exists_ne r.1.1
        refine iff_of_true ⟨⟨x, 0, 0⟩, ?_⟩ (.inr rfl)
        simp only [matchSpec, hform, hp, hs]
        simp [hx, hdot]
      | none =>
        refine iff_of_false ?_ (by simp [hdot])
        rintro ⟨v, hv⟩
        simp [matchSpec, hp, hs, hdot] at hv
    · obtain ⟨x, hx⟩ := exists_ne (atoi spec)
      refine iff_of_true ⟨⟨x, 0, 0⟩, ?_⟩ (.inl hdot)
      simp only [matchSpec, hform, hp]
      simp [hx, hdot]

theorem toInt_of_lt {n : Nat} (h : n < 2 ^ 31) : toInt n = n := by
  rw [toInt, min_eq_left (by omega), max_eq_right (by omega)]
  exact Int.bmod_eq_of_le (by omega) (by omega)

/-- A text that no digit begins. -/
def Ended (s : Text) : Prop := ∀ c ∈ s.head?, c.isDigit = false

theorem isDigit_of_mem {n : Nat} {c : Char} (h : c ∈ Nat.toDigits 10 n) : c.isDigit = true :=
  isDigit_of_mem_toDigits (by omega) (by omega) h

theorem digit_plain {c : Char} (h : c.isDigit = true) :
    isSpace c = false ∧ c ≠ '-' ∧ c ≠ '+' ∧ c ≠ '\x00' := by
  refine ⟨?_, ?_, ?_, ?_⟩
  · by_contra hs
    rw [Bool.not_eq_false, isSpace, decide_eq_true_eq] at hs
    simp only [mem_cons, not_mem_nil, or_false] at hs
    rcases hs with rfl | rfl | rfl | rfl | rfl | rfl <;> cases h
  all_goals rintro rfl; cases h

theorem scanInt_digits {n : Nat} (h : n < 2 ^ 31) {rest : Text} (hrest : Ended rest) :
    scanInt (Nat.toDigits 10 n ++ rest) = some ((n : Int), rest) := by
  obtain ⟨htake, hdrop⟩ := span_append (fun _ => isDigit_of_mem (n := n)) hrest
  -- the first digit is neither a blank nor a sign
  have hplain : scanSign ((toDigits 10 n ++ rest).dropWhile isSpace) = (false, toDigits 10 n ++ rest) := by
    obtain ⟨d, ds, hds⟩ := exists_cons_of_ne_nil (toDigits_ne_nil (n := n) (b := 10))
    obtain ⟨hspace, hminus, hplus, -⟩ := digit_plain (isDigit_of_mem (n := n) (hds ▸ mem_cons_self))
    rw [hds, cons_append, dropWhile_cons_of_neg (by simp [hspace])]
    unfold scanSign
    split
    · rename_i heq
      exact absurd (cons.inj heq).1 hminus
    · rename_i heq
      exact absurd (cons.inj heq).1 hplus
    · rfl
  simp only [scanInt, hplain, htake, hdrop]
  rw [if_neg (by simp [toDigits_ne_nil]), ofDigitChars_ten_toDigits, if_neg (by simp), toInt_of_lt h]

/-- The numbers of a version are `int`s. -/
def Version.Fits (v : Version) : Prop := v.x < 2 ^ 31 ∧ v.y < 2 ^ 31 ∧ v.z < 2 ^ 31

def Line.Fits : Line → Prop
  | .major x => x < 2 ^ 31
  | .minor x y => x < 2 ^ 31 ∧ y < 2 ^ 31

theorem ended_dot (s : Text) : Ended ('.' :: s) := fun c hc => by
  obtain rfl : '.' = c := by simpa using hc
  rfl

theorem ended_nil : Ended [] := fun c hc => by simp at hc

/-- Digits and dots. -/
def Plain (s : Text) : Prop := ∀ c ∈ s, c.isDigit = true ∨ c = '.'

theorem plain_digits (n : Nat) : Plain (toDigits 10 n) := fun _ h => .inl (isDigit_of_mem h)

theorem Plain.dot {s t : Text} (hs : Plain s) (ht : Plain t) : Plain (s ++ '.' :: t) := by
  intro c hc
  rw [mem_append, mem_cons] at hc
  rcases hc with h | rfl | h
  · exact hs c h
  · exact .inr rfl
  · exact ht c h

theorem cStr_eq {s : Text} (h : Plain s) : cStr s = s := by
  refine takeWhile_eq_self_iff.mpr fun c hc => ?_
  rcases h c hc with hd | rfl
  · simpa using (digit_plain hd).2.2.2
  · decide

theorem text_plain (v : Version) : Plain v.text :=
  (plain_digits v.x).dot ((plain_digits v.y).dot (plain_digits v.z))

theorem line_plain : ∀ p : Line, Plain p.text
  | .major x => plain_digits x
  | .minor x y => (plain_digits x).dot (plain_digits y)

/-- Two numbers and what stands behind them. -/
theorem scanTwo_digits {x y : Nat} (hx : x < 2 ^ 31) (hy : y < 2 ^ 31) {rest : Text} (hrest : Ended rest)
    (hplain : cStr (Nat.toDigits 10 x ++ '.' :: (Nat.toDigits 10 y ++ rest)) =
      Nat.toDigits 10 x ++ '.' :: (Nat.toDigits 10 y ++ rest)) :
    scanTwo (Nat.toDigits 10 x ++ '.' :: (Nat.toDigits 10 y ++ rest)) = some (((x : Int), (y : Int)), rest) := by
  rw [scanTwo, hplain, scanInt_digits hx (ended_dot _)]
  simp only [Option.bind_eq_bind, Option.bind_some, scanDot, scanInt_digits hy hrest]

/-- **The name of a version** is read as that version. -/
theorem parseVersion_text {v : Version} (h : v.Fits) :
    parseVersion v.text = some ((v.x : Int), (v.y : Int), (v.z : Int)) := by
  have hz := scanInt_digits h.2.2 ended_nil
  rw [append_nil] at hz
  rw [parseVersion, Version.text, scanTwo_digits h.1 h.2.1 (ended_dot _) (cStr_eq (text_plain v))]
  simp only [Option.bind_eq_bind, Option.bind_some, scanDot, hz]

theorem ne_latest {s : Text} (hs : s ≠ []) (h : Plain s) :
    (s.isEmpty || decide (s = "latest".toList)) = false := by
  rw [Bool.or_eq_false_iff, isEmpty_eq_false_iff, decide_eq_false_iff_not]
  refine ⟨hs, fun heq => ?_⟩
  have hl : 'l' ∈ s := by rw [heq]; decide
  rcases h 'l' hl with hd | hd
  · cases hd
  · cases hd

theorem matchSpec_full {v : Version} (h : v.Fits) (w : Version) :
    matchSpec v.text w.x w.y w.z = true ↔ w = v := by
  have hform := ne_latest (by simp [Version.text]) (text_plain v)
  obtain ⟨x, y, z⟩ := v
  obtain ⟨a, b, c⟩ := w
  simp only [matchSpec, hform, parseVersion_text h]
  simp [and_assoc]

theorem matchSpec_line {p : Line} (h : p.Fits) (w : Version) :
    matchSpec p.text w.x w.y w.z = true ↔ p.Has w := by
  cases p with
  | major x =>
    have hform := ne_latest (s := (major x).text) toDigits_ne_nil (line_plain (.major x))
    have hint := scanInt_digits (show x < 2 ^ 31 from h) ended_nil
    rw [append_nil] at hint
    have hstr : cStr (toDigits 10 x) = toDigits 10 x := cStr_eq (line_plain (.major x))
    have hparse : parseVersion (major x).text = none := by
      simp [parseVersion, scanTwo, text, hstr, hint, scanDot]
    have hdot : '.' ∉ (major x).text := fun hmem => absurd (isDigit_of_mem hmem) (by decide)
    have hatoi : atoi (major x).text = x := by simp [atoi, text, hstr, hint]
    simp only [matchSpec, hform, hparse, hatoi]
    simp [hdot, Has]
  | minor x y =>
    have hform := ne_latest (by simp [text]) (line_plain (.minor x y))
    have htwo := scanTwo_digits h.1 h.2 ended_nil (cStr_eq (by simpa [text] using line_plain (.minor x y)))
    rw [append_nil] at htwo
    have hparse : parseVersion (minor x y).text = none := by
      simp [parseVersion, text, htwo, scanDot]
    simp only [matchSpec, hform, hparse]
    simp [text, htwo, Has]

theorem text_injective {v w : Version} (h : v.text = w.text) : v = w := by
  have hcut : ∀ {n m : Nat} {r r' : Text}, Ended r → Ended r' →
      toDigits 10 n ++ r = toDigits 10 m ++ r' → n = m ∧ r = r' := fun {n m r r'} hr hr' heq => by
    obtain ⟨htake, hdrop⟩ := span_append (fun _ => isDigit_of_mem (n := n)) hr
    obtain ⟨htake', hdrop'⟩ := span_append (fun _ => isDigit_of_mem (n := m)) hr'
    rw [heq, htake'] at htake
    rw [heq, hdrop'] at hdrop
    have hval := congrArg (fun ds => ofDigitChars 10 ds 0) htake
    simp only [ofDigitChars_ten_toDigits] at hval
    exact ⟨hval.symm, hdrop.symm⟩
  obtain ⟨hx, h⟩ := hcut (ended_dot _) (ended_dot _) h
  obtain ⟨hy, h⟩ := hcut (ended_dot _) (ended_dot _) (cons.inj h).2
  have hz := hcut ended_nil ended_nil (by simpa using (cons.inj h).2)
  cases v
  cases w
  simp_all

/-! ## 5. The condition -/

/-- One directory at most reads highest; it is the version that was asked for; and the specification is not of
    an unknown form with a dot. -/
structure Clear (spec : Text) (l : Listing) : Prop where
  one : ∀ n n', Highest spec l n → Highest spec l n' → n = n'
  full : ∀ v : Version, spec = v.text → ∀ n, Highest spec l n → n = v.text
  line : ∀ p : Line, spec = p.text → ∀ n, Highest spec l n ↔ p.Greatest l n
  known : ¬ Known spec → '.' ∉ spec ∨ (scanTwo spec).isSome = true

/-- **The choice of a version** is what it should be, in every order of the directories, exactly if the
    names and the specification are clear. -/
theorem resolves_iff (name spec pkg : Text) (l : Listing) : Resolves name spec pkg l ↔ Clear spec l := by
  constructor
  · intro h
    have hone := order_iff.mp h.order
    refine ⟨hone, fun v hv n hn => h.full v hv n ((choice_eq_some_iff hone).mpr hn), fun p hp n => ?_,
      fun hk => (matchSpec_false_iff hk).mp (h.known hk)⟩
    rw [← h.line p hp n, choice_eq_some_iff hone]
  · intro h
    refine ⟨order_iff.mpr h.one, fun v hv n hn => h.full v hv n ((choice_eq_some_iff h.one).mp hn),
      fun p hp n => ?_,
      fun hk => (matchSpec_false_iff hk).mpr (h.known hk)⟩
    rw [← h.line p hp n, choice_eq_some_iff h.one]

/-! ## 6. A registry of versions -/

/-- What the name of a version is read as. -/
def Version.read (v : Version) : ℤ ×ₗ ℤ ×ₗ ℤ := toLex ((v.x : Int), toLex ((v.y : Int), (v.z : Int)))

theorem rank_le_iff (v w : Version) : v.rank ≤ w.rank ↔ v.read ≤ w.read := by
  simp only [Version.rank, Version.read, Prod.Lex.le_iff, ofLex_toLex]
  omega

theorem scanned_text {v : Version} (h : v.Fits) : scanned spec (v.text, true) =
    if matchSpec spec v.x v.y v.z then some v.read else none := by
  simp [parseVersion_text h, Version.read]

section

variable (hdirs : ∀ n, (n, true) ∈ l.entries → ∃ v : Version, v.Fits ∧ n = v.text)
include hdirs

/-- Among versions, the one that reads highest is the greatest that matches. -/
theorem highest_iff {n : Text} :
    Highest spec l n ↔ ∃ v : Version, n = v.text ∧ (n, true) ∈ l.entries ∧ matchSpec spec v.x v.y v.z = true ∧
      ∀ w : Version, (w.text, true) ∈ l.entries → matchSpec spec w.x w.y w.z = true → w.rank ≤ v.rank := by
  have hfits : ∀ w : Version, (w.text, true) ∈ l.entries → w.Fits := fun w hw => by
    obtain ⟨v, hv, heq⟩ := hdirs _ hw
    rw [text_injective heq]
    exact hv
  constructor
  · rintro ⟨hmem, k, hk, -, htop⟩
    obtain ⟨v, hv, rfl⟩ := hdirs n hmem
    rw [scanned_text hv] at hk
    split_ifs at hk with hm
    obtain rfl := Option.some_inj.mp hk
    refine ⟨v, rfl, hmem, hm, fun w hw hmw => (rank_le_iff w v).mpr (htop _ hw _ ?_)⟩
    rw [scanned_text (hfits w hw), if_pos hmw]
  · rintro ⟨v, rfl, hmem, hm, htop⟩
    refine ⟨hmem, _, by rw [scanned_text (hfits v hmem), if_pos hm], ?_, ?_⟩
    · simp only [below, Version.read, Prod.Lex.lt_iff, ofLex_toLex]
      omega
    · rintro ⟨n, dir⟩ hb k hk
      cases dir with
      | false => simp at hk
      | true =>
        obtain ⟨w, hw, rfl⟩ := hdirs n hb
        rw [scanned_text hw] at hk
        split_ifs at hk with hmw
        rw [← Option.some_inj.mp hk]
        exact (rank_le_iff w v).mp (htop w hb hmw)

/-- Versions that rank the same are one. -/
theorem highest_unique {n n' : Text} (hn : Highest spec l n) (hn' : Highest spec l n') : n = n' := by
  obtain ⟨v, rfl, hmem, hm, htop⟩ := (highest_iff hdirs).mp hn
  obtain ⟨w, rfl, hmem', hm', htop'⟩ := (highest_iff hdirs).mp hn'
  have hrank := le_antisymm (htop' v hmem hm) (htop w hmem' hm')
  simp only [Version.rank, EmbeddingLike.apply_eq_iff_eq, Prod.mk.injEq] at hrank
  rw [show v = w from by cases v; cases w; simp_all]

/-- **A registry of versions**: where all directories are versions and the specification has a known form,
    all is clear. -/
theorem clear_of_versions
    (hfull : ∀ v : Version, spec = v.text → v.Fits) (hline : ∀ p : Line, spec = p.text → p.Fits)
    (hknown : Known spec) : Clear spec l := by
  refine ⟨fun _ _ => highest_unique hdirs, fun v hv n hn => ?_, fun p hp n => ?_, fun h => absurd hknown h⟩
  · obtain ⟨w, rfl, -, hm, -⟩ := (highest_iff hdirs).mp hn
    subst hv
    rw [(matchSpec_full (hfull v rfl) w).mp hm]
  · subst hp
    rw [highest_iff hdirs]
    simp only [matchSpec_line (hline p rfl), Greatest]

/-- **The choice** there is the version that was asked for, if it is there, and of a line the greatest. -/
theorem choice_of_versions (n : Text) :
    (∀ v : Version, v.Fits → (choice name v.text pkg l = some n ↔ n = v.text ∧ (n, true) ∈ l.entries)) ∧
      ∀ p : Line, p.Fits → (choice name p.text pkg l = some n ↔ p.Greatest l n) := by
  constructor
  · intro v hv
    rw [choice_eq_some_iff fun _ _ => highest_unique hdirs, highest_iff hdirs]
    simp only [matchSpec_full hv]
    constructor
    · rintro ⟨_, rfl, hmem, rfl, -⟩
      exact ⟨rfl, hmem⟩
    · rintro ⟨rfl, hmem⟩
      exact ⟨v, rfl, hmem, rfl, fun w _ hw => hw ▸ le_rfl⟩
  · intro p hp
    rw [choice_eq_some_iff fun _ _ => highest_unique hdirs, highest_iff hdirs]
    simp only [matchSpec_line hp, Greatest]

end

/-- Two versions of one line. -/
def nineAndTen : Listing := ⟨[("1.9.0".toList, true), ("1.10.0".toList, true)], by decide⟩

theorem choice_of_versions_ten : (major 1).Greatest nineAndTen "1.10.0".toList := by
  have hdirs : ∀ n, (n, true) ∈ nineAndTen.entries → ∃ v : Version, v.Fits ∧ n = v.text := by
    intro n hn
    simp only [nineAndTen, mem_cons, Prod.mk.injEq, and_true, not_mem_nil, or_false] at hn
    rcases hn with rfl | rfl
    · exact ⟨⟨1, 9, 0⟩, by simp [Version.Fits], by decide⟩
    · exact ⟨⟨1, 10, 0⟩, by simp [Version.Fits], by decide⟩
  have hten : choice [] (major 1).text [] nineAndTen = some "1.10.0".toList := by decide +kernel
  exact ((choice_of_versions hdirs _).2 (major 1) (by simp [Line.Fits])).mp hten

/-! ## 7. Choices that are not the version asked for -/

/-- For `1.2` the choice between `1.2.3` and `01.2.3` is left to the order of the directories; for `1.2.3` a
    pre-release is taken; and `1.x` is taken for every version. -/
theorem lenient_choices :
    choice "p".toList "1.2".toList "r/p".toList ⟨[("1.2.3".toList, true), ("01.2.3".toList, true)], by decide⟩ =
        some "1.2.3".toList ∧
      choice "p".toList "1.2".toList "r/p".toList ⟨[("01.2.3".toList, true), ("1.2.3".toList, true)], by decide⟩ =
        some "01.2.3".toList ∧
      choice "p".toList "1.2.3".toList "r/p".toList ⟨[("1.2.3-beta".toList, true)], by decide⟩ =
        some "1.2.3-beta".toList ∧
      (∀ x y z, matchSpec "1.x".toList x y z = true) ∧
      ¬ Resolves "p".toList "1.2.3".toList "r/p".toList ⟨[("1.2.3-beta".toList, true)], by decide⟩ := by
  refine ⟨by decide +kernel, by decide +kernel, by decide +kernel, fun x y z => ?_, fun h => ?_⟩
  · rfl
  · have hn := h.full ⟨1, 2, 3⟩ (by decide +kernel) "1.2.3-beta".toList (by decide +kernel)
    exact absurd hn (by decide +kernel)

end Vyb.Packages
