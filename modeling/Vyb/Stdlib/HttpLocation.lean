/-
  Subject:   Where a redirect leads (`http_resolve_location`, `stdlib/http/mod.vyb`).

  The source looks for `://` anywhere in the Location, and for the first `/` and `:` behind it; directories
  are cut at the last `/` of the request path, its query included.

  * `Url`, `Rooted`, `Relative`, `merged` -- what a Location means (RFC 3986): a URL by its parts; a path from
    the root; a path to be merged with that of the request, with the dot segments in front taken away;
  * `resolve_absolute_iff`, `resolve_rooted_iff`, `resolve_relative_iff` -- each kind: exactly when the target
    is the right one;
  * **`resolveLocation_right_iff`** -- all of them together.
-/
import Vyb.Stdlib.Http

namespace Vyb.Stdlib.Http

open Lib Vyb.Runtime Str Collections List Nat

/-! ## 1. The source -/

/-- `HttpTarget` -/
structure HttpTarget where
  scheme : Str
  host : Str
  port : Int
  path : Str
  deriving Repr, DecidableEq

/-- The loop of `http_rindex_of`, over the positions below its argument. -/
def rindexLoop (s sub : Str) : Nat → Int
  | 0 => -1
  | i + 1 => if matchesAt s sub i then i else rindexLoop s sub i

/-- `http_rindex_of` -/
def httpRindexOf (s sub : Str) : Int :=
  if sub.length = 0 then -1 else rindexLoop s sub (s.length + 1 - sub.length)

/-- The target of an authority `auth`, cut at its first colon. -/
def authorityTarget (os auth path : Str) : HttpTarget :=
  let co := indexOf auth (ascii ":")
  if 0 ≤ co then ⟨os, auth.substring 0 co, httpParseInt (auth.suffix (co + 1)), path⟩
  else ⟨os, auth, if os = ascii "https" then 443 else 80, path⟩

/-- The target with an authority of its own: `b` is what stands behind the `//`. -/
def withAuthority (os b : Str) : HttpTarget :=
  let si := indexOf b (ascii "/")
  if 0 ≤ si then authorityTarget os (b.substring 0 si) (b.suffix si) else authorityTarget os b (ascii "/")

/-- `while (b.index_of("./") == 0) { b = b.substring(2) }`; every round takes two bytes. -/
def stripDots : Nat → Str → Str
  | 0, b => b
  | fuel + 1, b => if indexOf b (ascii "./") = 0 then stripDots fuel (b.suffix 2) else b

/-- The directory that the loop over `../` begins with. -/
def dirOf (path : Str) : Str :=
  let lastSlash := httpRindexOf path (ascii "/")
  if 0 ≤ lastSlash then
    let dir := path.substring 0 (lastSlash + 1)
    if dir.length = 0 then ascii "/" else dir
  else ascii "/"

/-- What one round makes of the directory. -/
def parentDir (dir : Str) : Str :=
  if dir = ascii "/" then dir
  else
    let r1 := httpRindexOf dir (ascii "/")
    let first := dir.substring 0 r1
    let r2 := httpRindexOf first (ascii "/")
    if 0 < r2 then first.substring 0 (r2 + 1) else ascii "/"

/-- `while (b.index_of("../") == 0) { … }` -/
def stripParents : Nat → Str → Str → Str × Str
  | 0, dir, b => (dir, b)
  | fuel + 1, dir, b =>
    if indexOf b (ascii "../") = 0 then stripParents fuel (parentDir dir) (b.suffix 3) else (dir, b)

/-- `http_resolve_location` -/
def httpResolveLocation (loc0 scheme host : Str) (port : Int) (path : Str) : HttpTarget :=
  let lv := trim loc0
  let sp := indexOf lv (ascii "://")
  if 0 ≤ sp then withAuthority (lv.substring 0 sp) (lv.suffix (sp + 3))
  else if indexOf lv (ascii "//") = 0 then withAuthority scheme (lv.suffix 2)
  else if indexOf lv (ascii "/") = 0 then ⟨scheme, host, port, lv⟩
  else
    let b := stripDots lv.length lv
    let r := stripParents b.length (dirOf path) b
    ⟨scheme, host, port, r.1 ++ r.2⟩

/-! ## 2. What a Location means -/

def isAlpha (b : UInt8) : Bool := (65 ≤ b && b ≤ 90) || (97 ≤ b && b ≤ 122)

/-- The bytes of a scheme: letters, digits, `+`, `-`, `.`. -/
def isSchemeByte (b : UInt8) : Bool := isAlpha b || (decValue b).isSome || b == 43 || b == 45 || b == 46

/-- `/`, `?` and `#` end an authority. -/
def endsAuthority (b : UInt8) : Bool := b == 47 || b == 63 || b == 35

/-- A URL with an authority, by its parts. -/
structure Url where
  scheme : Str
  userinfo : Option Str
  host : Str
  port : Option Str
  /-- Path, query and fragment. -/
  tail : Str
  scheme_first : ∃ b, scheme.head? = some b ∧ isAlpha b = true
  scheme_bytes : ∀ b ∈ scheme, isSchemeByte b = true
  userinfo_bytes : ∀ u, userinfo = some u → ∀ b ∈ u, endsAuthority b = false ∧ b ≠ 64
  host_bytes : ∀ b ∈ host, endsAuthority b = false ∧ b ≠ 64
  /-- Only an address in brackets has colons. -/
  host_colon : 58 ∈ host → host.head? = some 91 ∧ host.getLast? = some 93
  port_digits : ∀ p, port = some p → ∀ b ∈ p, (decValue b).isSome = true
  tail_first : ∀ b, tail.head? = some b → endsAuthority b = true

namespace Url

variable (url : Url)

def authority : Str :=
  (url.userinfo.elim [] fun u => u ++ [64]) ++ url.host ++ url.port.elim [] fun p => 58 :: p

def text : Str := url.scheme ++ ascii "://" ++ (url.authority ++ url.tail)

/-- What is asked for: an empty path is `/`. -/
def path : Str := if url.tail.head? = some 47 then url.tail else 47 :: url.tail

/-- The port of a scheme, in letters of any case, if it is known. -/
def defaultPort : Option Nat :=
  if toLower url.scheme = ascii "http" then some 80
  else if toLower url.scheme = ascii "https" then some 443
  else none

/-- The port that is written, or that of the scheme. -/
def portOf : Option Nat :=
  match url.port with
  | some (b :: p) => some (numeral 10 decValue (b :: p))
  | _ => url.defaultPort

/-- `t` has the parts of the URL. -/
def Names (t : HttpTarget) : Prop :=
  t.scheme = url.scheme ∧ t.host = url.host ∧ (∀ p : Nat, url.portOf = some p → t.port = p) ∧ t.path = url.path

end Url

/-- A Location that begins with one `/`. -/
def Rooted (l : Str) : Prop := ascii "/" <+: l ∧ ¬ ascii "//" <+: l

/-- A Location without a scheme and an authority that is not a path from the root: no `/` in front, and no
`:` in its first segment. -/
def Relative (l : Str) : Prop := ¬ ascii "/" <+: l ∧ 58 ∉ l.takeWhile fun b => !endsAuthority b

/-- A path without its query and fragment. -/
def pathPart (path : Str) : Str := path.takeWhile fun b => !(b == 63 || b == 35)

/-- The text up to its `m`-th `/`; the root where that is none. -/
def dirAt (text : Str) (m : Nat) : Str := if m = 0 then ascii "/" else upToNth 47 m text

/-- The dot segments in front: how many of them are `../`, and what follows. -/
def leading : Str → Nat × Str
  | 46 :: 47 :: l => leading l
  | 46 :: 46 :: 47 :: l => ((leading l).1 + 1, (leading l).2)
  | l => (0, l)

/-- **The merge of RFC 3986** with the dot segments in front of `l` taken away: all but the last segment of
the path, and one segment less for each `../`. -/
def merged (path l : Str) : Str :=
  dirAt (pathPart path) ((pathPart path).count 47 - (leading l).1) ++ (leading l).2

/-- The target of a request and a Location is the right one. -/
structure RightTarget (base : HttpTarget) (loc0 : Str) (t : HttpTarget) : Prop where
  absolute : ∀ url : Url, trim loc0 = url.text → url.Names t
  rooted : Rooted (trim loc0) → t = { base with path := trim loc0 }
  relative : Relative (trim loc0) → t.path.head? = some 47 ∧ t.path = merged base.path (trim loc0)

/-! ## 3. The last slash -/

variable {x : UInt8}

theorem rindexLoop_last {s : Str} {k : Nat} (hk : k < s.length) (hat : s[k] = x) :
    ∀ {n : Nat}, k < n → n ≤ s.length → (∀ j (hj : j < s.length), k < j → s[j] ≠ x) →
      rindexLoop s [x] n = k
  | 0, hkn, _, _ => nomatch hkn
  | n + 1, hkn, hn, hafter => by
    rw [rindexLoop]
    rcases eq_or_lt_of_le (le_of_lt_succ hkn) with rfl | hlt
    · rw [if_pos ((matchesAt_singleton hk).mpr hat)]
    · have hat' : ¬ matchesAt s [x] n = true := fun h =>
        hafter n (by omega) hlt ((matchesAt_singleton (by omega)).mp h)
      rw [if_neg hat']
      exact rindexLoop_last hk hat hlt (by omega) hafter

theorem rindexLoop_notMem {s : Str} (hx : x ∉ s) : ∀ {n : Nat}, n ≤ s.length →
    rindexLoop s [x] n = -1
  | 0, _ => rfl
  | n + 1, hn => by
    have hat : ¬ matchesAt s [x] n = true := fun h =>
      hx ((matchesAt_singleton (by omega)).mp h ▸ getElem_mem (by omega))
    rw [rindexLoop, if_neg hat, rindexLoop_notMem hx (by omega)]

variable {a b : Str}

theorem rindexOf_append (hb : x ∉ b) : httpRindexOf (a ++ x :: b) [x] = a.length := by
  rw [httpRindexOf, if_neg (by simp)]
  refine rindexLoop_last (by simp) (by simp) (by simp) (by simp) fun j hj hlt h => hb ?_
  rw [getElem_append_right (by omega), getElem_cons, dif_neg (by omega)] at h
  exact h ▸ getElem_mem _

theorem rindexOf_notMem {s : Str} (hx : x ∉ s) : httpRindexOf s [x] = -1 := by
  rw [httpRindexOf, if_neg (by simp)]
  exact rindexLoop_notMem hx (by simp)

/-! ## 4. Directories -/

theorem dirAt_append (a c : Str) : dirAt (a ++ 47 :: c) (a.count 47 + 1) = a ++ [47] := by
  rw [dirAt, if_neg (succ_ne_zero _), upToNth_append]

variable {text : Str} {m : Nat}

/-- A directory is the root, or it ends at a slash of the text. -/
theorem dirAt_cases (h : m ≤ text.count 47) :
    (m = 0 ∧ dirAt text m = [47]) ∨
      ∃ a c, text = a ++ 47 :: c ∧ a.count 47 + 1 = m ∧ dirAt text m = a ++ [47] := by
  cases m with
  | zero => exact .inl ⟨rfl, rfl⟩
  | succ m =>
    obtain ⟨a, c, rfl, ha⟩ := exists_nth h
    exact .inr ⟨a, c, rfl, by rw [ha], by rw [← ha, dirAt_append]⟩

theorem dirOf_append (hb : 47 ∉ b) : dirOf (a ++ 47 :: b) = a ++ [47] := by
  have hidx : httpRindexOf (a ++ 47 :: b) (ascii "/") = a.length := rindexOf_append hb
  rw [dirOf, hidx, if_pos (Int.natCast_nonneg _), substring_through, if_neg (by simp)]

theorem dirOf_notMem {s : Str} (h : 47 ∉ s) : dirOf s = [47] := by
  have hidx : httpRindexOf s (ascii "/") = -1 := rindexOf_notMem h
  rw [dirOf, hidx]
  rfl

/-- The directory of a path is at its last slash. -/
theorem dirOf_eq (path : Str) : dirOf path = dirAt path (path.count 47) := by
  by_cases hmem : (47 : UInt8) ∈ path
  · obtain ⟨a, b, rfl, hb⟩ := exists_last hmem
    have hcount : (a ++ 47 :: b).count 47 = a.count 47 + 1 := by
      rw [count_append, count_cons_self, count_eq_zero.mpr hb]
    rw [hcount, dirAt_append, dirOf_append hb]
  · rw [count_eq_zero.mpr hmem, dirOf_notMem hmem]
    rfl

theorem parentDir_eq (a : Str) : parentDir (a ++ [47]) = dirOf a := by
  by_cases hnil : a = []
  · subst hnil
    decide +kernel
  · have hne : a ++ [47] ≠ ascii "/" := by
      intro h
      exact hnil (append_cancel_right (h.trans (nil_append [47]).symm))
    have hidx : httpRindexOf (a ++ [47]) (ascii "/") = a.length := rindexOf_append not_mem_nil
    simp only [parentDir, hne, if_false, hidx, substring_left]
    by_cases hmem : (47 : UInt8) ∈ a
    · obtain ⟨a', b, rfl, hb⟩ := exists_last hmem
      have hidx' : httpRindexOf (a' ++ 47 :: b) (ascii "/") = a'.length := rindexOf_append hb
      rw [hidx', substring_through, dirOf_append hb]
      -- a slash in front only is not looked at as a directory, and gives the root as well
      cases a' with
      | nil => rfl
      | cons c a' => exact if_pos (by simp)
    · have hidx' : httpRindexOf a (ascii "/") = -1 := rindexOf_notMem hmem
      rw [hidx', dirOf_notMem hmem]
      rfl

theorem dirAt_prefix {q : Str} (h : m ≤ a.count 47) : dirAt (a ++ q) m = dirAt a m := by
  rcases dirAt_cases h with ⟨rfl, -⟩ | ⟨b, c, rfl, rfl, hdir⟩
  · rfl
  · rw [hdir, append_assoc, cons_append, dirAt_append]

section

variable (h : m ≤ text.count 47)
include h

/-- **One directory up.** -/
theorem parentDir_dirAt : parentDir (dirAt text m) = dirAt text (m - 1) := by
  rcases dirAt_cases h with ⟨rfl, -⟩ | ⟨a, c, rfl, rfl, hdir⟩
  · exact parentDir_eq []
  · rw [hdir, parentDir_eq, dirOf_eq, Nat.add_sub_cancel, dirAt_prefix (le_refl _)]

theorem count_dirAt : (dirAt text m).count 47 = max m 1 := by
  rcases dirAt_cases h with ⟨rfl, hdir⟩ | ⟨a, c, rfl, rfl, hdir⟩
  · rw [hdir]
    rfl
  · rw [hdir, count_append]
    exact (max_eq_left (le_add_left 1 _)).symm

theorem head_dirAt :
    (dirAt text m).head? = some 47 ↔ m = 0 ∨ text.head? = some 47 := by
  rcases dirAt_cases h with ⟨rfl, hdir⟩ | ⟨a, c, rfl, rfl, hdir⟩
  · simp [hdir]
  · rw [hdir]
    cases a with
    | nil | cons b a => simp

end

theorem dirAt_one (h : text.head? = some 47) : dirAt text 1 = dirAt text 0 := by
  obtain ⟨c, rfl⟩ : ∃ c, text = 47 :: c := ⟨text.tail, (cons_head?_tail h).symm⟩
  exact dirAt_append [] c

/-- Two directories of one text are the same only at the root. -/
theorem dirAt_eq_iff {n : Nat} (hmn : m ≤ n) (hn : n ≤ text.count 47) :
    dirAt text n = dirAt text m ↔ n = m ∨ (n = 1 ∧ m = 0 ∧ text.head? = some 47) := by
  constructor
  · intro h
    have hcount := congrArg (count 47) h
    rw [count_dirAt hn, count_dirAt (hmn.trans hn)] at hcount
    by_cases heq : n = m
    · exact .inl heq
    · obtain ⟨rfl, rfl⟩ : n = 1 ∧ m = 0 := by omega
      have hhead : (dirAt text 1).head? = some 47 := by rw [h]; rfl
      exact .inr ⟨rfl, rfl, ((head_dirAt hn).mp hhead).resolve_left one_ne_zero⟩
  · rintro (rfl | ⟨rfl, rfl, hhead⟩)
    · rfl
    · exact dirAt_one hhead

/-! ## 5. Dot segments -/

/-- All `./` in front taken away. -/
def dropDots : Str → Str
  | 46 :: 47 :: l => dropDots l
  | l => l

/-- All `../` in front: how many, and what follows. -/
def dropParents : Str → Nat × Str
  | 46 :: 46 :: 47 :: l => ((dropParents l).1 + 1, (dropParents l).2)
  | l => (0, l)

variable {l : Str}

theorem dots_prefix_iff : ascii "./" <+: l ↔ ∃ t, l = 46 :: 47 :: t :=
  ⟨fun ⟨t, h⟩ => ⟨t, h.symm⟩, fun ⟨t, h⟩ => ⟨t, h.symm⟩⟩

theorem parents_prefix_iff : ascii "../" <+: l ↔ ∃ t, l = 46 :: 46 :: 47 :: t :=
  ⟨fun ⟨t, h⟩ => ⟨t, h.symm⟩, fun ⟨t, h⟩ => ⟨t, h.symm⟩⟩

theorem dropDots_of_not (h : ¬ ascii "./" <+: l) : dropDots l = l := by
  unfold dropDots
  split
  · rename_i t
    exact absurd (dots_prefix_iff.mpr ⟨t, rfl⟩) h
  · rfl

theorem dropParents_of_not (h : ¬ ascii "../" <+: l) : dropParents l = (0, l) := by
  unfold dropParents
  split
  · rename_i t
    exact absurd (parents_prefix_iff.mpr ⟨t, rfl⟩) h
  · rfl

theorem leading_of_not (hd : ¬ ascii "./" <+: l) (hp : ¬ ascii "../" <+: l) : leading l = (0, l) := by
  unfold leading
  split
  · rename_i t
    exact absurd (dots_prefix_iff.mpr ⟨t, rfl⟩) hd
  · rename_i t
    exact absurd (parents_prefix_iff.mpr ⟨t, rfl⟩) hp
  · rfl

theorem stripDots_eq : ∀ {fuel : Nat} {b : Str}, b.length ≤ fuel → stripDots fuel b = dropDots b
  | 0, b, h => by
    obtain rfl := length_eq_zero_iff.mp (le_zero.mp h)
    rfl
  | fuel + 1, b, h => by
    rw [stripDots]
    by_cases hp : ascii "./" <+: b
    · rw [if_pos ((indexOf_eq_zero_iff (by decide)).mpr hp)]
      obtain ⟨t, rfl⟩ := dots_prefix_iff.mp hp
      have hsuffix : Str.suffix (46 :: 47 :: t) 2 = t := suffix_right [46, 47] t
      rw [hsuffix, dropDots]
      exact stripDots_eq (by simp only [length_cons] at h; omega)
    · rw [if_neg fun h0 => hp ((indexOf_eq_zero_iff (by decide)).mp h0), dropDots_of_not hp]

/-- The second loop: as many directories up as there are `../`. -/
theorem stripParents_eq {text : Str} : ∀ {fuel m : Nat} {b : Str}, b.length ≤ fuel → m ≤ text.count 47 →
    stripParents fuel (dirAt text m) b = (dirAt text (m - (dropParents b).1), (dropParents b).2)
  | 0, m, b, h, _ => by
    obtain rfl := length_eq_zero_iff.mp (le_zero.mp h)
    rfl
  | fuel + 1, m, b, h, hm => by
    rw [stripParents]
    by_cases hp : ascii "../" <+: b
    · rw [if_pos ((indexOf_eq_zero_iff (by decide)).mpr hp)]
      obtain ⟨t, rfl⟩ := parents_prefix_iff.mp hp
      have hsuffix : Str.suffix (46 :: 46 :: 47 :: t) 3 = t := suffix_right [46, 46, 47] t
      have ih := @stripParents_eq text fuel (m - 1) t (by simp only [length_cons] at h; omega) (by omega)
      rw [hsuffix, parentDir_dirAt hm, ih, dropParents, Nat.sub_sub, Nat.add_comm 1]
    · rw [if_neg fun h0 => hp ((indexOf_eq_zero_iff (by decide)).mp h0), dropParents_of_not hp, Nat.sub_zero]

theorem leading_dropDots (l : Str) : leading (dropDots l) = leading l := by
  fun_induction dropDots l with
  | case1 l ih => rw [ih, leading]
  | case2 l _ => rfl

theorem leading_dropParents (l : Str) :
    leading l = ((dropParents l).1 + (leading (dropParents l).2).1, (leading (dropParents l).2).2) := by
  fun_induction dropParents l with
  | case1 l ih =>
    rw [leading, ih]
    exact Prod.ext (by simp only; omega) rfl
  | case2 l _ => exact Prod.ext (zero_add _).symm rfl

theorem dropParents_not_prefix (l : Str) : ¬ ascii "../" <+: (dropParents l).2 := by
  fun_induction dropParents l with
  | case1 l ih => exact ih
  | case2 l h =>
    intro hp
    obtain ⟨t, rfl⟩ := parents_prefix_iff.mp hp
    exact h t rfl

/-- What is taken away in front are dots and slashes. -/
theorem leading_split (l : Str) : ∃ mix, l = mix ++ (leading l).2 ∧ (∀ b ∈ mix, b = 46 ∨ b = 47) ∧
    (ascii "./" <+: l → 0 < mix.count 47) := by
  fun_induction leading l with
  | case1 l ih =>
    obtain ⟨mix, hl, hbytes, -⟩ := ih
    refine ⟨46 :: 47 :: mix, congrArg (fun t => 46 :: 47 :: t) hl, ?_, fun _ => by simp⟩
    simpa using hbytes
  | case2 l ih =>
    obtain ⟨mix, hl, hbytes, -⟩ := ih
    refine ⟨46 :: 46 :: 47 :: mix, congrArg (fun t => 46 :: 46 :: 47 :: t) hl, ?_, fun _ => by simp⟩
    simpa using hbytes
  | case3 l hd _ =>
    refine ⟨[], rfl, by simp, fun hp => ?_⟩
    obtain ⟨t, rfl⟩ := dots_prefix_iff.mp hp
    exact absurd rfl (hd t)

/-! ## 6. Authorities -/

theorem authorityTarget_path (os auth path : Str) : (authorityTarget os auth path).path = path := by
  unfold authorityTarget
  simp only
  split <;> rfl

/-- Behind the first slash stands the path, -/
theorem withAuthority_slash {os t : Str} (ha : 47 ∉ a) :
    withAuthority os (a ++ 47 :: t) = authorityTarget os a (47 :: t) := by
  have hidx : indexOf (a ++ 47 :: t) (ascii "/") = a.length := indexOf_singleton ha
  rw [withAuthority, hidx, if_pos (Int.natCast_nonneg _), substring_left, suffix_right]

/-- and without one it is the root. -/
theorem withAuthority_notMem {os : Str} (ha : 47 ∉ a) : withAuthority os a = authorityTarget os a [47] := by
  have hidx : indexOf a (ascii "/") = -1 := indexOf_notMem ha
  rw [withAuthority, hidx]
  rfl

/-- The path of a target with an authority is not longer than what follows the authority. -/
theorem withAuthority_path (os : Str) {t : Str} (ha : 47 ∉ a) :
    (withAuthority os (a ++ t)).path = [47] ∨ (withAuthority os (a ++ t)).path <:+ t := by
  by_cases ht : (47 : UInt8) ∈ t
  · obtain ⟨u, v, rfl, hu⟩ := eq_append_cons_of_mem ht
    have hau : (47 : UInt8) ∉ a ++ u := by
      rw [mem_append]
      exact fun h => h.elim ha hu
    right
    rw [← append_assoc, withAuthority_slash hau, authorityTarget_path]
    exact suffix_append u _
  · have hat : (47 : UInt8) ∉ a ++ t := by
      rw [mem_append]
      exact fun h => h.elim ha ht
    left
    rw [withAuthority_notMem hat, authorityTarget_path]

/-- The host that is read off an authority. -/
def readHost (auth : Str) : Str := takeUntil 58 auth

/-- The port: the number behind the first colon, or that of the scheme. -/
def readPort (os auth : Str) : Int :=
  if 58 ∈ auth then httpParseInt (auth.dropWhile (· ≠ 58)).tail
  else if os = ascii "https" then 443 else 80

theorem authorityTarget_eq (os auth path : Str) :
    authorityTarget os auth path = ⟨os, readHost auth, readPort os auth, path⟩ := by
  by_cases hcolon : (58 : UInt8) ∈ auth
  · obtain ⟨u, v, rfl, hu⟩ := eq_append_cons_of_mem hcolon
    have hidx : indexOf (u ++ 58 :: v) (ascii ":") = u.length := indexOf_singleton hu
    rw [authorityTarget, hidx, if_pos (Int.natCast_nonneg _), substring_left, suffix_behind, readHost,
      readPort, if_pos hcolon, (takeUntil_append hu).1, (takeUntil_append hu).2, tail_cons]
  · have hidx : indexOf auth (ascii ":") = -1 := indexOf_notMem hcolon
    rw [authorityTarget, hidx, if_neg (by decide), readHost, takeUntil_notMem hcolon, readPort, if_neg hcolon]

/-! ## 7. Absolute Locations -/

namespace Url

variable (url : Url)

/-- The authority is followed by a path or by nothing, its first colon is the one before the port, and the
number there is the port. -/
def Clear : Prop :=
  (url.tail = [] ∨ url.tail.head? = some 47) ∧ readHost url.authority = url.host ∧
    ∀ p : Nat, url.portOf = some p → readPort url.scheme url.authority = p

theorem slash_notMem_authority : 47 ∉ url.authority := by
  intro h
  rw [authority, mem_append, mem_append] at h
  rcases h with (h | h) | h
  · cases hu : url.userinfo with
    | none => simp [hu] at h
    | some u =>
      rcases mem_append.mp (by simpa only [hu, Option.elim_some] using h) with h | h
      · exact absurd (url.userinfo_bytes u hu 47 h).1 (by decide)
      · exact absurd (mem_singleton.mp h) (by decide)
  · exact absurd (url.host_bytes 47 h).1 (by decide)
  · cases hp : url.port with
    | none => simp [hp] at h
    | some p =>
      rcases mem_cons.mp (by simpa only [hp, Option.elim_some] using h) with h | h
      · cases h
      · exact absurd (url.port_digits p hp 47 h) (by decide)

theorem colon_notMem_scheme : 58 ∉ url.scheme := fun h => absurd (url.scheme_bytes 58 h) (by decide)

/-- A URL without a user, with a name for its host and a port that fits, is clear. -/
theorem clear_of_plain (htail : url.tail = [] ∨ url.tail.head? = some 47) (huser : url.userinfo = none)
    (hhost : 58 ∉ url.host) (hport : ∀ p, url.port = some p → p ≠ [] ∧ numeral 10 decValue p < 2 ^ 63)
    (hscheme : url.port = none → toLower url.scheme = ascii "https" → url.scheme = ascii "https") :
    url.Clear := by
  refine ⟨htail, ?_⟩
  cases hp : url.port with
  | none =>
    have hauth : url.authority = url.host := by simp [authority, huser, hp]
    rw [hauth]
    refine ⟨takeUntil_notMem hhost, fun p hport => ?_⟩
    rw [portOf, hp, defaultPort] at hport
    rw [readPort, if_neg hhost]
    split_ifs at hport with h80 h443
    · cases hport
      rw [if_neg fun h => absurd (h ▸ h80) (by decide +kernel)]
      rfl
    · cases hport
      rw [if_pos (hscheme hp h443)]
      rfl
  | some p =>
    obtain ⟨hne, hfits⟩ := hport p hp
    have hauth : url.authority = url.host ++ 58 :: p := by simp [authority, huser, hp]
    obtain ⟨d, q, rfl⟩ := exists_cons_of_ne_nil hne
    rw [hauth, readHost, (takeUntil_append hhost).1, readPort, if_pos (by simp), (takeUntil_append hhost).2,
      tail_cons, portOf, hp]
    refine ⟨rfl, fun n hn => ?_⟩
    rw [httpParseInt_eq, wrap64_natCast hfits, Option.some.inj hn]

end Url

section Resolve

variable {loc0 : Str} {base : HttpTarget}

/-- A Location with `://` in it is taken for a URL. -/
theorem resolve_of_index (h : trim loc0 = a ++ ascii "://" ++ b)
    (hidx : indexOf (trim loc0) (ascii "://") = a.length) :
    httpResolveLocation loc0 base.scheme base.host base.port base.path = withAuthority a b := by
  have hsub : (trim loc0).substring 0 a.length = a := by
    rw [h, append_assoc]
    exact substring_left a _
  have hsuffix : (trim loc0).suffix ((a.length : Int) + 3) = b := by
    have hlen : ((a ++ ascii "://").length : Int) = a.length + 3 := by
      rw [length_append]
      rfl
    rw [← hlen, h]
    exact suffix_right _ b
  rw [httpResolveLocation, hidx, if_pos (Int.natCast_nonneg _), hsub, hsuffix]

theorem resolve_path_lt (base : HttpTarget) (h : ascii "://" <:+: trim loc0) :
    ∃ a b, trim loc0 = a ++ ascii "://" ++ b ∧
      (httpResolveLocation loc0 base.scheme base.host base.port base.path).path.length ≤ b.length + 1 := by
  rcases @indexOf_cases (trim loc0) (ascii "://") (by decide) with ⟨-, hno⟩ | ⟨a, b, hs, hidx, -⟩
  · exact absurd h hno
  · refine ⟨a, b, hs, ?_⟩
    rw [resolve_of_index hs hidx]
    rcases withAuthority_path a (t := b) not_mem_nil with hp | hp
    · rw [nil_append] at hp
      rw [hp, length_singleton]
      omega
    · exact hp.length_le.trans (le_succ _)

/-- **A URL yields its own parts** exactly if it is clear. -/
theorem resolve_absolute_iff (url : Url) (h : trim loc0 = url.text) :
    url.Names (httpResolveLocation loc0 base.scheme base.host base.port base.path) ↔ url.Clear := by
  have hidx : indexOf (trim loc0) (ascii "://") = url.scheme.length := by
    rw [h]
    exact indexOf_append url.colon_notMem_scheme rfl
  rw [resolve_of_index h hidx]
  have hslash := url.slash_notMem_authority
  by_cases htail : url.tail = [] ∨ url.tail.head? = some 47
  · have htarget : withAuthority url.scheme (url.authority ++ url.tail) =
        ⟨url.scheme, readHost url.authority, readPort url.scheme url.authority, url.path⟩ := by
      rcases htail with hnil | hhead
      · rw [Url.path, hnil, append_nil, withAuthority_notMem hslash, authorityTarget_eq]
        rfl
      · obtain ⟨t, ht⟩ : ∃ t, url.tail = 47 :: t := ⟨url.tail.tail, (cons_head?_tail hhead).symm⟩
        rw [Url.path, if_pos hhead, ht, withAuthority_slash hslash, authorityTarget_eq]
    rw [htarget]
    exact ⟨fun hn => ⟨htail, hn.2.1, hn.2.2.1⟩, fun hc => ⟨rfl, hc.2.1, hc.2.2, rfl⟩⟩
  · -- a query or a fragment right behind the authority is taken for a part of it
    refine iff_of_false (fun hn => ?_) fun hc => htail hc.1
    have hne : url.tail ≠ [] := fun hnil => htail (.inl hnil)
    have hpath : (withAuthority url.scheme (url.authority ++ url.tail)).path = 47 :: url.tail := by
      rw [hn.2.2.2, Url.path, if_neg fun hh => htail (.inr hh)]
    rcases withAuthority_path url.scheme (t := url.tail) hslash with h1 | h1
    · rw [hpath] at h1
      exact hne (cons.inj h1).2
    · rw [hpath] at h1
      have hlen := h1.length_le
      rw [length_cons] at hlen
      omega

/-! ## 8. Paths -/

theorem not_infix_index (h : ¬ ascii "://" <:+: trim loc0) :
    ¬ 0 ≤ indexOf (trim loc0) (ascii "://") := fun h0 => h ((indexOf_nonneg_iff (by decide)).mp h0)

/-- **A path from the root** is kept exactly if there is no `://` in it. -/
theorem resolve_rooted_iff (h : Rooted (trim loc0)) :
    httpResolveLocation loc0 base.scheme base.host base.port base.path = { base with path := trim loc0 } ↔
      ¬ ascii "://" <:+: trim loc0 := by
  constructor
  · intro heq hin
    obtain ⟨a, b, hs, hle⟩ := resolve_path_lt base hin
    rw [heq, hs, length_append, length_append] at hle
    have hlen : (ascii "://").length = 3 := rfl
    omega
  · intro hin
    rw [httpResolveLocation, if_neg (not_infix_index hin),
      if_neg fun h0 => h.2 ((indexOf_eq_zero_iff (by decide)).mp h0),
      if_pos ((indexOf_eq_zero_iff (by decide)).mpr h.1)]

/-- What a path to be merged becomes. -/
theorem resolve_relative (h : Relative (trim loc0)) (hin : ¬ ascii "://" <:+: trim loc0) :
    httpResolveLocation loc0 base.scheme base.host base.port base.path =
      ⟨base.scheme, base.host, base.port,
        dirAt base.path (base.path.count 47 - (dropParents (dropDots (trim loc0))).1) ++
          (dropParents (dropDots (trim loc0))).2⟩ := by
  have hslash : ¬ ascii "//" <+: trim loc0 := fun hp => h.1 (IsPrefix.trans ⟨ascii "/", rfl⟩ hp)
  rw [httpResolveLocation, if_neg (not_infix_index hin),
    if_neg fun h0 => hslash ((indexOf_eq_zero_iff (by decide)).mp h0),
    if_neg fun h0 => h.1 ((indexOf_eq_zero_iff (by decide)).mp h0),
    stripDots_eq (le_refl _), dirOf_eq]
  dsimp only
  rw [stripParents_eq (le_refl _) (le_refl _)]

/-- The directory of the whole text is that of the path: the query has no slash, or there are enough `../` to
come to the root. -/
def DirClear (path : Str) (k : Nat) : Prop :=
  path.count 47 ≤ k ∨ path.head? = some 47 ∧
    (47 ∉ (path.dropWhile fun b => !(b == 63 || b == 35)) ∨ path.count 47 ≤ k + 1)

theorem dirClear_iff {path : Str} {k : Nat} :
    (dirAt path (path.count 47 - k)).head? = some 47 ∧
      dirAt path (path.count 47 - k) = dirAt (pathPart path) ((pathPart path).count 47 - k) ↔
    DirClear path k := by
  have hsplit : path = pathPart path ++ path.dropWhile fun b => !(b == 63 || b == 35) :=
    takeWhile_append_dropWhile.symm
  have hcount : path.count 47 = (pathPart path).count 47 +
      (path.dropWhile fun b => !(b == 63 || b == 35)).count 47 := by
    conv_lhs => rw [hsplit]
    exact count_append
  have hpart : dirAt (pathPart path) ((pathPart path).count 47 - k) =
      dirAt path ((pathPart path).count 47 - k) := by
    have h := dirAt_prefix (q := path.dropWhile fun b => !(b == 63 || b == 35))
      (sub_le ((pathPart path).count 47) k)
    rw [← hsplit] at h
    exact h.symm
  have hquery : (47 ∉ path.dropWhile fun b => !(b == 63 || b == 35)) ↔
      path.count 47 = (pathPart path).count 47 := by
    rw [← count_eq_zero]
    omega
  rw [hpart, head_dirAt (sub_le _ _), dirAt_eq_iff (by omega) (sub_le _ _), DirClear, hquery]
  constructor
  · rintro ⟨hzero | hhead, heq⟩
    · exact .inl (by omega)
    · by_cases hk : path.count 47 ≤ k
      · exact .inl hk
      · refine .inr ⟨hhead, ?_⟩
        rcases heq with heq | ⟨hone, -, -⟩
        · exact .inl (by omega)
        · exact .inr (by omega)
  · rintro (hk | ⟨hhead, hq | hk⟩)
    · exact ⟨.inl (by omega), .inl (by omega)⟩
    · exact ⟨.inr hhead, .inl (by rw [hq])⟩
    · refine ⟨.inr hhead, ?_⟩
      by_cases heq : path.count 47 - k = (pathPart path).count 47 - k
      · exact .inl heq
      · exact .inr ⟨by omega, by omega, hhead⟩

/-- A `://` stands behind the dot segments. -/
theorem length_leading_lt (h : l = a ++ ascii "://" ++ b) : b.length + 3 ≤ (leading l).2.length := by
  obtain ⟨mix, hl, hbytes, -⟩ := leading_split l
  have hboth : mix ++ (leading l).2 = a ++ 58 :: 47 :: 47 :: b := by
    rw [← hl, h, append_assoc]
    rfl
  rcases append_eq_append_iff.mp hboth with ⟨c, -, hrest⟩ | ⟨c, hmix, hrest⟩
  · rw [hrest]
    simp
  · cases c with
    | nil =>
      rw [nil_append] at hrest
      rw [← hrest]
      simp
    | cons d c =>
      -- the colon would be one of the dots and slashes
      have hd : d = 58 := (cons.inj hrest).1.symm
      have hmem : d ∈ mix := by rw [hmix]; simp
      rcases hbytes d hmem with h' | h' <;> exact absurd (hd ▸ h') (by decide)

/-- The dots of a Location that can be followed. -/
def RelativeClear (path l : Str) : Prop :=
  ¬ ascii "://" <:+: l ∧ ¬ ascii "./" <+: (dropParents (dropDots l)).2 ∧
    DirClear path (dropParents (dropDots l)).1

/-- **A path to be merged** is merged rightly exactly if it is clear. -/
theorem resolve_relative_iff (h : Relative (trim loc0)) :
    (httpResolveLocation loc0 base.scheme base.host base.port base.path).path.head? = some 47 ∧
      (httpResolveLocation loc0 base.scheme base.host base.port base.path).path =
        merged base.path (trim loc0) ↔
    RelativeClear base.path (trim loc0) := by
  by_cases hin : ascii "://" <:+: trim loc0
  · refine iff_of_false ?_ fun hc => hc.1 hin
    rintro ⟨-, heq⟩
    obtain ⟨a, b, hs, hle⟩ := resolve_path_lt base hin
    have hlong := length_leading_lt hs
    rw [heq, merged, length_append] at hle
    omega
  · rw [resolve_relative h hin]
    generalize hk : dropParents (dropDots (trim loc0)) = r
    have hnot : ¬ ascii "../" <+: r.2 := hk ▸ dropParents_not_prefix _
    have hlead : leading (trim loc0) = (r.1 + (leading r.2).1, (leading r.2).2) := by
      rw [← leading_dropDots, leading_dropParents, hk]
    rw [merged, hlead, RelativeClear, hk]
    have hdirPos : dirAt base.path (base.path.count 47 - r.1) ≠ [] := by
      intro hnil
      have hcount := count_dirAt (sub_le (base.path.count 47) r.1)
      rw [hnil, count_nil] at hcount
      omega
    by_cases hdots : ascii "./" <+: r.2
    · -- what was left in front has a slash more than the directories can make up for
      refine iff_of_false ?_ fun hc => hc.2.1 hdots
      rintro ⟨-, heq⟩
      obtain ⟨mix, hr, -, hmix⟩ := leading_split r.2
      have hmixPos := hmix hdots
      have hpart : (pathPart base.path).count 47 ≤ base.path.count 47 :=
        (takeWhile_sublist _).count_le 47
      have hcount := congrArg (count 47) heq
      simp only [count_append, count_dirAt (sub_le _ _)] at hcount
      have hrest := congrArg (count 47) hr
      rw [count_append] at hrest
      omega
    · rw [leading_of_not hdots hnot, add_zero]
      simp only [head?_append_of_ne_nil _ hdirPos, append_left_inj]
      rw [dirClear_iff]
      exact ⟨fun hc => ⟨hin, hdots, hc⟩, fun hc => hc.2.2⟩

/-! ## 9. All Locations -/

/-- What a Location must be like. -/
structure ClearLocation (base : HttpTarget) (loc0 : Str) : Prop where
  absolute : ∀ url : Url, trim loc0 = url.text → url.Clear
  rooted : Rooted (trim loc0) → ¬ ascii "://" <:+: trim loc0
  relative : Relative (trim loc0) → RelativeClear base.path (trim loc0)

end Resolve

/-- **Where a redirect leads is right exactly for a clear Location.** -/
theorem resolveLocation_right_iff (base : HttpTarget) (loc0 : Str) :
    RightTarget base loc0 (httpResolveLocation loc0 base.scheme base.host base.port base.path) ↔
      ClearLocation base loc0 := by
  constructor
  · intro h
    exact ⟨fun url hu => (resolve_absolute_iff url hu).mp (h.absolute url hu),
      fun hr => (resolve_rooted_iff hr).mp (h.rooted hr),
      fun hr => (resolve_relative_iff hr).mp (h.relative hr)⟩
  · intro h
    exact ⟨fun url hu => (resolve_absolute_iff url hu).mpr (h.absolute url hu),
      fun hr => (resolve_rooted_iff hr).mpr (h.rooted hr),
      fun hr => (resolve_relative_iff hr).mpr (h.relative hr)⟩

/-- A query that names a URL, dots behind dots, a slash in the query of the request, and a scheme in
capitals: none of them leads to the right place. -/
theorem wrong_targets :
    ¬ RightTarget ⟨ascii "https", ascii "a.example", 443, ascii "/x/y"⟩ (ascii "/login?next=http://b.example/")
        (httpResolveLocation (ascii "/login?next=http://b.example/") (ascii "https") (ascii "a.example") 443
          (ascii "/x/y")) ∧
      ¬ RightTarget ⟨ascii "https", ascii "a.example", 443, ascii "/x/y"⟩ (ascii ".././z")
        (httpResolveLocation (ascii ".././z") (ascii "https") (ascii "a.example") 443 (ascii "/x/y")) ∧
      ¬ RightTarget ⟨ascii "https", ascii "a.example", 443, ascii "/x?q=/y"⟩ (ascii "z")
        (httpResolveLocation (ascii "z") (ascii "https") (ascii "a.example") 443 (ascii "/x?q=/y")) ∧
      ¬ RightTarget ⟨ascii "https", ascii "a.example", 443, ascii "/x/y"⟩ (ascii "HTTPS://b.example/z")
        (httpResolveLocation (ascii "HTTPS://b.example/z") (ascii "https") (ascii "a.example") 443
          (ascii "/x/y")) := by
  refine ⟨fun h => ?_, fun h => ?_, fun h => ?_, fun h => ?_⟩
  · exact absurd (h.rooted ⟨by decide +kernel, by decide +kernel⟩) (by decide +kernel)
  · exact absurd (h.relative ⟨by decide +kernel, by decide +kernel⟩).2 (by decide +kernel)
  · exact absurd (h.relative ⟨by decide +kernel, by decide +kernel⟩).2 (by decide +kernel)
  · have hnames := h.absolute
      { scheme := ascii "HTTPS", userinfo := none, host := ascii "b.example", port := none, tail := ascii "/z"
        scheme_first := ⟨72, by decide +kernel, by decide +kernel⟩, scheme_bytes := by decide +kernel
        userinfo_bytes := by simp, host_bytes := by decide +kernel, host_colon := by decide +kernel
        port_digits := by simp, tail_first := fun b hb => by cases hb; rfl } (by decide +kernel)
    exact absurd (hnames.2.2.1 443 (by decide +kernel)) (by decide +kernel)

end Vyb.Stdlib.Http
