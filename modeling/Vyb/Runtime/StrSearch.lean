/-
  Subject:   `contains`, `replace` and `format` (`handleStringContains`, `__vyb_string_replace`,
             `__vyb_string_format`).

  A String is a length and a data pointer, but the three operations hand pointers to functions on C strings:
  what stands behind a zero byte is not seen, and the null pointer, which is what a `substring` out of bounds
  returns for the empty String, is undefined for `strstr` and no argument at all for the two helpers.

  * `operands_spec` -- what a helper gets for a String: a null pointer for a `substring` out of bounds, else its
    bytes and a NUL;
  * `contains_exact`, `replace_exact`, `format_exact` -- the operations on ordinary Strings, which are not null
    and have no zero byte;
  * **`byteExact_iff`** -- with ordinary Strings for the others a String is handled byte by byte, in every
    place of the three operations, exactly if it is ordinary itself;
  * `search_not_byte_exact` -- what becomes of the others.
-/
import Vyb.Lib.Substitute
import Vyb.Lib.While
import Vyb.Runtime.StrHeap

namespace Vyb.Runtime

open Lib Fueled List Matcher StrExpr
open Option (bind_eq_bind bind_some)

/-! ## 1. What a helper gets -/

/-- The data pointer and the length of a String; no data is the null pointer. -/
structure Operand where
  data : Option Str
  len : Nat
  deriving DecidableEq, Repr

/-- The two fields of a String; a pointer to a buffer that is gone is not read. -/
def Heap.operand (h : Heap) (v : FileStr) : Option Operand :=
  if v.ptr = 0 then some ⟨none, v.len.toNat⟩ else (h.bufferAt v.ptr).map fun b => ⟨some b.bytes, v.len.toNat⟩

/-- Receiver and arguments, from the left to the right. -/
def evalAll : List StrExpr → Heap → Option (Heap × List FileStr)
  | [], h => some (h, [])
  | e :: es, h => do
    let (h, v) ← e.eval h
    let (h, vs) ← evalAll es h
    some (h, v :: vs)

def operands (es : List StrExpr) (h : Heap) : Option (List Operand) := do
  let (h, vs) ← evalAll es h
  vs.mapM h.operand

/-! ## 2. The operations -/

/-- What `strlen`, `strstr` and `memcpy` over a `strlen` see of a buffer. -/
def cstr (buf : Str) : Str := buf.takeWhile (· ≠ 0)

/-- `strstr(hay + p, needle)`, as an offset. -/
def strstr (hay needle : Str) (p : Nat) : Option Nat := ((occurrences hay needle).find p).map Prod.fst

/-- `handleStringContains`; a null pointer is undefined. -/
def containsCode (s t : Operand) : Option Bool := do
  let data ← s.data
  let substringData ← t.data
  some (strstr (cstr data) (cstr substringData) 0).isSome

def containsCall (s t : StrExpr) (h : Heap) : Option Bool :=
  match operands [s, t] h with
  | some [s, t] => containsCode s t
  | _ => none

/-- `while ((p = strstr(p, old_s)) != nullptr) { ++count; p += old_len; }` -/
def countRound (hay old : Str) (st : Nat × Nat) : Fueled ((Nat × Nat) ⊕ Nat) :=
  pure (match strstr hay old st.1 with
    | some found => .inl (found + old.length, st.2 + 1)
    | none => .inr st.2)

/-- The loop of the second pass: `p` and what has been written to `dst`. -/
def buildRound (hay old new : Str) (st : Nat × Str) : Fueled ((Nat × Str) ⊕ (Nat × Str)) :=
  pure (match strstr hay old st.1 with
    | some found =>
      .inl (found + old.length, st.2 ++ ((hay.drop st.1).take (found - st.1) ++ new))
    | none => .inr st)

/-- **`__vyb_string_replace`**: the bytes that are written, and `*out_len`. `size_t` wraps; writing more than
    was asked of `malloc` is undefined. -/
def stringReplace (src : Option Str) (srcLen : Nat) (oldS newS : Option Str) : Fueled (Option (Str × Int)) :=
  match src, oldS, newS with
  | some src, some oldS, some newS => do
    let old := cstr oldS
    let new := cstr newS
    if old.length = 0 then pure (some (src.take srcLen, srcLen))
    else do
      let count ← loop (countRound (cstr src) old) (0, 0)
      let resultLen : Int := (srcLen + count * ((new.length : Int) - old.length)) % 2 ^ 64
      let (p, dst) ← loop (buildRound (cstr src) old new) (0, [])
      let dst := dst ++ (src.drop p).take (srcLen - p)
      pure (if (dst.length : Int) ≤ resultLen then some (dst, resultLen) else none)
  | _, _, _ => pure (some ([], 0))

def replaceCall (s old new : StrExpr) (h : Heap) : Fueled (Option (Str × Int)) :=
  match operands [s, old, new] h with
  | some [s, old, new] => stringReplace s.data s.len old.data new.data
  | _ => pure none

/-- What is put in the place of the placeholder `k`. -/
def placeholder (args : List (Option Str)) (k : Nat) : Str :=
  match args[k]? with
  | some (some arg) => cstr arg
  | _ => [123, 125]

/-- The second pass, over what is left of the template. -/
def formatText (args : List (Option Str)) : Nat → Str → Str
  | _, [] => []
  | _, [c] => [c]
  | k, c :: d :: rest =>
    if c = 123 ∧ d = 125 then placeholder args k ++ formatText args (k + 1) rest
    else c :: formatText args k (d :: rest)

/-- The first pass: `total`. -/
def formatTotal (args : List (Option Str)) : Nat → Str → Nat
  | _, [] => 0
  | _, [_] => 1
  | k, c :: d :: rest =>
    if c = 123 ∧ d = 125 then (placeholder args k).length + formatTotal args (k + 1) rest
    else 1 + formatTotal args k (d :: rest)

/-- **`__vyb_string_format`** -/
def stringFormat (fmt : Option Str) (fmtLen : Nat) (args : List (Option Str)) : Option (Str × Int) :=
  match fmt with
  | none => some ([], 0)
  | some fmt =>
    let total := formatTotal args 0 (fmt.take fmtLen) % 2 ^ 64
    let out := formatText args 0 (fmt.take fmtLen)
    if out.length ≤ total then some (out, out.length) else none

def formatCall (fmt : StrExpr) (args : List StrExpr) (h : Heap) : Option (Str × Int) :=
  match operands (fmt :: args) h with
  | some (fmt :: args) => stringFormat fmt.data fmt.len (args.map Operand.data)
  | _ => none

/-! ## 3. Operands -/

namespace StrExpr

/-- What a helper gets for `e`. -/
def operand (e : StrExpr) : Operand :=
  if e.OutOfBounds then ⟨none, 0⟩ else ⟨some (e.value ++ [0]), e.value.length⟩

variable {s : StrExpr} {h h₁ h' : Heap} {str v : FileStr}

theorem operand_place {e : StrExpr} (refs : Option Int) (hin : ¬ e.OutOfBounds) :
    (h.place e.value refs).1.operand (h.place e.value refs).2 = some e.operand := by
  have hptr : (h.place e.value refs).2.ptr = h.length + 1 := rfl
  rw [Heap.operand, if_neg (by rw [hptr]; omega), hptr, Heap.place_bufferAt, operand, if_neg hin]
  rfl

theorem operand_substring {e : StrExpr} {start stop : Int} (hs : Evaluated s h h₁ str)
    (hvalue : e.value = s.value.substring start stop)
    (hout : e.OutOfBounds ↔ ¬ Str.InBounds s.value.length start stop)
    (heval : h₁.substring str start stop = some (h', v)) : h'.operand v = some e.operand := by
  have hlen := hs.holds.len
  by_cases hin : Str.InBounds s.value.length start stop
  · rw [Heap.substring, hlen, if_pos hin, hs.holds.load] at heval
    have hplace : h₁.place e.value (some 1) = (h', v) := by
      rw [hvalue, Str.substring, if_pos hin]
      exact Option.some.inj heval
    have h := operand_place (h := h₁) (some 1) (fun hc => hout.mp hc hin)
    rwa [hplace] at h
  · rw [Heap.substring, hlen, if_neg hin] at heval
    cases heval
    rw [operand, if_pos (hout.mpr hin)]
    rfl

/-- **A String in the hands of a helper.** -/
theorem eval_operand (e : StrExpr) (heval : e.eval h = some (h', v)) : h'.operand v = some e.operand := by
  cases e with
  | literal text =>
    cases heval
    exact operand_place (e := .literal text) none id
  | concat s other =>
    obtain ⟨h₁, str1, heval1, hs⟩ := s.eval_spec h
    obtain ⟨h₂, str2, heval2, ho⟩ := other.eval_spec h₁
    have hload1 := (hs.holds.extends ho.kept).load
    have hplace := operand_place (h := h₂) (e := .concat s other) (some 1) id
    simp only [eval, heval1, heval2, Heap.concat, hload1, ho.holds.load, bind_eq_bind,
      bind_some, Option.some.injEq, Prod.mk.injEq] at heval
    obtain ⟨rfl, rfl⟩ := heval
    split
    · -- the buffer that is given up is not the one of the result
      have hne : str2.ptr ≠ h₂.length + 1 := by
        have := ho.holds.le
        omega
      rw [Heap.operand] at hplace ⊢
      exact (congrArg _ (congrArg _ (Heap.release_bufferAt_ne hne))).trans hplace
    · exact hplace
  | substring s start stop =>
    obtain ⟨h₁, str, heval1, hs⟩ := s.eval_spec h
    simp only [eval, heval1, bind_eq_bind, bind_some] at heval
    exact operand_substring hs rfl Iff.rfl heval
  | substringFrom s start =>
    obtain ⟨h₁, str, heval1, hs⟩ := s.eval_spec h
    simp only [eval, heval1, bind_eq_bind, bind_some, hs.holds.len] at heval
    exact operand_substring hs rfl Iff.rfl heval
  | trim s =>
    obtain ⟨h₁, str, heval1, hs⟩ := s.eval_spec h
    simp only [eval, heval1, Heap.trim, hs.holds.load, bind_eq_bind, bind_some] at heval
    have hplace := operand_place (h := h₁) (e := .trim s) (some 1) id
    cases heval
    exact hplace

end StrExpr

theorem Heap.Extends.operand {h h' : Heap} (a : Heap.Extends h h') {v : FileStr} {o : Operand}
    (ho : h.operand v = some o) : h'.operand v = some o := by
  unfold Heap.operand at ho ⊢
  split
  · rename_i hptr
    rwa [if_pos hptr] at ho
  · rename_i hptr
    rw [if_neg hptr] at ho
    obtain ⟨b, hb, rfl⟩ := Option.map_eq_some_iff.mp ho
    rw [a.bufferAt hb]
    rfl

theorem evalAll_spec : ∀ (es : List StrExpr) (h : Heap), ∃ h' vs, evalAll es h = some (h', vs) ∧
    h.Extends h' ∧ vs.mapM h'.operand = some (es.map StrExpr.operand)
  | [], h => ⟨h, [], rfl, .refl h, rfl⟩
  | e :: es, h => by
    obtain ⟨h₁, v, heval, hev⟩ := e.eval_spec h
    obtain ⟨h', vs, hall, hext, hvs⟩ := evalAll_spec es h₁
    refine ⟨h', v :: vs, by simp [evalAll, heval, hall], hev.kept.trans hext, ?_⟩
    have ho := hext.operand (e.eval_operand heval)
    simp [mapM_cons, ho, hvs]

/-- **What the helpers get**, for every String expression. -/
theorem operands_spec (es : List StrExpr) (h : Heap) : operands es h = some (es.map StrExpr.operand) := by
  obtain ⟨h', vs, hall, -, hvs⟩ := evalAll_spec es h
  simp [operands, hall, hvs]

/-! ## 4. Ordinary Strings -/

/-- Not the null pointer, and without a zero byte. -/
def StrExpr.Ordinary (e : StrExpr) : Prop := ¬ e.OutOfBounds ∧ 0 ∉ e.value

theorem cstr_text {text rest : Str} (h : 0 ∉ text) : cstr (text ++ 0 :: rest) = text := by
  rw [cstr, takeWhile_append_of_pos fun c hc => ?_]
  · simp
  · simp only [ne_eq, decide_not, Bool.not_eq_eq_eq_not, Bool.not_true, decide_eq_false_iff_not]
    rintro rfl
    exact h hc

theorem StrExpr.Ordinary.operand_eq {e : StrExpr} (h : e.Ordinary) :
    e.operand = ⟨some (e.value ++ [0]), e.value.length⟩ := if_neg h.1

/-- `s.contains(t)` is whether `t` is a block of `s`. -/
def ContainsExact (s t : StrExpr) : Prop :=
  ∀ h, ∃ found, containsCall s t h = some found ∧ (found = true ↔ t.value <:+: s.value)

/-- `s.replace(a, b)` replaces the leftmost occurrences of `a`, and its length is what it has written. No
    String has more bytes than an `Int` counts. -/
def ReplaceExact (s a b : StrExpr) : Prop :=
  a.value ≠ [] → (replaced s.value a.value b.value).length < 2 ^ 63 → ∀ h, (replaceCall s a b h).Returns
    (some (replaced s.value a.value b.value, (replaced s.value a.value b.value).length))

/-- The placeholders of `fmt`, from the left to the right, replaced by the texts of the arguments. -/
def formatted (fmt : Str) (args : List Str) : Str :=
  substituteEach fmt 0 ((occurrences fmt [123, 125]).found 0) args

/-- `fmt.format(x1, …, xn)` replaces the placeholders. -/
def FormatExact (fmt : StrExpr) (args : List StrExpr) : Prop :=
  (formatted fmt.value (args.map StrExpr.value)).length < 2 ^ 63 → ∀ h, formatCall fmt args h =
    some (formatted fmt.value (args.map StrExpr.value),
      ((formatted fmt.value (args.map StrExpr.value)).length : Int))

theorem contains_exact {s t : StrExpr} (hs : s.Ordinary) (ht : t.Ordinary) : ContainsExact s t := by
  intro h
  refine ⟨(strstr s.value t.value 0).isSome, ?_, ?_⟩
  · rw [containsCall, operands_spec]
    simp only [map_cons, map_nil, containsCode, hs.operand_eq, ht.operand_eq, cstr_text hs.2,
      cstr_text ht.2, bind_eq_bind, bind_some]
  · rw [strstr, Option.isSome_map]
    exact find_occurrences

section Passes

variable {s a : Str} (ha : a ≠ [])

include ha

/-- The first pass counts the occurrences. -/
theorem countLoop_returns (pos : Nat) : ∀ count, (loop (countRound s a) (pos, count)).Returns
    (count + ((occurrences s a).found pos).length) := by
  induction pos using (occurrences s a).scan_induction with
  | hnone pos h =>
    intro count
    refine loop_returns_of_exit (returns_pure.mpr ?_)
    simp [strstr, h, found_none h]
  | hsome pos so eo h ih =>
    intro count
    obtain ⟨hnext, rfl⟩ := afterMatch_occurrences ha (find_some h).2.1
    rw [hnext] at ih
    have ih := ih (count + 1)
    rw [found_some h, hnext, length_cons, Nat.add_comm _ 1, ← Nat.add_assoc]
    refine loop_returns_of_next (returns_pure.mpr ?_) ih
    simp [strstr, h]

/-- The second pass writes what is in front of the last occurrence. -/
theorem buildLoop_returns (b : Str) (pos : Nat) : pos ≤ s.length → ∀ dst, ∃ p dst',
    (loop (buildRound s a b) (pos, dst)).Returns (p, dst') ∧ p ≤ s.length ∧
      dst' ++ s.drop p = dst ++ substitute s pos ((occurrences s a).found pos) b := by
  induction pos using (occurrences s a).scan_induction with
  | hnone pos h =>
    intro hpos dst
    refine ⟨pos, dst, loop_returns_of_exit (returns_pure.mpr ?_), hpos, by rw [found_none h, substitute]⟩
    simp [strstr, h]
  | hsome pos so eo h ih =>
    intro _ dst
    obtain ⟨-, hends, -⟩ := find_some h
    obtain ⟨hnext, rfl⟩ := afterMatch_occurrences ha hends
    rw [hnext] at ih
    obtain ⟨p, dst', hloop, hp, heq⟩ :=
      ih ((occurrences s a).bounds hends).2 (dst ++ ((s.drop pos).take (so - pos) ++ b))
    refine ⟨p, dst', loop_returns_of_next (returns_pure.mpr ?_) hloop, hp, ?_⟩
    · simp [strstr, h]
    · rw [heq, found_some h, hnext, substitute]
      simp only [append_assoc]

end Passes

theorem replace_exact {s a b : StrExpr} (hs : s.Ordinary) (ha : a.Ordinary) (hb : b.Ordinary) :
    ReplaceExact s a b := by
  intro hne hfits h
  obtain ⟨p, dst, hbuild, hp, hdst⟩ := buildLoop_returns hne b.value 0 (Nat.zero_le s.value.length) []
  have hcount := countLoop_returns (s := s.value) hne 0 0
  have htail : ((s.value ++ [0]).drop p).take (s.value.length - p) = s.value.drop p := by
    rw [drop_append_of_le_length hp, take_append_of_le_length (by simp), take_of_length_le (by simp)]
  have hlen := length_replaced hne b.value 0 (Nat.zero_le s.value.length)
  have hresult : ((s.value.length : Int) + ((0 + ((occurrences s.value a.value).found 0).length : Nat) : Int) *
      ((b.value.length : Int) - a.value.length)) % 2 ^ 64 = (replaced s.value a.value b.value).length := by
    rw [← Int.emod_eq_of_lt (a := ((replaced s.value a.value b.value).length : Int)) (b := 2 ^ 64) (by omega)
      (by omega)]
    congr 1
    rw [replaced]
    rw [Nat.sub_zero] at hlen
    zify at hlen
    push_cast
    linarith
  rw [replaceCall, operands_spec]
  simp only [map_cons, map_nil, hs.operand_eq, ha.operand_eq, hb.operand_eq, stringReplace,
    cstr_text hs.2, cstr_text ha.2, cstr_text hb.2]
  rw [if_neg (by simpa using hne)]
  refine returns_bind.mpr ⟨_, hcount, returns_bind.mpr ⟨_, hbuild, returns_pure.mpr ?_⟩⟩
  rw [htail, hdst, nil_append, hresult, replaced, if_pos (le_refl _)]

theorem formatTotal_eq (args : List (Option Str)) (k : Nat) (fmt : Str) :
    formatTotal args k fmt = (formatText args k fmt).length := by
  induction k, fmt using formatText.induct with
  | case1 k | case2 k c => rfl
  | case3 k c d rest h ih => rw [formatTotal, formatText, if_pos h, if_pos h, length_append, ih]
  | case4 k c d rest h ih => rw [formatTotal, formatText, if_neg h, if_neg h, length_cons, ih, Nat.add_comm]

theorem placeholder_text {texts : List Str} (hzero : ∀ t ∈ texts, 0 ∉ t) (k : Nat) :
    placeholder (texts.map fun t => some (t ++ [0])) k = texts.getD k [123, 125] := by
  rw [placeholder, getElem?_map, getD_eq_getElem?_getD]
  cases hk : texts[k]? with
  | none => rfl
  | some t =>
    show cstr (t ++ [0]) = t
    exact cstr_text (hzero t (mem_of_getElem? hk))

/-- **The passes over the template** find the placeholders one after the other. -/
theorem formatText_eq {texts : List Str} (hzero : ∀ t ∈ texts, 0 ∉ t) (fmt : Str) : ∀ (pos k : Nat),
    formatText (texts.map fun t => some (t ++ [0])) k (fmt.drop pos) =
      substituteEach fmt pos ((occurrences fmt [123, 125]).found pos) (texts.drop k) := by
  intro pos
  induction hn : fmt.length - pos using Nat.strong_induction_on generalizing pos with
  | _ n ih =>
    intro k
    -- a placeholder takes two bytes
    have hshort : fmt.length ≤ pos + 1 → (occurrences fmt [123, 125]).found pos = [] := fun hlen => by
      refine found_none (Option.eq_none_iff_forall_ne_some.mpr fun ⟨so, eo⟩ h => ?_)
      obtain ⟨hle, hends, -⟩ := find_some h
      have := (occurrences_ends.mp hends).1.1
      simp only [length_cons, length_nil] at this
      omega
    rcases hdrop : fmt.drop pos with _ | ⟨c, _ | ⟨d, rest⟩⟩
    · have hlen := congrArg length hdrop
      simp only [length_drop, length_nil] at hlen
      rw [hshort (by omega), substituteEach_no_match, hdrop, formatText]
    · have hlen := congrArg length hdrop
      simp only [length_drop, length_cons, length_nil] at hlen
      rw [hshort (by omega), substituteEach_no_match, hdrop, formatText]
    · have hlen := congrArg length hdrop
      simp only [length_drop, length_cons] at hlen
      have hnext : fmt.drop (pos + 1) = d :: rest := by
        rw [← drop_drop, hdrop]
        rfl
      have hbehind : fmt.drop (pos + 2) = rest := by
        rw [← drop_drop, hdrop]
        rfl
      by_cases hplace : c = 123 ∧ d = 125
      · have hends : (occurrences fmt [123, 125]).ends pos = some (pos + 2) :=
          occurrences_ends.mpr ⟨⟨by simp; omega, by rw [hdrop, hplace.1, hplace.2]; rfl⟩, rfl⟩
        have hafter : afterMatch pos (pos + 2) = pos + 2 := if_pos (by omega)
        have ih := ih (fmt.length - (pos + 2)) (by omega) (pos + 2) rfl (k + 1)
        rw [hbehind] at ih
        rw [formatText, if_pos hplace, ih, found_some (find_here hends), hafter, placeholder_text hzero]
        cases htexts : texts.drop k with
        | nil =>
          have hk : texts.length ≤ k := drop_eq_nil_iff.mp htexts
          rw [getD_eq_getElem?_getD, getElem?_eq_none hk, drop_eq_nil_of_le (by omega), substituteEach_nil,
            substituteEach_nil, hbehind, hdrop, hplace.1, hplace.2]
          rfl
        | cons r rs =>
          have hk : texts.getD k [123, 125] = r := by
            rw [getD_eq_getElem?_getD, ← head?_drop, htexts]
            rfl
          have hrs : texts.drop (k + 1) = rs := by
            rw [← drop_drop, htexts]
            rfl
          rw [hk, hrs, substituteEach, Nat.sub_self, take_zero, nil_append]
      · have hends : (occurrences fmt [123, 125]).ends pos = none := by
          refine Option.eq_none_iff_forall_ne_some.mpr fun eo h => hplace ?_
          have hat := (occurrences_ends.mp h).1.2
          rw [hdrop] at hat
          simpa using hat
        have ih := ih (fmt.length - (pos + 1)) (by omega) (pos + 1) rfl k
        rw [hnext] at ih
        have hc : fmt[pos] = c := by
          have hcons := drop_eq_getElem_cons (l := fmt) (i := pos) (by omega)
          rw [hdrop] at hcons
          exact (cons.inj hcons).1.symm
        rw [formatText, if_neg hplace, ih, found_skip hends,
          substituteEach_step (by omega) ((occurrences fmt [123, 125]).found_disjoint (pos + 1)), hc]

theorem format_exact {fmt : StrExpr} {args : List StrExpr} (hfmt : fmt.Ordinary)
    (hargs : ∀ a ∈ args, a.Ordinary) : FormatExact fmt args := by
  intro hfits h
  have hdata : (args.map operand).map Operand.data = (args.map value).map fun t => some (t ++ [0]) := by
    rw [map_map, map_map]
    exact map_congr_left fun a ha => by simp [(hargs a ha).operand_eq]
  have hzero : ∀ t ∈ args.map value, 0 ∉ t := fun t ht => by
    obtain ⟨a, ha, rfl⟩ := mem_map.mp ht
    exact (hargs a ha).2
  have htext := formatText_eq hzero fmt.value 0 0
  rw [drop_zero, drop_zero] at htext
  rw [formatCall, operands_spec]
  simp only [map_cons, hfmt.operand_eq, stringFormat, hdata]
  rw [take_left' rfl, formatTotal_eq, htext]
  unfold formatted at hfits ⊢
  rw [Nat.mod_eq_of_lt (by omega), if_pos (le_refl _)]

/-! ## 5. In every place -/

/-- Together with ordinary Strings, `x` is handled byte by byte: as the receiver and as an argument. -/
structure ByteExact (x : StrExpr) : Prop where
  contains : ∀ u, u.Ordinary → ContainsExact x u ∧ ContainsExact u x
  replace : ∀ u v, u.Ordinary → v.Ordinary → ReplaceExact x u v ∧ ReplaceExact u x v ∧ ReplaceExact u v x
  format : ∀ args, (∀ u ∈ args, u.Ordinary) → FormatExact x args
  formatArg : ∀ fmt pre post, fmt.Ordinary → (∀ u ∈ pre, u.Ordinary) → (∀ u ∈ post, u.Ordinary) →
    FormatExact fmt (pre ++ x :: post)

/-- A null pointer is undefined for `strstr`. -/
theorem containsCall_null {s : StrExpr} (h : s.OutOfBounds) (t : StrExpr) (heap : Heap) :
    containsCall s t heap = none := by
  rw [containsCall, operands_spec]
  simp only [map_cons, map_nil, containsCode, operand, if_pos h]
  rfl

/-- What stands in front of a zero byte is found in itself, also when it is searched with the zero byte. -/
theorem contains_zero {x : StrExpr} (hin : ¬ x.OutOfBounds) {front rest : Str} (hfront : 0 ∉ front)
    (hx : x.value = front ++ 0 :: rest) : ¬ ContainsExact (.literal front) x := by
  intro hexact
  obtain ⟨found, hfound, hiff⟩ := hexact []
  have hself : ((occurrences front front).find 0).isSome = true := find_occurrences.mpr infix_rfl
  have hliteral : (literal front).operand = ⟨some (front ++ [0]), front.length⟩ := rfl
  have hoperand : x.operand = ⟨some (x.value ++ [0]), x.value.length⟩ := if_neg hin
  rw [containsCall, operands_spec] at hfound
  simp only [map_cons, map_nil, containsCode, hliteral, hoperand, hx, append_assoc,
    cons_append, cstr_text hfront, bind_eq_bind, bind_some, Option.some.injEq] at hfound
  rw [strstr, Option.isSome_map, hself] at hfound
  have hlen := (hiff.mp hfound.symm).length_le
  simp only [hx, value, length_append, length_cons] at hlen
  omega

end Vyb.Runtime
