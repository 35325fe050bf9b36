/-
  Subject:   Monomorphization: mangled names as cache keys (`cgen_monomorph.cpp`,
             `cgen_function_mono.cpp`).

  A generic struct, enum or function is specialised once per mangled name: the request is looked up
  in the cache of its kind, and only on a miss is a specialisation built (which may request others)
  and stored. A specialisation is identified by the instance it was built for.

  * `mangled_eq_iff` -- two instances of a kind have one mangled name iff they have the same
    `pieces`: the names cut at `_`, in order, without the brackets and without anything below the
    second level of arguments;
  * `serve_sound` -- whatever is answered has the requested kind and mangled name, over every
    sequence of requests, nested ones included;
  * **`never_shared_iff`** -- one instance is never answered for the other iff their pieces differ;
  * `plain_never_shared` -- they do if names have no `_` and arguments are bare names.
-/
import Vyb.Lib.Scopes
import Vyb.Lib.Split
import Vyb.Syntax.Types

namespace Vyb.Codegen.Monomorph

open Lib Syntax List

/-! ## 1. Mangling -/

/-- Replace the characters that LLVM names may not hold. -/
def sanitize (s : String) : String :=
  String.ofList (s.toList.map fun c => if c = '<' ∨ c = '>' ∨ c = ',' ∨ c = ' ' then '_' else c)

/-- An argument of an argument: its head only. -/
def innerName : Ty → String
  | .named m _ => m.text
  | _ => "Unknown"

/-- One type argument of a mangled type name. -/
def mangleArg : Ty → String
  | .named n [] => n.text
  | .named n (a :: as) => n.text ++ "_" ++ String.intercalate "_" ((a :: as).map innerName)
  | t => sanitize t.toString

def mangleGenericTypeName (baseName : Ident) (typeArgs : List Ty) : String :=
  typeArgs.foldl (fun ss t => ss ++ "_" ++ mangleArg t) baseName.text

def mangleGenericFunctionName (baseName : Ident) (typeArgs : List String) : String :=
  typeArgs.foldl (fun ss t => ss ++ "_" ++ sanitize t) baseName.text

inductive Kind where
  | struct
  | enum
  | function
  deriving DecidableEq, Repr

/-- A generic declaration with its concrete type arguments. -/
structure Instance where
  kind : Kind
  base : Ident
  args : List Ty

/-- The cache key of an instance. A function is requested with the texts of its arguments. -/
def mangled (p : Instance) : String :=
  match p.kind with
  | .struct => mangleGenericTypeName p.base p.args
  | .enum => mangleGenericTypeName p.base p.args
  | .function => mangleGenericFunctionName p.base (p.args.map Ty.toString)

/-! ## 2. The caches -/

/-- The generic templates with their parameter counts. -/
structure Templates where
  genericStructTemplates : List (Ident × Nat)
  genericEnumTemplates : List (Ident × Nat)
  genericFunctionTemplates : List (Ident × Nat)

/-- The three caches; a value is the specialisation, named by the instance it was built for. -/
structure Caches where
  monomorphizedStructs : List (String × Instance)
  taggedEnumInfo : List (String × Instance)
  monomorphizedFunctions : List (String × Instance)

def Caches.empty : Caches := ⟨[], [], []⟩

def Caches.find (c : Caches) (p : Instance) : Option Instance :=
  match p.kind with
  | .struct => c.monomorphizedStructs.lookup (mangled p)
  | .enum => c.taggedEnumInfo.lookup (mangled p)
  | .function => c.monomorphizedFunctions.lookup (mangled p)

def Caches.insert (c : Caches) (p : Instance) : Caches :=
  match p.kind with
  | .struct => { c with monomorphizedStructs := (mangled p, p) :: c.monomorphizedStructs }
  | .enum => { c with taggedEnumInfo := (mangled p, p) :: c.taggedEnumInfo }
  | .function => { c with monomorphizedFunctions := (mangled p, p) :: c.monomorphizedFunctions }

/-- The check before the cache: only functions look their template up first. -/
def Templates.known (T : Templates) (p : Instance) : Bool :=
  match p.kind with
  | .function => (T.genericFunctionTemplates.lookup p.base).isSome
  | _ => true

/-- The checks after a miss: the template exists and takes that many arguments. The enum `Result`
    is built in. -/
def Templates.admits (T : Templates) (p : Instance) : Bool :=
  match p.kind with
  | .struct => T.genericStructTemplates.lookup p.base == some p.args.length
  | .enum =>
    p.base.text == "Result" || p.base.text == "core::result::Result" ||
      T.genericEnumTemplates.lookup p.base == some p.args.length
  | .function => T.genericFunctionTemplates.lookup p.base == some p.args.length

/-- A request, with the requests the body of its specialisation makes and whether that body
    compiles. -/
inductive Request where
  | mk (p : Instance) (nested : List Request) (bodyOk : Bool)

/-- What was requested and what was answered; no answer is a reported error. -/
abbrev Log := List (Instance × Option Instance)

mutual

/-- `monomorphizeStruct`, `monomorphizeEnum`, `monomorphizeGenericFunction`. -/
def serve (T : Templates) (c : Caches) : Request → Caches × Log
  | .mk p nested bodyOk =>
    if T.known p then
      match c.find p with
      | some s => (c, [(p, some s)])
      | none =>
        if T.admits p then
          let r := serveAll T c nested
          if bodyOk then (r.1.insert p, r.2 ++ [(p, some p)]) else (r.1, r.2 ++ [(p, none)])
        else (c, [(p, none)])
    else (c, [(p, none)])

def serveAll (T : Templates) (c : Caches) : List Request → Caches × Log
  | [] => (c, [])
  | r :: rs =>
    let s := serve T c r
    let t := serveAll T s.1 rs
    (t.1, s.2 ++ t.2)

end

/-- A compilation: its requests in order, from empty caches. -/
def run (T : Templates) (rs : List Request) : Log := (serveAll T Caches.empty rs).2

/-! ## 3. Mangled names and their pieces -/

/-- A text cut at the underscores. -/
def chunks (s : String) : List (List Char) := splitSep '_' s.toList

def argPieces : Ty → List (List Char)
  | .named n args => chunks n.text ++ args.flatMap fun t => chunks (innerName t)
  | t => chunks (sanitize t.toString)

/-- What the mangled name keeps of an instance. -/
def pieces (p : Instance) : List (List Char) :=
  chunks p.base.text ++
    match p.kind with
    | .function => p.args.flatMap fun t => chunks (sanitize t.toString)
    | _ => p.args.flatMap argPieces

theorem chunks_append (s t : String) : chunks (s ++ "_" ++ t) = chunks s ++ chunks t := by
  have h : (s ++ "_" ++ t).toList = s.toList ++ '_' :: t.toList := by
    simp
  rw [chunks, h, splitSep_append]
  rfl

theorem chunks_injective : Function.Injective chunks := fun _ _ h =>
  String.toList_injective (splitSep_injective '_' h)

theorem chunks_foldl {β : Type} (f : β → String) : ∀ (xs : List β) (s : String),
    chunks (xs.foldl (fun ss x => ss ++ "_" ++ f x) s) = chunks s ++ xs.flatMap fun x => chunks (f x)
  | [], s => by simp
  | x :: xs, s => by
    rw [foldl_cons, chunks_foldl f xs, chunks_append, flatMap_cons, append_assoc]

theorem chunks_intercalate : ∀ (w : String) (ws : List String),
    chunks (String.intercalate "_" (w :: ws)) = (w :: ws).flatMap chunks
  | w, [] => by simp
  | w, v :: ws => by
    rw [String.intercalate_cons_cons, chunks_append, chunks_intercalate v ws]
    simp

theorem chunks_mangleArg (t : Ty) : chunks (mangleArg t) = argPieces t := by
  cases t with
  | named n args =>
    cases args with
    | nil => simp [mangleArg, argPieces]
    | cons a as =>
      rw [mangleArg, chunks_append, map_cons, chunks_intercalate, argPieces]
      simp [flatMap_map]
  | _ => rfl

theorem chunks_mangled (p : Instance) : chunks (mangled p) = pieces p := by
  unfold mangled pieces
  cases p.kind with
  | function =>
    simp only [mangleGenericFunctionName]
    rw [chunks_foldl, flatMap_map]
  | struct | enum => simp only [mangleGenericTypeName, chunks_foldl, chunks_mangleArg]

/-- **Equal cache keys are equal pieces.** -/
theorem mangled_eq_iff (p q : Instance) : mangled p = mangled q ↔ pieces p = pieces q := by
  rw [← chunks_mangled, ← chunks_mangled]
  exact chunks_injective.eq_iff.symm

/-! ## 4. What a run answers -/

/-- An answer has the requested kind and the requested cache key. -/
def Answers (q s : Instance) : Prop := s.kind = q.kind ∧ mangled s = mangled q

/-- Every cache entry sits in the cache of its kind, under its own mangled name. -/
structure CachesOk (c : Caches) : Prop where
  structs : ∀ e ∈ c.monomorphizedStructs, e.2.kind = .struct ∧ mangled e.2 = e.1
  enums : ∀ e ∈ c.taggedEnumInfo, e.2.kind = .enum ∧ mangled e.2 = e.1
  functions : ∀ e ∈ c.monomorphizedFunctions, e.2.kind = .function ∧ mangled e.2 = e.1

variable {q : Instance} {c : Caches}

theorem find_answers (hc : CachesOk c) {s : Instance} (h : c.find q = some s) : Answers q s := by
  unfold Caches.find at h
  unfold Answers
  cases hk : q.kind with
  | struct =>
    rw [hk] at h
    exact hc.structs _ (Lib.Scopes.mem_of_lookup h)
  | enum =>
    rw [hk] at h
    exact hc.enums _ (Lib.Scopes.mem_of_lookup h)
  | function =>
    rw [hk] at h
    exact hc.functions _ (Lib.Scopes.mem_of_lookup h)

theorem insert_ok (hc : CachesOk c) (p : Instance) : CachesOk (c.insert p) := by
  unfold Caches.insert
  cases hk : p.kind with
  | struct =>
    exact ⟨forall_mem_cons.mpr ⟨⟨hk, rfl⟩, hc.structs⟩, hc.enums, hc.functions⟩
  | enum =>
    exact ⟨hc.structs, forall_mem_cons.mpr ⟨⟨hk, rfl⟩, hc.enums⟩, hc.functions⟩
  | function =>
    exact ⟨hc.structs, hc.enums, forall_mem_cons.mpr ⟨⟨hk, rfl⟩, hc.functions⟩⟩

section Serve

variable (T : Templates)

mutual

/-- **One request** keeps the caches in order and answers with the requested kind and key. -/
theorem serve_sound : ∀ (r : Request) (c : Caches), CachesOk c →
    CachesOk (serve T c r).1 ∧ ∀ q s, (q, some s) ∈ (serve T c r).2 → Answers q s
  | .mk p nested bodyOk, c, hc => by
    unfold serve
    by_cases hk : T.known p = true
    · rw [if_pos hk]
      cases hf : c.find p with
      | some s =>
        refine ⟨hc, fun q s' hm => ?_⟩
        simp only [mem_singleton, Prod.mk.injEq, Option.some.injEq] at hm
        obtain ⟨rfl, rfl⟩ := hm
        exact find_answers hc hf
      | none =>
        by_cases ha : T.admits p = true
        · obtain ⟨hc', hlog⟩ := serveAll_sound nested c hc
          simp only [ha, ↓reduceIte]
          cases bodyOk with
          | true =>
            refine ⟨insert_ok hc' p, fun q s hm => ?_⟩
            rcases mem_append.mp hm with hm | hm
            · exact hlog q s hm
            · simp only [mem_singleton, Prod.mk.injEq, Option.some.injEq] at hm
              obtain ⟨rfl, rfl⟩ := hm
              exact ⟨rfl, rfl⟩
          | false =>
            refine ⟨hc', fun q s hm => ?_⟩
            rcases mem_append.mp hm with hm | hm
            · exact hlog q s hm
            · simp at hm
        · simp only [ha, Bool.false_eq_true, ↓reduceIte]
          exact ⟨hc, fun q s hm => by simp at hm⟩
    · rw [if_neg hk]
      exact ⟨hc, fun q s hm => by simp at hm⟩

theorem serveAll_sound : ∀ (rs : List Request) (c : Caches), CachesOk c →
    CachesOk (serveAll T c rs).1 ∧ ∀ q s, (q, some s) ∈ (serveAll T c rs).2 → Answers q s
  | [], c, hc => ⟨hc, fun q s hm => by simp [serveAll] at hm⟩
  | r :: rs, c, hc => by
    obtain ⟨h1, hl1⟩ := serve_sound r c hc
    obtain ⟨h2, hl2⟩ := serveAll_sound rs _ h1
    refine ⟨h2, fun q s hm => ?_⟩
    rcases mem_append.mp hm with hm | hm
    · exact hl1 q s hm
    · exact hl2 q s hm

end

/-- **Every run**: an answer has the requested kind and mangled name. -/
theorem run_sound (rs : List Request) {s : Instance} (h : (q, some s) ∈ run T rs) : Answers q s :=
  (serveAll_sound T rs Caches.empty ⟨by simp [Caches.empty], by simp [Caches.empty],
    by simp [Caches.empty]⟩).2 q s h

end Serve

/-! ## 5. Collisions -/

/-- The template of the instance exists and takes that many arguments. -/
def Valid (T : Templates) (p : Instance) : Prop := T.known p = true ∧ T.admits p = true

/-- In no compilation is the specialisation of `p` the answer to a request for `q`. -/
def NeverShared (T : Templates) (p q : Instance) : Prop :=
  Valid T p → Valid T q → p ≠ q → ∀ rs, (q, some p) ∉ run T rs

variable {p : Instance}

theorem find_insert (h : Answers q p) : (c.insert p).find q = some p := by
  obtain ⟨hk, hm⟩ := h
  unfold Caches.insert Caches.find
  rw [hk]
  cases q.kind <;> simp [hm]

/-- Two instances with one kind and key: the second request gets the first one's specialisation. -/
theorem shared_of_answers {T : Templates} (hp : Valid T p) (hq : Valid T q) (h : Answers q p) :
    (q, some p) ∈ run T [.mk p [] true, .mk q [] true] := by
  have hempty : Caches.empty.find p = none := by
    unfold Caches.find Caches.empty
    cases p.kind <;> rfl
  have h1 : serve T Caches.empty (.mk p [] true) = (Caches.empty.insert p, [(p, some p)]) := by
    simp [serve, serveAll, hp.1, hp.2, hempty]
  have h2 : serve T (Caches.empty.insert p) (.mk q [] true) =
      (Caches.empty.insert p, [(q, some p)]) := by
    simp [serve, hq.1, find_insert h]
  simp [run, serveAll, h1, h2]

/-- **When two instances never share a specialisation**: they differ in kind, or in the pieces that
    are left when names are cut at `_` and brackets and deeper arguments are dropped. -/
theorem never_shared_iff (T : Templates) (p q : Instance) :
    NeverShared T p q ↔
      (Valid T p → Valid T q → p ≠ q → p.kind ≠ q.kind ∨ pieces p ≠ pieces q) := by
  constructor
  · intro h hp hq hne
    by_contra hc
    push Not at hc
    exact h hp hq hne _ (shared_of_answers hp hq ⟨hc.1, (mangled_eq_iff p q).mpr hc.2⟩)
  · intro h hp hq hne rs hm
    obtain ⟨hk, hmn⟩ := run_sound T rs hm
    rcases h hp hq hne with hk' | hp'
    · exact hk' hk
    · exact hp' ((mangled_eq_iff p q).mp hmn)

def cellIdent : Ident := .ofText "Cell" (by decide)

def pairIdent : Ident := .ofText "Pair" (by decide)

/-- `Cell<Pair<Cell<E>, Int>>` -/
def cellOfPair (e : Ident) : Instance :=
  ⟨.struct, cellIdent,
    [.named pairIdent [.named cellIdent [.named e []], .named (.ofText "Int" (by decide)) []]]⟩

/-- The mangling keeps two levels of arguments: `Cell<Pair<Cell<Bool>, Int>>` is answered with the
    layout built for `Cell<Pair<Cell<Int>, Int>>`. -/
theorem nested_arguments_shared :
    ¬ NeverShared ⟨[(cellIdent, 1), (pairIdent, 2)], [], []⟩ (cellOfPair (.ofText "Int" (by decide)))
      (cellOfPair (.ofText "Bool" (by decide))) := by
  intro h
  refine h ⟨rfl, by decide⟩ ⟨rfl, by decide⟩ (by simp [cellOfPair, Ident.ofText]) _
    (shared_of_answers ⟨rfl, by decide⟩ ⟨rfl, by decide⟩ ⟨rfl, by decide⟩)

/-- Names without `_`, arguments that are bare names. -/
structure PlainArgs (p : Instance) : Prop where
  base : '_' ∉ p.base.text.toList
  args : ∀ t ∈ p.args, ∃ n : Ident, t = .named n [] ∧ '_' ∉ n.text.toList

theorem sanitize_ident (n : Ident) : sanitize n.text = n.text := by
  have h : n.text.toList.map (fun c => if c = '<' ∨ c = '>' ∨ c = ',' ∨ c = ' ' then '_' else c) =
      n.text.toList := by
    refine (map_congr_left fun c hc => if_neg fun hbad => ?_).trans (map_id _)
    have hok := n.chars c hc
    rcases hbad with hb | hb | hb | hb
    all_goals
      subst hb
      exact absurd hok (by decide)
  rw [sanitize, h, String.ofList_toList]

theorem chunks_plain {s : String} (h : '_' ∉ s.toList) : chunks s = [s.toList] :=
  splitSep_of_notMem _ h

/-- The text of a bare name. -/
def bareText (t : Ty) : List Char := t.toString.toList

/-- Without `_` and nesting the pieces are the names. -/
theorem pieces_plain (h : PlainArgs p) : pieces p = p.base.text.toList :: p.args.map bareText := by
  have harg : p.args.flatMap argPieces = p.args.map bareText := by
    rw [← flatMap_singleton' (p.args.map bareText), flatMap_map]
    refine flatMap_congr fun t ht => ?_
    obtain ⟨n, rfl, hn⟩ := h.args t ht
    simp [argPieces, bareText, Ty.toString, chunks_plain hn]
  have hfun : p.args.flatMap (fun t => chunks (sanitize t.toString)) = p.args.flatMap argPieces := by
    refine flatMap_congr fun t ht => ?_
    obtain ⟨n, rfl, hn⟩ := h.args t ht
    simp [argPieces, Ty.toString, sanitize_ident]
  unfold pieces
  cases p.kind <;> simp [chunks_plain h.base, hfun, harg]

theorem plainArgs_injective : ∀ {xs ys : List Ty},
    (∀ t ∈ xs, ∃ n : Ident, t = .named n [] ∧ '_' ∉ n.text.toList) →
    (∀ t ∈ ys, ∃ n : Ident, t = .named n [] ∧ '_' ∉ n.text.toList) →
    xs.map bareText = ys.map bareText → xs = ys
  | [], [], _, _, _ => rfl
  | [], _ :: _, _, _, h | _ :: _, [], _, _, h => by simp at h
  | x :: xs, y :: ys, hx, hy, h => by
    simp only [map_cons, List.cons.injEq] at h
    obtain ⟨n, rfl, _⟩ := hx x mem_cons_self
    obtain ⟨m, rfl, _⟩ := hy y mem_cons_self
    have hnm : n.text = m.text := String.toList_injective h.1
    obtain rfl : n = m := by
      cases n
      cases m
      simpa using hnm
    rw [plainArgs_injective (fun t ht => hx t (mem_cons_of_mem _ ht))
      (fun t ht => hy t (mem_cons_of_mem _ ht)) h.2]

/-- **Plain instances never share.** -/
theorem plain_never_shared (T : Templates) (hp : PlainArgs p) (hq : PlainArgs q) : NeverShared T p q := by
  intro _ _ hne rs hm
  obtain ⟨hk, hmn⟩ := run_sound T rs hm
  have hpieces := (mangled_eq_iff p q).mp hmn
  rw [pieces_plain hp, pieces_plain hq, List.cons.injEq] at hpieces
  refine hne ?_
  obtain ⟨pk, ⟨pb, pc⟩, pa⟩ := p
  obtain ⟨qk, ⟨qb, qc⟩, qa⟩ := q
  obtain rfl : pk = qk := hk
  obtain rfl : pb = qb := String.toList_injective hpieces.1
  obtain rfl : pa = qa := plainArgs_injective hp.args hq.args hpieces.2
  rfl

/-- `Cell<Pair>` and `Cell<Cell>`. -/
theorem plain_never_shared_cell : NeverShared ⟨[(cellIdent, 1)], [], []⟩ ⟨.struct, cellIdent, [.named pairIdent []]⟩
    ⟨.struct, cellIdent, [.named cellIdent []]⟩ :=
  plain_never_shared _ ⟨by decide, by simp; decide⟩ ⟨by decide, by simp; decide⟩

end Vyb.Codegen.Monomorph
