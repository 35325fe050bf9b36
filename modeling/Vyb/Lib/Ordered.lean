/-
  Subject:   Sorted lists of entries as finite maps, and lists woven from separators.

  * `OrdKey` -- a three-way compare that is a total preorder; `lt` and the class of a key;
  * `putList` -- the sorted-list `put` (overwrite an equal key, insert a new one);
    `putList_append_lt` and `putList_append_gt` confine it to the middle of a list whose ends
    lie below and above the key, `putList_spec` says it is `Finmap.insert`; `putLists` is one after the other;
  * `weave ss xs` -- `s₀, x₀, s₁, x₁, …`, the in-order contents of a search-tree node with
    separators `xs`; `weave_split` opens it at one position, `lefts_lt` and `rights_gt` say
    that what stands before and after lies below and above the key.
-/
import Vyb.Lib.KeyedMap

namespace Vyb.Lib

open List

universe u v

/-- A key type with a three-way `compare` that is a total preorder (keys that compare equal
    need not be identical). -/
structure OrdKey (K : Type u) where
  compare : K → K → Int
  flip : ∀ a b, compare a b < 0 ↔ 0 < compare b a
  le_trans : ∀ a b c, compare a b ≤ 0 → compare b c ≤ 0 → compare a c ≤ 0

namespace OrdKey

variable {K : Type u} (O : OrdKey K)

def lt (a b : K) : Prop := O.compare a b < 0

instance decLt (a b : K) : Decidable (O.lt a b) := inferInstanceAs (Decidable (_ < _))

variable {a b : K}

theorem le_of_not_lt (h : ¬ O.lt a b) : O.compare b a ≤ 0 := by
  have := O.flip a b
  unfold lt at h
  omega

theorem lt_irrefl (a : K) : ¬ O.lt a a := by
  have := O.flip a a
  unfold lt
  omega

theorem lt_asymm (h : O.lt a b) : ¬ O.lt b a := by
  have := O.flip a b
  unfold lt at h ⊢
  omega

variable {c : K}

theorem lt_of_lt_of_not_lt (h : O.lt a b) (h' : ¬ O.lt c b) : O.lt a c := by
  by_contra hc
  have h1 := O.le_trans b c a (O.le_of_not_lt h') (O.le_of_not_lt hc)
  have h2 := (O.flip a b).mp h
  omega

theorem lt_of_not_lt_of_lt (h : ¬ O.lt b a) (h' : O.lt b c) : O.lt a c := by
  by_contra hc
  have h1 := O.le_trans c a b (O.le_of_not_lt hc) (O.le_of_not_lt h)
  have h2 := (O.flip b c).mp h'
  omega

theorem lt_trans (h : O.lt a b) (h' : O.lt b c) : O.lt a c :=
  O.lt_of_lt_of_not_lt h (O.lt_asymm h')

def setoid : Setoid K where
  r a b := ¬ O.lt a b ∧ ¬ O.lt b a
  iseqv := ⟨fun a => ⟨O.lt_irrefl a, O.lt_irrefl a⟩, fun h => ⟨h.2, h.1⟩, fun h h' =>
    ⟨fun hac => h'.1 (O.lt_of_not_lt_of_lt h.1 hac), fun hca => h.2 (O.lt_of_not_lt_of_lt h'.2 hca)⟩⟩

/-- A key up to `compare(a, b) == 0`. -/
def Class : Type u := Quotient O.setoid

def cls (k : K) : O.Class := Quotient.mk O.setoid k

theorem cls_eq : O.cls a = O.cls b ↔ ¬ O.lt a b ∧ ¬ O.lt b a :=
  ⟨Quotient.exact, fun h => Quotient.sound h⟩

theorem cls_ne_of_lt (h : O.lt a b) : O.cls a ≠ O.cls b := fun e => (O.cls_eq.mp e).1 h

theorem cls_ne_of_gt (h : O.lt b a) : O.cls a ≠ O.cls b := fun e => (O.cls_eq.mp e).2 h

instance decClass : DecidableEq O.Class :=
  @Quotient.decidableEq K O.setoid
    fun a b => inferInstanceAs (Decidable (¬ O.lt a b ∧ ¬ O.lt b a))

end OrdKey

/-! ## 1. Sorted lists of entries -/

section Sorted

variable {K : Type u} {V : Type v} (O : OrdKey K)

/-- Strictly increasing keys. -/
def SortedKeys (es : List (K × V)) : Prop := es.Pairwise fun e e' => O.lt e.1 e'.1

variable {es : List (K × V)}

theorem SortedKeys.distinct (h : SortedKeys O es) : Distinct O.cls es :=
  h.imp fun h => O.cls_ne_of_lt h

/-- `put` on a sorted list of entries: an equal key keeps its place and gets the value. -/
def putList (key : K) (val : V) : List (K × V) → List (K × V)
  | [] => [(key, val)]
  | e :: es =>
    if O.lt e.1 key then e :: putList key val es
    else if O.lt key e.1 then (key, val) :: e :: es
    else (e.1, val) :: es

variable {O} {key : K} {val : V} {pre : List (K × V)}

theorem putList_append_lt (h : ∀ e ∈ pre, O.lt e.1 key) (l : List (K × V)) :
    putList O key val (pre ++ l) = pre ++ putList O key val l := by
  induction pre with
  | nil => rfl
  | cons e pre ih =>
    simp only [cons_append, putList]
    rw [if_pos (h e mem_cons_self), ih fun e' he' => h e' (mem_cons_of_mem _ he')]

variable {post : List (K × V)}

theorem putList_of_gt (h : ∀ e ∈ post, O.lt key e.1) : putList O key val post = (key, val) :: post := by
  cases post with
  | nil => rfl
  | cons e post =>
    have he := h e mem_cons_self
    simp only [putList]
    rw [if_neg (O.lt_asymm he), if_pos he]

theorem putList_append_gt (l : List (K × V)) (h : ∀ e ∈ post, O.lt key e.1) :
    putList O key val (l ++ post) = putList O key val l ++ post := by
  induction l with
  | nil => simpa [putList] using putList_of_gt h
  | cons e l ih =>
    simp only [cons_append, putList]
    split
    · rw [ih]
      rfl
    · split <;> rfl

/-- An equal key is overwritten in place. -/
theorem putList_mid_eq (h : ∀ e ∈ pre, O.lt e.1 key) {e : K × V} (h1 : ¬ O.lt e.1 key) (h2 : ¬ O.lt key e.1)
    (post : List (K × V)) : putList O key val (pre ++ e :: post) = pre ++ (e.1, val) :: post := by
  rw [putList_append_lt h]
  simp only [putList, h1, h2, ↓reduceIte]

/-- A new key goes between the smaller and the larger ones. -/
theorem putList_mid_new (h : ∀ e ∈ pre, O.lt e.1 key) (h' : ∀ e ∈ post, O.lt key e.1) :
    putList O key val (pre ++ post) = pre ++ (key, val) :: post := by
  rw [putList_append_lt h, putList_of_gt h']

/-- Where a sorted list meets a key: smaller entries, then an equal one or only larger ones. -/
theorem sorted_cases (hs : SortedKeys O es) (key : K) :
    ∃ pre post, (∀ e ∈ pre, O.lt e.1 key) ∧ (∀ e ∈ post, O.lt key e.1) ∧
      (es = pre ++ post ∨ ∃ e, ¬ O.lt e.1 key ∧ ¬ O.lt key e.1 ∧ es = pre ++ e :: post) := by
  induction es with
  | nil => exact ⟨[], [], by simp, by simp, .inl rfl⟩
  | cons e es ih =>
    rw [SortedKeys, pairwise_cons] at hs
    obtain ⟨pre, post, h1, h2, h3⟩ := ih hs.2
    by_cases hlt : O.lt e.1 key
    · refine ⟨e :: pre, post, fun e' he' => ?_, h2, ?_⟩
      · rcases mem_cons.mp he' with rfl | he'
        · exact hlt
        · exact h1 e' he'
      · rcases h3 with rfl | ⟨e', he1, he2, rfl⟩
        · exact .inl rfl
        · exact .inr ⟨e', he1, he2, rfl⟩
    · by_cases hgt : O.lt key e.1
      · refine ⟨[], e :: es, by simp, fun e' he' => ?_, .inl rfl⟩
        rcases mem_cons.mp he' with rfl | he'
        · exact hgt
        · exact O.lt_trans hgt (hs.1 e' he')
      · exact ⟨[], es, by simp, fun e' he' => O.lt_of_not_lt_of_lt hlt (hs.1 e' he'),
          .inr ⟨e, hlt, hgt, rfl⟩⟩

theorem sorted_mid {e : K × V} (hpre : SortedKeys O pre) (hpost : SortedKeys O post)
    (h1 : ∀ e' ∈ pre, O.lt e'.1 e.1) (h2 : ∀ e' ∈ post, O.lt e.1 e'.1) : SortedKeys O (pre ++ e :: post) := by
  rw [SortedKeys, pairwise_append, pairwise_cons]
  refine ⟨hpre, ⟨h2, hpost⟩, fun a ha b hb => ?_⟩
  rcases mem_cons.mp hb with rfl | hb
  · exact h1 a ha
  · exact O.lt_trans (h1 a ha) (h2 b hb)

/-- **`putList` keeps a list sorted and is `insert` on the map it stands for**; it adds an entry
    exactly when the key is new. -/
theorem putList_spec (hs : SortedKeys O es) (key : K) (val : V) :
    SortedKeys O (putList O key val es) ∧
      toMap O.cls (putList O key val es) = (toMap O.cls es).insert (O.cls key) val ∧
      (putList O key val es).length ≤ es.length + 1 := by
  obtain ⟨pre, post, h1, h2, h3⟩ := sorted_cases hs key
  rcases h3 with rfl | ⟨e, he1, he2, rfl⟩
  · rw [SortedKeys, pairwise_append] at hs
    rw [putList_mid_new h1 h2]
    refine ⟨sorted_mid hs.1 hs.2.1 h1 h2, ?_, by simp only [length_append, length_cons]; omega⟩
    exact toMap_insert_mid fun e he => O.cls_ne_of_lt (h1 e he)
  · rw [SortedKeys, pairwise_append, pairwise_cons] at hs
    rw [putList_mid_eq h1 he1 he2]
    refine ⟨sorted_mid hs.1 hs.2.1.2 (fun e' he' => hs.2.2 e' he' e mem_cons_self)
      hs.2.1.1, ?_, by simp⟩
    exact toMap_update_mid (O.cls_eq.mpr ⟨he1, he2⟩) fun e he => O.cls_ne_of_lt (h1 e he)

theorem mem_putList {e : K × V} : ∀ {es : List (K × V)}, e ∈ putList O key val es →
    e.1 = key ∨ e.1 ∈ es.map (·.1)
  | [], he => by
    rw [putList, mem_singleton] at he
    exact .inl (congrArg (·.1) he)
  | e' :: es, he => by
    rw [putList] at he
    split_ifs at he
    · rcases mem_cons.mp he with rfl | he
      · exact .inr mem_cons_self
      · exact (mem_putList he).imp_right (mem_cons_of_mem _)
    · rcases mem_cons.mp he with rfl | he
      · exact .inl rfl
      · exact .inr (mem_map_of_mem he)
    · rcases mem_cons.mp he with rfl | he
      · exact .inr mem_cons_self
      · exact .inr (mem_cons_of_mem _ (mem_map_of_mem he))

/-- One `put` after the other. -/
def putLists (O : OrdKey K) (es ops : List (K × V)) : List (K × V) :=
  ops.foldl (fun es op => putList O op.1 op.2 es) es

/-- A sequence of `put`s keeps a list sorted and is a sequence of `insert`s on the map; it adds at most one
    entry for each. -/
theorem putLists_spec : ∀ (ops : List (K × V)) {es : List (K × V)}, SortedKeys O es →
    SortedKeys O (putLists O es ops) ∧
      toMap O.cls (putLists O es ops) =
        ops.foldl (fun r op => r.insert (O.cls op.1) op.2) (toMap O.cls es) ∧
      (putLists O es ops).length ≤ es.length + ops.length
  | [], _, hs => ⟨hs, rfl, le_refl _⟩
  | op :: ops, es, hs => by
    obtain ⟨hs', hmap, hlen⟩ := putList_spec hs op.1 op.2
    obtain ⟨hs'', hmap', hlen'⟩ := putLists_spec ops hs'
    refine ⟨hs'', ?_, ?_⟩
    · rw [foldl_cons, ← hmap]
      exact hmap'
    · rw [length_cons]
      exact le_trans hlen' (by omega)

/-- Entries below and above a key do not matter for looking it up. -/
theorem lookup_between {mid : List (K × V)} (h1 : ∀ e ∈ pre, O.lt e.1 key) (h2 : ∀ e ∈ post, O.lt key e.1) :
    (toMap O.cls (pre ++ mid ++ post)).lookup (O.cls key) = (toMap O.cls mid).lookup (O.cls key) := by
  have hpre : (pre.find? fun e => decide (O.cls e.1 = O.cls key)) = none := by
    rw [find?_eq_none]
    intro e he
    simpa using O.cls_ne_of_lt (h1 e he)
  have hpost : (post.find? fun e => decide (O.cls e.1 = O.cls key)) = none := by
    rw [find?_eq_none]
    intro e he
    simpa using O.cls_ne_of_gt (h2 e he)
  rw [lookup_toMap, lookup_toMap, find?_append, find?_append, hpre, hpost]
  simp

end Sorted

/-! ## 2. Woven lists -/

section Weave

variable {α : Type u}

/-- `a₀, x₀, a₁, x₁, …`: each list followed by its separator. -/
def lefts : List (List α) → List α → List α
  | a :: as, x :: xs => a ++ x :: lefts as xs
  | _, _ => []

/-- `y₀, b₀, y₁, b₁, …`: each separator followed by its list. -/
def rights : List α → List (List α) → List α
  | y :: ys, b :: bs => y :: (b ++ rights ys bs)
  | _, _ => []

/-- `s₀, x₀, s₁, x₁, …, sₙ`. -/
def weave : List (List α) → List α → List α
  | [], _ => []
  | s :: ss, xs => s ++ rights xs ss

variable {ss : List (List α)} {xs : List α}

theorem rights_eq_weave {x : α} (h : ss ≠ []) : rights (x :: xs) ss = x :: weave ss xs := by
  cases ss with
  | nil => exact absurd rfl h
  | cons s ss => rfl

/-- **A woven list, opened at one position.** -/
theorem weave_split (s : List α) (B : List (List α)) (Y : List α) :
    ∀ (A : List (List α)) (X : List α), A.length = X.length →
      weave (A ++ s :: B) (X ++ Y) = lefts A X ++ s ++ rights Y B
  | [], [], _ => by simp [weave, lefts]
  | [], _ :: _, h | _ :: _, [], h => by simp at h
  | a :: A, x :: X, h => by
    have ih := weave_split s B Y A X (by simpa using h)
    simp only [cons_append, weave, lefts]
    rw [rights_eq_weave (by simp), ih]
    simp

/-- Splitting one woven list at an entry of its own makes that entry a separator. -/
theorem weave_split_sub (l r : List α) (m : α) (B : List (List α)) (Y : List α) (A : List (List α))
    (X : List α) (h : A.length = X.length) :
    weave (A ++ l :: r :: B) (X ++ m :: Y) = weave (A ++ (l ++ m :: r) :: B) (X ++ Y) := by
  rw [weave_split l (r :: B) (m :: Y) A X h, weave_split (l ++ m :: r) B Y A X h]
  simp [rights]

theorem rights_sublist : ∀ (Y : List α) (B : List (List α)), Y.length ≤ B.length →
    Y.Sublist (rights Y B)
  | [], _, _ => nil_sublist _
  | _ :: _, [], h => by simp at h
  | y :: Y, b :: B, h => by
    have ih := rights_sublist Y B (by simpa using h)
    exact (ih.trans (sublist_append_right b _)).cons_cons y

theorem lefts_sublist : ∀ (A : List (List α)) (X : List α), X.length ≤ A.length →
    X.Sublist (lefts A X)
  | _, [], _ => nil_sublist _
  | [], _ :: _, h => by simp at h
  | a :: A, x :: X, h => by
    have ih := lefts_sublist A X (by simpa using h)
    exact (ih.cons_cons x).trans (sublist_append_right a _)

/-- The separators of a woven list are a sublist of it. -/
theorem weave_sublist (h : ss.length = xs.length + 1) : xs.Sublist (weave ss xs) := by
  cases ss with
  | nil => simp at h
  | cons s ss =>
    exact (rights_sublist xs ss (by simpa using h.ge)).trans (sublist_append_right s _)

theorem length_weave_ge {s : List α} (h : ss.length = xs.length + 1) (hs : s ∈ ss) :
    s.length + xs.length ≤ (weave ss xs).length := by
  obtain ⟨A, B, rfl⟩ := append_of_mem hs
  have hA : A.length ≤ xs.length := by
    simp only [length_append, length_cons] at h
    omega
  have hX : A.length = (xs.take A.length).length := by
    rw [length_take]
    omega
  have hB : (xs.drop A.length).length ≤ B.length := by
    simp only [length_append, length_cons] at h
    rw [length_drop]
    omega
  have e := weave_split s B (xs.drop A.length) A (xs.take A.length) hX
  rw [take_append_drop] at e
  have h1 := (lefts_sublist A (xs.take A.length) hX.ge).length_le
  have h2 := (rights_sublist (xs.drop A.length) B hB).length_le
  have h3 : (xs.take A.length).length + (xs.drop A.length).length = xs.length := by
    rw [← length_append, take_append_drop]
  rw [e]
  simp only [length_append]
  omega

end Weave

section WeaveOrder

variable {K : Type u} {V : Type v} {O : OrdKey K} {key : K}

/-- In a sorted list everything before the last of some smaller separators is smaller. -/
theorem lefts_lt : ∀ {A : List (List (K × V))} {X : List (K × V)}, SortedKeys O (lefts A X) →
    (∀ x ∈ X, O.lt x.1 key) → ∀ e ∈ lefts A X, O.lt e.1 key
  | [], _, _, _, e, he | _ :: _, [], _, _, e, he => by simp [lefts] at he
  | a :: A, x :: X, hs, hX, e, he => by
    have hx := hX x mem_cons_self
    simp only [lefts] at hs he
    rw [SortedKeys, pairwise_append, pairwise_cons] at hs
    rcases mem_append.mp he with he | he
    · exact O.lt_trans (hs.2.2 e he x mem_cons_self) hx
    · rcases mem_cons.mp he with rfl | he
      · exact hx
      · exact lefts_lt hs.2.1.2 (fun x' hx' => hX x' (mem_cons_of_mem _ hx')) e he

/-- In a sorted list everything from the first of some larger separators on is larger. -/
theorem rights_gt : ∀ {Y : List (K × V)} {B : List (List (K × V))}, SortedKeys O (rights Y B) →
    (∀ y ∈ Y, O.lt key y.1) → ∀ e ∈ rights Y B, O.lt key e.1
  | [], _, _, _, e, he | _ :: _, [], _, _, e, he => by simp [rights] at he
  | y :: Y, b :: B, hs, hY, e, he => by
    have hy := hY y mem_cons_self
    simp only [rights] at hs he
    rw [SortedKeys, pairwise_cons] at hs
    rcases mem_cons.mp he with rfl | he
    · exact hy
    · exact O.lt_trans hy (hs.1 e he)

end WeaveOrder

end Vyb.Lib
