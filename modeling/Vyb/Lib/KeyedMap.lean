/-
  Subject:   A list of entries read as a finite map over the CLASSES of its keys.

  A keyed container compares keys with a user-supplied test, so two keys may be the same key to
  it without being equal. `cls : K → κ` names the class of a key; the map a list of entries
  stands for is `toMap cls es : Finmap (fun _ : κ => V)` (the first entry of a class wins).

  * `lookup_toMap` -- looking a class up is finding the first entry of the class;
  * `card_toMap` -- with distinct classes the map has as many keys as the list has entries;
  * `toMap_insert_mid`, `toMap_update_mid` -- inserting an entry of a fresh class anywhere, and
    overwriting the value of an entry, are both `Finmap.insert`;
  * `lookup_foldl_insert_last` -- of several insertions of one class the last wins.
-/
import Mathlib.Data.Finmap
import Mathlib.Tactic

namespace Vyb.Lib

open List Finmap

universe u v w

variable {K : Type u} {V : Type v} {κ : Type w} [DecidableEq κ]

/-- The finite map a list of entries stands for. -/
def toMap (cls : K → κ) (es : List (K × V)) : Finmap (fun _ : κ => V) :=
  es.foldr (fun e m => m.insert (cls e.1) e.2) ∅

/-- No two entries have keys of one class. -/
def Distinct (cls : K → κ) (es : List (K × V)) : Prop :=
  es.Pairwise fun e e' => cls e.1 ≠ cls e'.1

variable {pre post es : List (K × V)} {q : κ} {k : K} {v : V}

section Lookup

variable (cls : K → κ)

@[simp] theorem toMap_nil : toMap cls ([] : List (K × V)) = ∅ := rfl

@[simp] theorem toMap_cons (e : K × V) (es : List (K × V)) :
    toMap cls (e :: es) = (toMap cls es).insert (cls e.1) e.2 := rfl

/-- **Looking a class up finds its first entry.** -/
theorem lookup_toMap (q : κ) :
    ∀ es : List (K × V),
      (toMap cls es).lookup q = (es.find? fun e => decide (cls e.1 = q)).map (·.2)
  | [] => rfl
  | e :: es => by
    rw [toMap_cons]
    by_cases h : cls e.1 = q
    · subst h
      simp
    · have hne : q ≠ cls e.1 := fun hq => h hq.symm
      rw [lookup_insert_of_ne _ hne, lookup_toMap q es]
      simp [h]

theorem lookup_toMap_of_forall_ne (h : ∀ e ∈ es, cls e.1 ≠ q) : (toMap cls es).lookup q = none := by
  rw [lookup_toMap]
  have hf : (es.find? fun e => decide (cls e.1 = q)) = none := by
    rw [find?_eq_none]
    intro e he
    simpa using h e he
  rw [hf]
  rfl

/-- An entry none of whose predecessors has its class is the one that is found. -/
theorem lookup_toMap_mid (hk : cls k = q) (hpre : ∀ e ∈ pre, cls e.1 ≠ q) :
    (toMap cls (pre ++ (k, v) :: post)).lookup q = some v := by
  rw [lookup_toMap, find?_append]
  have hf : (pre.find? fun e => decide (cls e.1 = q)) = none := by
    rw [find?_eq_none]
    intro e he
    simpa using hpre e he
  rw [hf]
  simp [hk]

theorem lookup_toMap_skip {e : K × V} (hk : cls e.1 ≠ q) :
    (toMap cls (pre ++ e :: post)).lookup q = (toMap cls (pre ++ post)).lookup q := by
  rw [lookup_toMap, lookup_toMap, find?_append, find?_append]
  simp [hk]

end Lookup

section Update

variable {cls : K → κ}

theorem mem_toMap : q ∈ toMap cls es ↔ ∃ e ∈ es, cls e.1 = q := by
  induction es with
  | nil => simp [notMem_empty]
  | cons e es ih =>
    rw [toMap_cons, mem_insert, ih]
    constructor
    · rintro (rfl | ⟨e', he', rfl⟩)
      · exact ⟨e, mem_cons_self, rfl⟩
      · exact ⟨e', mem_cons_of_mem _ he', rfl⟩
    · rintro ⟨e', he', rfl⟩
      rcases mem_cons.mp he' with rfl | h
      · exact .inl rfl
      · exact .inr ⟨e', h, rfl⟩

/-- **Distinct classes: as many keys as entries.** -/
theorem card_toMap (h : Distinct cls es) : (toMap cls es).keys.card = es.length := by
  have hk : (toMap cls es).keys = (es.map fun e => cls e.1).toFinset := by
    ext q
    rw [Finmap.mem_keys, mem_toMap]
    simp
  rw [hk, toFinset_card_of_nodup]
  · simp
  · rw [List.Nodup, pairwise_map]
    exact h

/-- **Inserting an entry of a fresh class, anywhere in the list, inserts into the map.** -/
theorem toMap_insert_mid (hf : ∀ e ∈ pre, cls e.1 ≠ cls k) :
    toMap cls (pre ++ (k, v) :: post) = (toMap cls (pre ++ post)).insert (cls k) v := by
  apply ext_lookup
  intro q
  by_cases h : cls k = q
  · subst h
    rw [lookup_toMap_mid cls rfl hf, lookup_insert]
  · have hne : q ≠ cls k := fun hq => h hq.symm
    rw [lookup_toMap_skip cls h, lookup_insert_of_ne _ hne]

/-- **Overwriting the value of an entry inserts into the map.** -/
theorem toMap_update_mid {k' : K} {v' : V} (hk : cls k' = cls k) (hf : ∀ e ∈ pre, cls e.1 ≠ cls k) :
    toMap cls (pre ++ (k', v) :: post) =
      (toMap cls (pre ++ (k', v') :: post)).insert (cls k) v := by
  rw [toMap_insert_mid (k := k') (v := v) (fun e he => hk ▸ hf e he),
    toMap_insert_mid (k := k') (v := v') (fun e he => hk ▸ hf e he), ← hk]
  apply ext_lookup
  intro q
  by_cases h : q = cls k'
  · subst h
    rw [lookup_insert, lookup_insert]
  · rw [lookup_insert_of_ne _ h, lookup_insert_of_ne _ h, lookup_insert_of_ne _ h]

theorem lookup_foldl_insert_of_ne {q : κ} : ∀ {ops : List (K × V)} (r : Finmap (fun _ : κ => V)),
    (∀ op ∈ ops, cls op.1 ≠ q) → (ops.foldl (fun r op => r.insert (cls op.1) op.2) r).lookup q = r.lookup q
  | [], _, _ => rfl
  | op :: ops, r, h => by
    rw [foldl_cons, lookup_foldl_insert_of_ne _ fun o ho => h o (mem_cons_of_mem _ ho),
      lookup_insert_of_ne r (h op mem_cons_self).symm]

/-- **The last insertion of a class wins.** -/
theorem lookup_foldl_insert_last {before after : List (K × V)} (r : Finmap (fun _ : κ => V))
    (h : ∀ op ∈ after, cls op.1 ≠ cls k) :
    ((before ++ (k, v) :: after).foldl (fun r op => r.insert (cls op.1) op.2) r).lookup (cls k) = some v := by
  rw [foldl_append, foldl_cons, lookup_foldl_insert_of_ne _ h, lookup_insert]

end Update

end Vyb.Lib
