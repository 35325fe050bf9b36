/-
  Subject:   A keyed store that is written again and again, each write in the place of the last one
             under its key.

  * `overwrite`, `replay` -- one write, a sequence of writes into the empty store;
  * `lookup_overwrite` -- reading after a write; `lookup_eq_some_iff_mem` -- what is read is there;
  * `replay_keys_nodup`, `mem_of_mem_replay`, `replay_of_nodup` -- every key once, only what was
    written, and without a repeated key exactly that;
  * `forall_mem_replay_iff` -- nothing that was written is lost exactly if no two different writes
    have one key.
-/
import Mathlib.Tactic

namespace Vyb.Lib

open List

universe u v

variable {K : Type u} {V : Type v} [DecidableEq K]

def overwrite (store : List (K × V)) (w : K × V) : List (K × V) :=
  store.filter (fun e => e.1 ≠ w.1) ++ [w]

def replay (ws : List (K × V)) : List (K × V) := ws.foldl overwrite []

variable {store : List (K × V)} {e : K × V}

theorem mem_overwrite {w : K × V} : e ∈ overwrite store w ↔ e = w ∨ e ∈ store ∧ e.1 ≠ w.1 := by
  simp [overwrite, or_comm]

theorem lookup_overwrite [BEq K] [LawfulBEq K] (store : List (K × V)) (w : K × V) (k : K) :
    (overwrite store w).lookup k = if k = w.1 then some w.2 else store.lookup k := by
  rw [overwrite, lookup_append, lookup_cons, lookup_nil]
  induction store with
  | nil =>
    by_cases hk : k = w.1
    · simp [hk]
    · simp [hk, beq_eq_false_iff_ne.mpr hk]
  | cons e store ih =>
    by_cases he : e.1 = w.1
    · rw [filter_cons_of_neg (by simpa using he), ih]
      by_cases hk : k = w.1
      · simp [hk]
      · rw [if_neg hk, if_neg hk, lookup_cons, he, beq_eq_false_iff_ne.mpr hk]
    · rw [filter_cons_of_pos (by simpa using he), lookup_cons, lookup_cons]
      by_cases hk : k = e.1
      · simp [hk, he]
      · rw [beq_eq_false_iff_ne.mpr hk]
        exact ih

theorem overwrite_keys_nodup (h : (store.map Prod.fst).Nodup) (w : K × V) :
    ((overwrite store w).map Prod.fst).Nodup := by
  rw [overwrite, map_append, map_singleton]
  refine List.Nodup.append (h.sublist (filter_sublist.map _)) (nodup_singleton _) ?_
  simp [List.Disjoint]

theorem replay_append_singleton (ws : List (K × V)) (w : K × V) :
    replay (ws ++ [w]) = overwrite (replay ws) w := by
  simp [replay]

theorem replay_keys_nodup (ws : List (K × V)) : ((replay ws).map Prod.fst).Nodup := by
  induction ws using reverseRecOn with
  | nil => exact nodup_nil
  | append_singleton ws w ih =>
    rw [replay_append_singleton]
    exact overwrite_keys_nodup ih w

variable {ws : List (K × V)}

theorem mem_of_mem_replay (h : e ∈ replay ws) : e ∈ ws := by
  induction ws using reverseRecOn with
  | nil => exact h
  | append_singleton ws w ih =>
    rw [replay_append_singleton, mem_overwrite] at h
    rcases h with rfl | ⟨h, -⟩
    · simp
    · exact mem_append_left _ (ih h)

omit [DecidableEq K] in
/-- Where every key is there once, reading finds what is there. -/
theorem lookup_eq_some_iff_mem [BEq K] [LawfulBEq K] (h : (store.map Prod.fst).Nodup) {k : K} {v : V} :
    store.lookup k = some v ↔ (k, v) ∈ store := by
  rw [lookup_eq_some_iff]
  constructor
  · rintro ⟨l, r, rfl, -⟩
    simp
  · intro hmem
    obtain ⟨l, r, rfl⟩ := append_of_mem hmem
    refine ⟨l, r, rfl, fun e he => ?_⟩
    rw [map_append, nodup_append'] at h
    have hne : k ≠ e.1 := fun hk => h.2.2 (mem_map_of_mem he) (by simp [hk])
    simpa using hne

theorem exists_mem_replay {w : K × V} (h : w ∈ ws) : ∃ e ∈ replay ws, e.1 = w.1 := by
  induction ws using reverseRecOn with
  | nil => cases h
  | append_singleton ws w' ih =>
    rw [replay_append_singleton]
    by_cases hkey : w.1 = w'.1
    · exact ⟨w', mem_overwrite.mpr (.inl rfl), hkey.symm⟩
    · rcases mem_append.mp h with h | h
      · obtain ⟨e, he, hew⟩ := ih h
        exact ⟨e, mem_overwrite.mpr (.inr ⟨he, hew ▸ hkey⟩), hew⟩
      · exact absurd (congrArg Prod.fst (mem_singleton.mp h)) hkey

theorem eq_of_mem_replay {e' : K × V} (h : e ∈ replay ws) (h' : e' ∈ replay ws) (hkey : e.1 = e'.1) :
    e = e' :=
  inj_on_of_nodup_map (replay_keys_nodup ws) h h' hkey

/-- **Nothing is lost** exactly if no two different writes have one key. -/
theorem forall_mem_replay_iff : (∀ w ∈ ws, w ∈ replay ws) ↔ ∀ w ∈ ws, ∀ w' ∈ ws, w.1 = w'.1 → w = w' := by
  constructor
  · intro h w hw w' hw' hkey
    exact eq_of_mem_replay (h w hw) (h w' hw') hkey
  · intro h w hw
    obtain ⟨e, he, hkey⟩ := exists_mem_replay hw
    rwa [← h e (mem_of_mem_replay he) w hw hkey]

/-- Without a repeated key the store is what was written, in this order. -/
theorem replay_of_nodup (h : (ws.map Prod.fst).Nodup) : replay ws = ws := by
  induction ws using reverseRecOn with
  | nil => rfl
  | append_singleton ws w ih =>
    rw [map_append, nodup_append'] at h
    obtain ⟨hws, -, hdisj⟩ := h
    rw [replay_append_singleton, ih hws, overwrite, filter_eq_self.mpr]
    intro e he
    have hne : e.1 ≠ w.1 := fun hkey => hdisj (mem_map_of_mem he) (by simp [hkey])
    simpa using hne

end Vyb.Lib
