/-
  Subject:   The order in which modules are resolved, and import cycles.

  * **`module_order`** -- cycles are found, and without one the order is topological;
  * `module_order_three` -- three modules.
-/
import Vyb.Modules.Runs

namespace Vyb.Modules

open Lib Relation

/-- Nothing beyond the soundness of the recursion. -/
def Invariant.trivial (env : Environment) (root : Key) (source : Source) : Invariant env root source where
  between _ := True
  within _ _ _ _ _ := True
  spelled _ := True.intro
  start _ _ _ _ _ := True.intro
  outside _ := True.intro
  own _ _ _ := True.intro
  skipped _ _ _ := True.intro
  nested _ _ _ _ _ _ _ := True.intro
  imported _ _ _ _ _ _ _ _ := .true _
  finish _ _ _ _ := True.intro

theorem resolveRoot_ends (env : Environment) (source : Source) (fileName : Name) :
    Ends (resolveRoot env source fileName .empty)
      (fun _ s => Sound env (env.normalizePath fileName) source s.progress ∧
        env.normalizePath fileName ∈ s.topologicalOrder)
      (fun e _ => Failing env (env.normalizePath fileName) source e) := by
  refine (resolveRoot_run (.trivial env (env.normalizePath fileName) source) True.intro).mono
    (fun body s' h => ?_) fun _ _ h => h
  obtain ⟨s, hs, rfl⟩ := h
  refine ⟨?_, hs.resolved⟩
  rw [progress_updateRecord s (env.normalizePath fileName) _ rfl]
  exact hs.sound

/-- **Module order.** For every file system and every root: if the root reaches an import cycle,
    `resolveRoot` throws (`outOfFuel`, which the code does not have, is none of the errors here).
    Otherwise it fails for another reason, or it succeeds, and then the order has
    exactly the modules that the root reaches, each once and behind all that it imports. Whatever state
    a resolution starts from, at its end, also by an exception, the stack is what it was. -/
theorem module_order (env : Environment) (source : Source) (fileName : Name) :
    (Cyclic env (env.normalizePath fileName) source →
      ∃ e s, resolveRoot env source fileName .empty = .error e s ∧
        (e.isCircular = true ∨ e.isOther = true)) ∧
    (¬Cyclic env (env.normalizePath fileName) source →
      (∃ e s, resolveRoot env source fileName .empty = .error e s ∧ e.isOther = true) ∨
      ∃ body s, resolveRoot env source fileName .empty = .ok body s ∧
        s.topologicalOrder.Nodup ∧
        (∀ k, k ∈ s.topologicalOrder ↔
          ReflTransGen (Imports env (env.normalizePath fileName) source)
            (env.normalizePath fileName) k) ∧
        ∀ pre k post, s.topologicalOrder = pre ++ k :: post →
          ∀ j, Imports env (env.normalizePath fileName) source k j → j ∈ pre) ∧
    ∀ fuel path source spelling s, Ends (resolveModule env fuel path source spelling s)
      (fun _ s' => s'.activeStack = s.activeStack) (fun _ s' => s'.activeStack = s.activeStack) := by
  have hends := resolveRoot_ends env source fileName
  refine ⟨fun hcyclic => ?_, fun hacyclic => ?_, resolveModule_stack env⟩
  · cases hrun : resolveRoot env source fileName .empty with
    | error e s =>
      rw [hrun] at hends
      exact ⟨e, s, rfl, hends.symm.imp_left And.left⟩
    | ok body s =>
      rw [hrun] at hends
      obtain ⟨hsound, hroot⟩ := hends
      obtain ⟨k, hreach, hcycle⟩ := hcyclic
      exact absurd hcycle (hsound.sorted.not_cyclic (hsound.sorted.mem_of_reach hroot hreach))
  · cases hrun : resolveRoot env source fileName .empty with
    | error e s =>
      rw [hrun] at hends
      exact .inl ⟨e, s, rfl, hends.resolve_right fun h => hacyclic h.2⟩
    | ok body s =>
      rw [hrun] at hends
      obtain ⟨hsound, hroot⟩ := hends
      exact .inr ⟨body, s, rfl, hsound.sorted.nodup, fun k => ⟨fun hk => hsound.reached k (.inl hk),
        hsound.sorted.mem_of_reach hroot⟩, fun _ _ _ => hsound.sorted.before⟩

/-- Three modules: `main` imports `a` and `b`, and `a` imports `b`. -/
def threeModules : Environment := .ofModules
  [("/a.vyb".toList, plainModule [importOf "b".toList []]), ("/b.vyb".toList, plainModule [])]

def threeMain : Source := .ok (plainModule [importOf "a".toList [], importOf "b".toList []])

theorem module_order_three : ∃ body s,
    resolveRoot threeModules threeMain "/main.vyb".toList .empty = .ok body s ∧
    s.topologicalOrder = ["/b.vyb".toList, "/a.vyb".toList, "/main.vyb".toList] ∧
    ∀ k, k ∈ s.topologicalOrder ↔
      ReflTransGen (Imports threeModules "/main.vyb".toList threeMain) "/main.vyb".toList k := by
  obtain ⟨hcyclic, horder, -⟩ := module_order threeModules threeMain "/main.vyb".toList
  obtain ⟨body, s, hrun, hs⟩ : ∃ body s,
      resolveRoot threeModules threeMain "/main.vyb".toList .empty = .ok body s ∧
      s.topologicalOrder = ["/b.vyb".toList, "/a.vyb".toList, "/main.vyb".toList] :=
    ⟨_, _, rfl, rfl⟩
  rw [hrun] at hcyclic horder
  have hacyclic : ¬Cyclic threeModules "/main.vyb".toList threeMain := fun h => by
    obtain ⟨e, s', he, -⟩ := hcyclic h
    cases he
  rcases horder hacyclic with ⟨e, s', he, -⟩ | ⟨body', s', heq, -, hreach, -⟩
  · cases he
  · obtain ⟨rfl, rfl⟩ := EStateM.Result.ok.inj heq
    exact ⟨body, s, hrun, hs, hreach⟩

end Vyb.Modules
