import Jackfruit.EngineInv
import Jackfruit.Progress
import Mathlib.Algebra.BigOperators.Group.Finset.Basic

/-!
# The work that is left to the shutdown

After a SIGINT or a SIGTERM the main thread goes straight through `run_supervisor`, and the reaper
waits for the children until none is left. `mainWork` counts the steps that the main thread still
has to take, and `reaping` those of the children and the reaper. A step of any other thread adds
nothing to them, except that a start that clones adds the three steps of one more child.
-/

set_option linter.unusedSectionVars false

namespace Jackfruit

/-- The steps of the main thread and of the accept loop's way out. -/
def Event.isMain : Event → Bool
  | .loopTest | .acceptFail | .stopAll | .logShutdown | .joinConsumer | .joinReaper => true
  | _ => false

/-- The end of a child, and the steps of the reaper. -/
def Event.isEnd : Event → Bool
  | .exit _ _ | .waitpid _ | .reap | .reaperExit => true
  | _ => false

/-- What a new child adds. -/
def Event.newWork : Event → ℕ
  | .clone _ (.ok _) => 3
  | _ => 0

/-- The steps from here to the end of the reaper's loop body for the child. -/
def ChildLife.work : ChildLife → ℕ
  | .alive => 3
  | .zombie _ => 2
  | .reaped _ => 1
  | .handled _ _ => 0

/-- The steps that are left of a child, if there is one. -/
def childWork (c : Option Child) : ℕ :=
  c.elim 0 fun c => c.life.work

/-- The `break` of the reaper. -/
def ReaperPc.work : ReaperPc → ℕ
  | .exited => 0
  | _ => 1

/-- The steps of the main thread, with `closing` for those of `log_buffer_shutdown` and the join of
the consumer. -/
def MainPc.work (closing : ℕ) : MainPc → ℕ
  | .accepting => 11
  | .loop => 10
  | .stopAll => 9
  | .logShutdown => 8
  | .joinConsumer => closing
  | .joinReaper => 1
  | .returned => 0

namespace Engine

variable {s s' : Engine} {e : Event} {h : ℕ} {c c' : Child}

/-- The steps of the children. -/
def childrenWork (cloned : List ℕ) (child : ℕ → Option Child) : ℕ :=
  ∑ h ∈ cloned.toFinset, childWork (child h)

/-- The steps of the children and of the reaper. -/
def reaping (s : Engine) : ℕ :=
  childrenWork s.cloned s.child + s.reaper.work

/-- One child moves on. -/
theorem childrenWork_update (hmem : h ∈ s.cloned) (hc : s.child h = some c) (c' : Child) :
    childrenWork s.cloned (Function.update s.child h (some c')) + c.life.work =
      childrenWork s.cloned s.child + c'.life.work := by
  have hmem' := List.mem_toFinset.mpr hmem
  have hrest : ∑ g ∈ s.cloned.toFinset.erase h, childWork (Function.update s.child h (some c') g) =
      ∑ g ∈ s.cloned.toFinset.erase h, childWork (s.child g) :=
    Finset.sum_congr rfl fun g hg => by rw [Function.update_of_ne (Finset.ne_of_mem_erase hg)]
  rw [childrenWork, childrenWork, ← Finset.add_sum_erase _ _ hmem',
    ← Finset.add_sum_erase _ (fun g => childWork (s.child g)) hmem', hrest,
    Function.update_self, hc]
  simp only [childWork, Option.elim_some]
  omega

/-- A child is born. -/
theorem childrenWork_clone (hmem : h ∉ s.cloned) (c : Child) :
    childrenWork (h :: s.cloned) (Function.update s.child h (some c)) =
      childrenWork s.cloned s.child + c.life.work := by
  have hmem' : h ∉ s.cloned.toFinset := fun hh => hmem (List.mem_toFinset.mp hh)
  have hrest : ∑ g ∈ s.cloned.toFinset, childWork (Function.update s.child h (some c) g) =
      ∑ g ∈ s.cloned.toFinset, childWork (s.child g) := by
    refine Finset.sum_congr rfl fun g hg => ?_
    rw [Function.update_of_ne (ne_of_mem_of_not_mem hg hmem')]
  rw [childrenWork, childrenWork, List.toFinset_cons, Finset.sum_insert hmem', hrest,
    Function.update_self, add_comm]
  rfl

/-- The handlers that are listed have a child. -/
theorem child_of_cloned {C : Engine → Event → Prop} (hr : Transition.Run Engine.step C init s)
    (hmem : h ∈ s.cloned) : ∃ c, s.child h = some c := by
  revert h
  refine hr.invariant_of_reached (I := fun t => ∀ {h}, h ∈ t.cloned → ∃ c, t.child h = some c)
    (fun hmem => by simp [init] at hmem) fun t e u ht ih _ hs h hmem => ?_
  cases step_effect hs with
  | clone g i pid hpc hfree =>
    rcases List.mem_cons.mp hmem with rfl | hmem
    · exact ⟨_, Function.update_self _ _ _⟩
    · obtain ⟨c, hc⟩ := ih hmem
      obtain ⟨c', hc', -⟩ := (Wf.of_run ht).child_step (step_effect hs) hc
      exact ⟨c', hc'⟩
  | _ =>
    obtain ⟨c, hc⟩ := ih hmem
    obtain ⟨c', hc', -⟩ := (Wf.of_run ht).child_step (step_effect hs) hc
    exact ⟨c', hc'⟩

/-- The steps of the children and of the reaper bring them nearer to their end. -/
theorem reaping_end (hcloned : ∀ h c, s.child h = some c → h ∈ s.cloned)
    (hs : s.step e = some s') (he : e.isEnd = true) : s'.reaping + 1 = s.reaping := by
  replace hs := (step_next hs).2
  cases e with
  | exit h status =>
    simp only [next, reaperStep] at hs
    split at hs
    · rename_i pid hc
      split_ifs at hs
      cases hs
      have hsum := childrenWork_update (hcloned h _ hc) hc ⟨pid, .zombie status⟩
      change _ + 3 = _ + 2 at hsum
      change childrenWork s.cloned (Function.update s.child h _) + s.reaper.work + 1 =
        childrenWork s.cloned s.child + s.reaper.work
      omega
    · cases hs
  | waitpid h =>
    simp only [next, reaperStep] at hs
    split at hs
    · rename_i pid status hr hc
      cases hs
      have hsum := childrenWork_update (hcloned h _ hc) hc ⟨pid, .reaped status⟩
      change _ + 2 = _ + 1 at hsum
      change childrenWork s.cloned (Function.update s.child h _) + 1 + 1 =
        childrenWork s.cloned s.child + s.reaper.work
      rw [hr]
      change _ = _ + 1
      omega
    · cases hs
  | reap =>
    simp only [next, reaperStep] at hs
    split at hs
    · rename_i h hr
      split at hs
      · rename_i pid status hc
        cases hs
        have hsum := childrenWork_update (hcloned h _ hc) hc
          ⟨pid, .handled status ((findContainerByPid s.table pid).map fun i =>
            (i, reapState (s.table i).stopRequested status))⟩
        change _ + 1 = _ + 0 at hsum
        change childrenWork s.cloned (Function.update s.child h _) + 1 + 1 =
          childrenWork s.cloned s.child + s.reaper.work
        rw [hr]
        change _ = _ + 1
        omega
      · cases hs
    · cases hs
  | reaperExit =>
    simp only [next, reaperStep] at hs
    split_ifs at hs with hc
    cases hs
    rw [reaping, reaping, hc.1]
    rfl
  | _ => cases he

/-- The other steps add no more than a new child. -/
theorem reaping_other (w : Wf s) (hchild : ∀ h ∈ s.cloned, ∃ c, s.child h = some c)
    (hs : s.step e = some s') (he : e.isEnd = false) : s'.reaping ≤ s.reaping + e.newWork := by
  cases step_effect hs with
  | clone h idx pid hpc hfree =>
    have hmem : h ∉ s.cloned := fun hmem => by
      obtain ⟨c, hc⟩ := hchild h hmem
      simp [w.unborn h (by rw [hpc]; rfl)] at hc
    have hsum := childrenWork_clone hmem ⟨pid, .alive⟩
    change childrenWork (h :: s.cloned) (Function.update s.child h _) + s.reaper.work ≤
      childrenWork s.cloned s.child + s.reaper.work + 3
    change _ = _ + 3 at hsum
    omega
  | reaperExit | exit | waitpid | reap => cases he
  | _ => exact Nat.le_add_right _ _

/-- Once it has been told to stop, the main thread goes straight on. -/
theorem main_work (hs : s.step e = some s') (hrun : s.running = false) {closing : ℕ}
    (hlo : 1 < closing) (hhi : closing < 8) :
    s'.main.work closing + e.isMain.toNat ≤ s.main.work closing := by
  by_cases he : e.isMain = true
  · replace hs := (step_next hs).2
    rw [he, Bool.toNat_true]
    cases e with
    | loopTest | acceptFail =>
      simp only [next, mainStep] at hs
      obtain ⟨hm, hs⟩ := Option.ite_none_right_eq_some.mp hs
      cases hs
      simp [MainPc.work, hm, hrun]
    | stopAll | logShutdown | joinConsumer =>
      simp only [next, mainStep] at hs
      split_ifs at hs with hm
      cases hs
      simp only [MainPc.work, hm]
      omega
    | joinReaper =>
      simp only [next, mainStep] at hs
      split_ifs at hs with hm
      cases hs
      simp [MainPc.work, hm.1]
    | _ => cases he
  · rw [Bool.eq_false_iff.mpr he]
    cases step_effect hs with
    | control e running main hm => cases hm <;> first | exact absurd rfl he | exact le_refl _
    | handler e h hd main _ hmain =>
      rcases hmain with rfl | ⟨hold, rfl⟩
      · exact le_refl _
      · rw [hold]
        exact Nat.le_succ 10
    | stopAll => exact absurd rfl he
    | _ => exact le_refl _

theorem running_step (hs : s.step e = some s') (hrun : s.running = false) :
    s'.running = false := by
  cases step_effect hs with
  | control e running main hm =>
    cases hm with
    | signal | logShutdown => rfl
    | _ => exact hrun
  | _ => exact hrun

end Engine

end Jackfruit
