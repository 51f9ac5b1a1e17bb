import Jackfruit.RunReply

/-!
# How an end is attributed

The project's rule : a container that was asked to stop is STOPPED, one that SIGKILL ended without
such a request was killed by the monitor and is KILLED, and one that exited by itself is EXITED.
The reaper applies it to the wait status and to `stop_requested` of the slot it finds, but its
test for SIGKILL has the same text in both branches : every other signal without a stop request is
recorded as KILLED too (`crash_recorded_killed`). If the reaper finds the child's own slot and no
such signal comes without a stop request, the record follows the rule, and keeps following it.
-/

set_option linter.unusedSectionVars false

namespace Jackfruit

namespace Engine

variable {s s' : Engine} {e : Event} {i : Slot} {g h : ℕ} {pid : ℤ}

/-- The slot that the reaper finds for a child is the slot of the child's own start, and if no
stop was requested for it, no signal but SIGKILL has ended the child. -/
def ReapByRule (s : Engine) : Event → Prop
  | .reap =>
    match s.reaper with
    | .holding h => ∀ c ∈ s.child h, ∀ i, findContainerByPid s.table c.pid = some i →
        s.owner i = some h ∧ ((s.table i).stopRequested = false →
          ∀ status ∈ c.life.status, wifsignaled status = true → wtermsig status = SIGKILL)
    | _ => True
  | _ => True

instance (s : Engine) (e : Event) : Decidable (ReapByRule s e) := by
  unfold ReapByRule
  generalize s.reaper = r
  rcases e <;> rcases r <;> dsimp only <;> infer_instance

/-- The record `c` is what the project's rule makes of the wait status. -/
structure ByRule (c : Container) (status : ℕ) : Prop where
  state : c.state = reapState c.stopRequested status
  exitCode : c.exitCode = reapExitCode status
  signal : c.stopRequested = false → wifsignaled status = true → wtermsig status = SIGKILL

/-- Every final slot belongs to a child whose end the reaper has recorded in it by the rule. -/
def Attributed (s : Engine) : Prop :=
  ∀ i h, s.Settled i h → (s.table i).state.Final →
    ∃ pid status, s.child h = some ⟨pid, .handled status (some (i, (s.table i).state))⟩ ∧
      ByRule (s.table i) status

/-- What the reaper recorded of a container. -/
def record (c : Container) : ContainerState × ℤ × Bool :=
  (c.state, c.exitCode, c.stopRequested)

/-- A final slot keeps its record unless the reaper finds it for another child. -/
theorem Wf.final_step {c : Container} (w : Wf s) (hi : s.Settled i h)
    (hfin : (s.table i).state.Final) (hs : SlotStep s e i c) :
    record c = record (s.table i) ∨
      ∃ g pid status, e = .reap ∧ s.reaper = .holding g ∧
        s.child g = some ⟨pid, .reaped status⟩ ∧ findContainerByPid s.table pid = some i := by
  cases hs with
  | same | waiters => exact Or.inl rfl
  | stop hlive => exact absurd hfin (not_final_of_isLiveState hlive)
  | reserve g now he hpc hck =>
    have hfree := (startContainerCheck_ok hck).1
    simp [w.used_of_settled hi] at hfree
  | release g text he hpc | publish g pid he hpc =>
    exact absurd (by rw [hpc]; rfl) (w.not_reserved hi g)
  | reap g pid status he hr hc hfind => exact Or.inr ⟨g, pid, status, he, hr, hc, hfind⟩

/-- The record of a final slot is kept. -/
theorem Attributed.record_step (a : Attributed s) (w : Wf s) (hs : Effect s e s')
    (hc : ReapByRule s e) (hi : s.Settled i h) (hfin : (s.table i).state.Final) :
    record (s'.table i) = record (s.table i) := by
  rcases w.final_step hi hfin (step_slot hs i) with heq | ⟨g, pid, status, rfl, hr, hg, hfind⟩
  · exact heq
  · -- The child was handled when the slot became final, so the reaper cannot hold it again.
    simp only [ReapByRule, hr] at hc
    obtain rfl : g = h := Option.some.inj ((hc _ hg i hfind).1.symm.trans hi.1)
    obtain ⟨p, st, hchild, -⟩ := a i g hi hfin
    simp [hg] at hchild

theorem ByRule.of_record {c c' : Container} {status : ℕ} (hb : ByRule c status)
    (h : record c' = record c) : ByRule c' status := by
  obtain ⟨hst, hrest⟩ := Prod.mk.inj h
  obtain ⟨hexit, hstop⟩ := Prod.mk.inj hrest
  refine ⟨?_, hexit.trans hb.exitCode, fun hno => hb.signal (hstop.symm.trans hno)⟩
  rw [hst, hstop]
  exact hb.state

theorem Attributed.step (a : Attributed s) (w : Wf s) (hs : Effect s e s')
    (hc : ReapByRule s e) : Attributed s' := by
  intro i h hi hfin
  rcases w.settled_new hs hi with hold | ⟨pid, rfl, hpc, rfl⟩
  · rcases w.record_step hs hold with ⟨hst, -⟩ | ⟨g, pid, status, rfl, hr, hg, hfind, rfl⟩
    · have hfin₀ : (s.table i).state.Final := hst ▸ hfin
      obtain ⟨pid, status, hchild, hrule⟩ := a i h hold hfin₀
      obtain ⟨c', hc', -, heq⟩ := w.child_step hs hchild
      obtain rfl := heq trivial
      rw [hst]
      exact ⟨pid, status, hc', hrule.of_record (a.record_step w hs hc hold hfin₀)⟩
    · simp only [ReapByRule, hr] at hc
      obtain ⟨ho, hsig⟩ := hc _ hg i hfind
      obtain rfl : g = h := Option.some.inj (ho.symm.trans hold.1)
      have hslot : (s.recorded g pid status).table i = (s.table i).reap status := by
        simp [recorded, reaperUpdate, hfind]
      rw [hslot]
      refine ⟨pid, status, ?_, rfl, rfl, fun hno => hsig hno status rfl⟩
      simp [recorded, hfind, setChild, Container.reap]
  · have hrun : ((s.published h i pid).table i).state = .running := by
      simp [Engine.published, setPc, setHandler, setSlot, Container.publish]
    simp [hrun, ContainerState.Final] at hfin

theorem Attributed.of_run (hr : Transition.Run Engine.step ReapByRule init s) : Attributed s := by
  refine hr.invariant_of_reached (fun i h hi => by simp [Settled, init] at hi) ?_
  exact fun _ _ _ ht a hc hs => a.step (Wf.of_run ht) (step_effect hs) hc

/-- A wait status is of an exit or of a death by signal, not of both. -/
theorem wifsignaled_of_wifexited {status : ℕ} (h : wifexited status = true) :
    wifsignaled status = false := by
  simp only [wifexited, decide_eq_true_eq] at h
  simp [wifsignaled, h]

/-- What each state says of a record that follows the rule. -/
theorem ByRule.state_iff {c : Container} {status : ℕ} (hb : ByRule c status)
    (hok : (wifexited status || wifsignaled status) = true) :
    (c.state = .killed ↔
        wifsignaled status = true ∧ wtermsig status = SIGKILL ∧ c.stopRequested = false) ∧
      (c.state = .stopped ↔ c.stopRequested = true) ∧
      (c.state = .exited ↔ wifexited status = true ∧ c.stopRequested = false) := by
  rw [hb.state, reapState]
  cases hstop : c.stopRequested with
  | true => by_cases hexit : wifexited status = true <;> simp_all
  | false =>
    by_cases hexit : wifexited status = true
    · simp [hexit, wifsignaled_of_wifexited hexit]
    · have hsig : wifsignaled status = true := by simpa [hexit] using hok
      simp [hexit, hsig, hb.signal hstop hsig]

/-- If the reaper always finds the slot of the child's own start, and no signal but SIGKILL ends a
child for which no stop was requested, then the state of every finished container says how it
ended : KILLED if SIGKILL ended its child and no stop was requested, STOPPED if one was, EXITED if
the child exited and none was. The exit code is the child's, or 128 and the signal. State, exit
code and `stop_requested` stay as they were when the reaper recorded the end. -/
theorem ends_attributed (hr : Transition.Run step ReapByRule init s) :
    ∀ i, (s.table i).used = true → (s.table i).state.Final → ∃ h pid status,
      s.owner i = some h ∧
        s.child h = some ⟨pid, .handled status (some (i, (s.table i).state))⟩ ∧
        ((s.table i).state = .killed ↔ wifsignaled status = true ∧ wtermsig status = SIGKILL ∧
          (s.table i).stopRequested = false) ∧
        ((s.table i).state = .stopped ↔ (s.table i).stopRequested = true) ∧
        ((s.table i).state = .exited ↔
          wifexited status = true ∧ (s.table i).stopRequested = false) ∧
        (wifexited status = true ∧ (s.table i).exitCode = wexitstatus status ∨
          wifsignaled status = true ∧ (s.table i).exitCode = 128 + wtermsig status) ∧
        ∀ s', Transition.Run step ReapByRule s s' → record (s'.table i) = record (s.table i) := by
  intro i hu hfin
  have w := Wf.of_run hr
  obtain ⟨h, hi⟩ := w.settled_of_final hu hfin
  obtain ⟨pid, status, hchild, hrule⟩ := Attributed.of_run hr i h hi hfin
  have hok := StatusOk.of_run hr h _ status hchild rfl
  obtain ⟨hkilled, hstopped, hexited⟩ := hrule.state_iff hok
  refine ⟨h, pid, status, hi.1, hchild, hkilled, hstopped, hexited, ?_, fun s' hr' => ?_⟩
  · rw [hrule.exitCode]
    exact reapExitCode_cases hok
  · refine hr'.invariant_of_reached (I := fun t => record (t.table i) = record (s.table i)) rfl ?_
    intro t e u ht heq hc hs
    have hfin' : (t.table i).state.Final := by
      rwa [(Prod.mk.inj heq).1]
    have a := Attributed.of_run (hr.trans ht)
    have hstep := a.record_step (Wf.of_run (hr.trans ht)) (step_effect hs) hc
      (settled_run hr ht hi).1 hfin'
    exact hstep.trans heq

/-- A container that SIGKILL ends. -/
theorem ends_attributed_one : ∃ s : Engine, (s.table 0).state = .killed ∧
    ∃ h pid status, s.owner 0 = some h ∧
      s.child h = some ⟨pid, .handled status (some (0, .killed))⟩ ∧
      wtermsig status = SIGKILL := by
  obtain ⟨s, hr, hu, hst⟩ := Transition.exists_run_of_exec step ReapByRule init
    (playClone 0 REQ_START "a" 7 ++ playPublish 0 ++ [.exit 0 SIGKILL, .waitpid 0, .reap])
    (fun s => (s.table 0).used = true ∧ (s.table 0).state = .killed) (by decide)
  obtain ⟨h, pid, status, ho, hchild, hkilled, -⟩ :=
    ends_attributed hr 0 hu (by simp [hst, ContainerState.Final])
  exact ⟨s, hst, h, pid, status, ho, hst ▸ hchild, (hkilled.mp hst).2.1⟩

/-- A container that crashes with signal 11, without a stop request. No pid is reissued, and the
slot is KILLED. -/
theorem crash_recorded_killed : ∃ s : Engine, Transition.Run step NoReissue init s ∧
    s.owner 0 = some 0 ∧ s.child 0 = some ⟨7, .handled 11 (some (0, .killed))⟩ ∧
      (s.table 0).used = true ∧ (s.table 0).state = .killed ∧
      (s.table 0).stopRequested = false ∧ wtermsig 11 ≠ SIGKILL :=
  Transition.exists_run_of_exec step NoReissue init
    (playClone 0 REQ_START "a" 7 ++ playPublish 0 ++ [.exit 0 11, .waitpid 0, .reap])
    (fun s => s.owner 0 = some 0 ∧ s.child 0 = some ⟨7, .handled 11 (some (0, .killed))⟩ ∧
      (s.table 0).used = true ∧ (s.table 0).state = .killed ∧
      (s.table 0).stopRequested = false ∧ wtermsig 11 ≠ SIGKILL) (by decide)

end Engine

end Jackfruit
