import Jackfruit.LifeCycle

/-!
# Recording the end of a container

The reaper knows a child by its pid, and records its end in the first used slot that has this
pid. That is the slot of the child's own start if the start has published it by then
(`PublishInTime`), if no slot before it and no running one has the same pid when it is published
(`PublishFirst`), and if no slot has the pid of a child whose start has not published it or has
failed (`ReapPublished`).

A pid is only free again once the reaper has waited for its child. It may then come back while
the finished container's slot, or a start that is still at work, goes on using it, and the three
conditions fail (`exit_lost_before_publish`, `finished_record_rewritten`).
-/

set_option linter.unusedSectionVars false

namespace Jackfruit

namespace Engine

variable {s s' : Engine} {e : Event} {i j : Slot} {g h : ℕ} {pid : ℤ}

/-- `clone` hands out no pid that a used slot still records. -/
def NoReissue (s : Engine) : Event → Prop
  | .clone _ (.ok pid) => ∀ i, (s.table i).used = true → (s.table i).pid ≠ pid
  | _ => True

/-- A start publishes a pid that no running slot and no slot before its own records. -/
def PublishFirst (s : Engine) : Event → Prop
  | .publish h =>
    match (s.handler h).pc with
    | .publish idx pid => ∀ j, (s.table j).used = true → (s.table j).pid = pid →
        idx < j ∧ isLiveState (s.table j).state = false
    | _ => True
  | _ => True

/-- A start publishes its slot before the reaper is done with its child. -/
def PublishInTime (s : Engine) : Event → Prop
  | .publish h => ∀ c ∈ s.child h, ¬c.Handled
  | _ => True

/-- The reaper handles a child whose start has published no slot only if no slot records its
pid. -/
def ReapPublished (s : Engine) : Event → Prop
  | .reap =>
    match s.reaper with
    | .holding h => (∀ i, ¬s.Settled i h) → ∀ c ∈ s.child h, findContainerByPid s.table c.pid = none
    | _ => True
  | _ => True

instance (s : Engine) (e : Event) : Decidable (NoReissue s e) := by
  unfold NoReissue
  split <;> infer_instance

instance (s : Engine) (e : Event) : Decidable (PublishFirst s e) := by
  unfold PublishFirst
  split
  · split <;> infer_instance
  · infer_instance

instance (s : Engine) (e : Event) : Decidable (PublishInTime s e) := by
  unfold PublishInTime
  split <;> infer_instance

instance (s : Engine) (e : Event) : Decidable (ReapPublished s e) := by
  unfold ReapPublished
  split
  · split <;> infer_instance
  · infer_instance

/-! ## The first slot with a pid -/

/-- A running slot is the first used slot with its pid. -/
def FirstOfPid (s : Engine) : Prop :=
  ∀ i h, s.Settled i h → (s.table i).state = .running →
    ∀ j, (s.table j).used = true → (s.table j).pid = (s.table i).pid → i ≤ j

/-- A slot that is settled after a step was settled before it or has just been published. -/
theorem Wf.settled_new (w : Wf s) (hs : Effect s e s') (hi : s'.Settled i h) :
    s.Settled i h ∨ ∃ pid, e = .publish h ∧ (s.handler h).pc = .publish i pid ∧
      s' = s.published h i pid := by
  rcases w.frame hs with hf | ⟨g, now, j, -, -, -, rfl⟩ | ⟨g, j, pid, -, -, -, rfl⟩ |
    ⟨g, j, text, -, -, rfl⟩ | ⟨g, j, pid, rfl, hpc, rfl⟩
  · refine Or.inl ⟨hf.owner ▸ hi.1, fun hst => ?_⟩
    exact (hf.slot i).state.elim (fun heq => hi.2 (heq.trans hst)) fun hne => hne.1 hst
  · rcases eq_or_ne i j with rfl | hij
    · refine absurd ?_ hi.2
      simp [Engine.reserved, setPc, setHandler, setSlot, Container.reserve]
    · refine Or.inl ?_
      simpa [Settled, Engine.reserved, setPc, setHandler, setSlot, hij] using hi
  · exact Or.inl hi
  · rcases eq_or_ne i j with rfl | hij
    · simp [Settled, rolledBack] at hi
    · refine Or.inl ?_
      simpa [Settled, rolledBack, respond, setHandler, setSlot, hij] using hi
  · rcases eq_or_ne i j with rfl | hij
    · have ho : s.owner i = some g := (w.reserved g i (by rw [hpc]; rfl)).1
      obtain rfl : g = h := Option.some.inj (ho.symm.trans hi.1)
      exact Or.inr ⟨pid, rfl, hpc, rfl⟩
    · refine Or.inl ?_
      simpa [Settled, Engine.published, setPc, setHandler, setSlot, hij] using hi

/-- The pid of a used slot is old, or `-1`, or has just been published. -/
theorem SlotStep.pid_cases {c : Container} (hs : SlotStep s e i c) (hu : c.used = true) :
    (s.table i).used = true ∧ c.pid = (s.table i).pid ∨ c.pid = -1 ∨
      ∃ h, e = .publish h ∧ (s.handler h).pc = .publish i c.pid := by
  cases hs with
  | reserve => exact Or.inr (Or.inl rfl)
  | release => simp [Container.release] at hu
  | publish h pid he hpc => exact Or.inr (Or.inr ⟨h, he, hpc⟩)
  | same | waiters | stop | reap => exact Or.inl ⟨hu, rfl⟩

/-- A slot that is running after a step, and settled before it, was running. -/
theorem Wf.running_of_step (w : Wf s) (hs : Effect s e s') (hi : s.Settled i h)
    (hrun : (s'.table i).state = .running) : (s.table i).state = .running := by
  rcases (w.settledStep hi (step_slot hs i)).state with heq | hfin
  · rwa [← heq]
  · simp [hrun, ContainerState.Final] at hfin

theorem FirstOfPid.step (f : FirstOfPid s) (w : Wf s) (hs : Effect s e s')
    (hc : PublishFirst s e) : FirstOfPid s' := by
  intro i h hi hrun j hu hp
  have hpos : 0 < (s'.table i).pid := by
    obtain ⟨-, c, hchild, hcp⟩ := (w.step hs).of_settled hi
    exact hcp ▸ (w.step hs).child_pos h c hchild
  rcases w.settled_new hs hi with hold | ⟨pid, rfl, hpc, rfl⟩
  · have hrun₀ := w.running_of_step hs hold hrun
    have hpid := (w.settled_step hs hold).2.pid
    rcases (step_slot hs j).pid_cases hu with ⟨hu₀, hp₀⟩ | hneg | ⟨g, rfl, hpc⟩
    · exact f i h hold hrun₀ j hu₀ (by rw [← hp₀, hp, hpid])
    · omega
    · -- The slot published now would share its pid with the running slot `i`.
      simp only [PublishFirst, hpc] at hc
      have hlive := (hc i (w.used_of_settled hold) (by rw [← hpid, hp])).2
      simp [hrun₀, isLiveState] at hlive
  · rcases eq_or_ne j i with rfl | hj
    · exact le_refl j
    · have htable : (s.published h i pid).table j = s.table j := Function.update_of_ne hj _ _
      have hslot : ((s.published h i pid).table i).pid = pid := by
        simp [Engine.published, setPc, setHandler, setSlot, Container.publish]
      rw [htable] at hu hp
      simp only [PublishFirst, hpc] at hc
      exact (hc j hu (hp.trans hslot)).1.le

theorem FirstOfPid.of_run {C : Engine → Event → Prop}
    (hr : Transition.Run Engine.step C init s) (hC : ∀ s e, C s e → PublishFirst s e) :
    FirstOfPid s := by
  refine hr.invariant_of_reached (fun i h hi => by simp [Settled, init] at hi) ?_
  exact fun _ _ _ ht f hc hs => f.step (Wf.of_run ht) (step_effect hs) (hC _ _ hc)

/-- The reaper's scan for the pid of a running slot finds this slot. -/
theorem FirstOfPid.find (f : FirstOfPid s) (w : Wf s) (hi : s.Settled i h)
    (hrun : (s.table i).state = .running) :
    findContainerByPid s.table (s.table i).pid = some i := by
  have hu := w.used_of_settled hi
  obtain ⟨j, hj⟩ := exists_findContainerByPid hu rfl
  obtain ⟨huj, hpj⟩ := findContainerByPid_spec hj
  rw [hj, le_antisymm (findContainerByPid_le hj hu rfl) (f i h hi hrun j huj hpj)]

/-! ## No exit is lost -/

/-- The reaper is not done with the child of a running slot. -/
def RunningUnhandled (s : Engine) : Prop :=
  ∀ i h, s.Settled i h → (s.table i).state = .running → ∀ c, s.child h = some c → ¬c.Handled

theorem RunningUnhandled.step (l : RunningUnhandled s) (w : Wf s) (f : FirstOfPid s)
    (hs : Effect s e s') (hc : PublishInTime s e) : RunningUnhandled s' := by
  intro i h hi hrun c hchild hh
  rcases w.settled_new hs hi with hold | ⟨pid, rfl, hpc, rfl⟩
  · have hrun₀ := w.running_of_step hs hold hrun
    rcases step_handled hs hchild hh with hchild | ⟨pid, st, rfl, hr, hreaped, rfl⟩
    · exact l i h hold hrun₀ c hchild hh
    · -- The scan finds the running slot of this child, so it is final after the step.
      obtain ⟨-, c₀, hc₀, hpid⟩ := w.of_settled hold
      obtain rfl : c₀ = ⟨pid, .reaped st⟩ := Option.some.inj (hc₀.symm.trans hreaped)
      have hfind : findContainerByPid s.table pid = some i := by
        rw [show pid = (s.table i).pid from hpid]
        exact f.find w hold hrun₀
      have hfin := reapState_final (s.table i).stopRequested st
      have hnew : ((s.recorded h pid st).table i).state =
          reapState (s.table i).stopRequested st := by
        simp [recorded, reaperUpdate, hfind, Container.reap]
      rw [← hnew, hrun] at hfin
      simp [ContainerState.Final] at hfin
  · exact hc c hchild hh

theorem RunningUnhandled.of_run {C : Engine → Event → Prop}
    (hr : Transition.Run Engine.step C init s)
    (hC : ∀ s e, C s e → PublishFirst s e ∧ PublishInTime s e) : RunningUnhandled s := by
  refine hr.invariant_of_reached (fun i h hi => by simp [Settled, init] at hi) ?_
  intro t e u ht l hc hs
  have f := FirstOfPid.of_run ht fun s e h => (hC s e h).1
  exact l.step (Wf.of_run ht) f (step_effect hs) (hC t e hc).2

/-- If every start publishes in time and every published pid is found first, then in every
reachable state the reaper is not done with the child of a running slot; and once it is done with
the child of a slot that was published, the slot is final for ever. -/
theorem no_exit_lost
    (hr : Transition.Run step (fun s e => PublishFirst s e ∧ PublishInTime s e) init s) :
    (∀ i h, s.owner i = some h → (s.table i).state = .running →
        ∃ c, s.child h = some c ∧ c.pid = (s.table i).pid ∧ ¬c.Handled) ∧
      ∀ i h c, s.owner i = some h → (s.table i).state ≠ .starting → s.child h = some c →
        c.Handled →
          ∀ s', Transition.Run step (fun s e => PublishFirst s e ∧ PublishInTime s e) s s' →
            (s'.table i).state.Final := by
  have hlive {s} (hr : Transition.Run step (fun s e => PublishFirst s e ∧ PublishInTime s e)
      init s) : RunningUnhandled s := .of_run hr fun _ _ h => h
  refine ⟨fun i h ho hrun => ?_, fun i h c ho hst hc hh s' hr' => ?_⟩
  · have hi : s.Settled i h := ⟨ho, by simp [hrun]⟩
    obtain ⟨-, c, hc, hcp⟩ := (Wf.of_run hr).of_settled hi
    exact ⟨c, hc, hcp, hlive hr i h hi hrun c hc⟩
  · have hi' := (settled_run hr hr' ⟨ho, hst⟩).1
    have hc' : s'.child h = some c := by
      refine hr'.invariant_of_reached (I := fun t => t.child h = some c) hc ?_
      intro t e u ht hct _ hs
      obtain ⟨c', hc', -, heq⟩ := (Wf.of_run (hr.trans ht)).child_step (step_effect hs) hct
      rwa [heq hh] at hc'
    rcases ((Wf.of_run (hr.trans hr')).of_settled hi').1 with hrun | hfin
    · exact absurd hh (hlive (hr.trans hr') i h hi' hrun c hc')
    · exact hfin

/-- A container that runs and exits. -/
theorem no_exit_lost_one : ∃ s : Engine, (s.table 0).state = .exited ∧
    ∀ s', Transition.Run step (fun s e => PublishFirst s e ∧ PublishInTime s e) s s' →
      (s'.table 0).state.Final := by
  obtain ⟨s, hr, ho, hst, hc⟩ := Transition.exists_run_of_exec step
    (fun s e => PublishFirst s e ∧ PublishInTime s e) init
    (playClone 0 REQ_START "a" 7 ++ playPublish 0 ++ [.exit 0 0, .waitpid 0, .reap])
    (fun s => s.owner 0 = some 0 ∧ (s.table 0).state = .exited ∧
      s.child 0 = some ⟨7, .handled 0 (some (0, .exited))⟩) (by decide)
  exact ⟨s, hst, (no_exit_lost hr).2 0 0 _ ho (by simp [hst]) hc (by decide)⟩

/-- A child that exits before its start publishes the pid. No pid is reissued, and the slot is
RUNNING after the reaper is done with its child. -/
theorem exit_lost_before_publish : ∃ s : Engine, Transition.Run step NoReissue init s ∧
    s.owner 0 = some 0 ∧ (s.table 0).state = .running ∧
      s.child 0 = some ⟨(s.table 0).pid, .handled 0 none⟩ := by
  exact Transition.exists_run_of_exec step NoReissue init
    (playClone 0 REQ_START "a" 7 ++ [.exit 0 0, .waitpid 0, .reap] ++ playPublish 0)
    (fun s => s.owner 0 = some 0 ∧ (s.table 0).state = .running ∧
      s.child 0 = some ⟨(s.table 0).pid, .handled 0 none⟩) (by decide)

/-! ## The record of a finished container -/

/-- Every final slot holds what the reaper made of the wait status of its owner's child. -/
def Recorded (s : Engine) : Prop :=
  ∀ i h, s.Settled i h → (s.table i).state.Final →
    ∃ pid status, s.child h = some ⟨pid, .handled status (some (i, (s.table i).state))⟩ ∧
      (s.table i).exitCode = reapExitCode status

/-- The record of a settled slot changes only in the reaper's critical section. -/
theorem Wf.record_step (w : Wf s) (hs : Effect s e s') (hi : s.Settled i h) :
    (s'.table i).state = (s.table i).state ∧ (s'.table i).exitCode = (s.table i).exitCode ∨
      ∃ g pid status, e = .reap ∧ s.reaper = .holding g ∧
        s.child g = some ⟨pid, .reaped status⟩ ∧ findContainerByPid s.table pid = some i ∧
          s' = s.recorded g pid status := by
  have hstep := w.settledStep hi (step_slot hs i)
  generalize s'.table i = c at hstep ⊢
  cases hstep with
  | live => exact Or.inl ⟨rfl, rfl⟩
  | reap g pid status he hr hc hfind =>
    subst he
    obtain ⟨g', pid', status', hr', hc', rfl⟩ := effect_reap hs
    obtain rfl := ReaperPc.holding.inj (hr.symm.trans hr')
    obtain ⟨rfl, hlife⟩ := Child.mk.inj (Option.some.inj (hc.symm.trans hc'))
    obtain rfl := ChildLife.reaped.inj hlife
    exact Or.inr ⟨g, pid, status, rfl, hr, hc, hfind, rfl⟩

/-- The reaper finds the running slot of the child's own start. -/
theorem Recorded.reap_own {status : ℕ} (r : Recorded s) (w : Wf s) (f : FirstOfPid s)
    (hc : ReapPublished s .reap) (hr : s.reaper = .holding g)
    (hchild : s.child g = some ⟨pid, .reaped status⟩)
    (hfind : findContainerByPid s.table pid = some i) :
    s.Settled i g ∧ (s.table i).state = .running := by
  simp only [ReapPublished, hr] at hc
  by_cases hown : ∃ k, s.Settled k g
  · obtain ⟨k, hk⟩ := hown
    obtain ⟨hst, c, hc₀, hpid⟩ := w.of_settled hk
    obtain rfl : c = ⟨pid, .reaped status⟩ := Option.some.inj (hc₀.symm.trans hchild)
    rcases hst with hrun | hfin
    · have hk' := f.find w hk hrun
      rw [← hpid, hfind] at hk'
      obtain rfl := Option.some.inj hk'
      exact ⟨hk, hrun⟩
    · obtain ⟨p, st, hc₁, -⟩ := r k g hk hfin
      simp [hchild] at hc₁
  · have hnone := hc (fun k hk => hown ⟨k, hk⟩) _ hchild
    simp [hfind] at hnone

/-- The record of a final slot is kept. -/
theorem Recorded.final_step (r : Recorded s) (w : Wf s) (f : FirstOfPid s) (hs : Effect s e s')
    (hc : ReapPublished s e) (hi : s.Settled i h) (hfin : (s.table i).state.Final) :
    (s'.table i).state = (s.table i).state ∧ (s'.table i).exitCode = (s.table i).exitCode := by
  rcases w.record_step hs hi with heq | ⟨g, pid, status, rfl, hr, hchild, hfind, -⟩
  · exact heq
  · have hrun := (r.reap_own w f hc hr hchild hfind).2
    simp [hrun, ContainerState.Final] at hfin

theorem Recorded.step (r : Recorded s) (w : Wf s) (f : FirstOfPid s) (hs : Effect s e s')
    (hc : ReapPublished s e) : Recorded s' := by
  intro i h hi hfin
  rcases w.settled_new hs hi with hold | ⟨pid, rfl, hpc, rfl⟩
  · rcases w.record_step hs hold with ⟨hst, hexit⟩ | ⟨g, pid, status, rfl, hr, hchild, hfind, rfl⟩
    · rw [hst] at hfin ⊢
      obtain ⟨pid, status, hchild, hcode⟩ := r i h hold hfin
      obtain ⟨c', hc', -, heq⟩ := w.child_step hs hchild
      obtain rfl := heq trivial
      exact ⟨pid, status, hc', hexit.trans hcode⟩
    · have hg := (r.reap_own w f hc hr hchild hfind).1
      obtain rfl : g = h := Option.some.inj (hg.1.symm.trans hold.1)
      refine ⟨pid, status, ?_, ?_⟩ <;>
        simp [recorded, reaperUpdate, hfind, setChild, Container.reap]
  · have hrun : ((s.published h i pid).table i).state = .running := by
      simp [Engine.published, setPc, setHandler, setSlot, Container.publish]
    simp [hrun, ContainerState.Final] at hfin

theorem Recorded.of_run {C : Engine → Event → Prop} (hr : Transition.Run Engine.step C init s)
    (hC : ∀ s e, C s e → PublishFirst s e ∧ ReapPublished s e) : Recorded s := by
  refine hr.invariant_of_reached (fun i h hi => by simp [Settled, init] at hi) ?_
  intro t e u ht r hc hs
  have f := FirstOfPid.of_run ht fun s e h => (hC s e h).1
  exact r.step (Wf.of_run ht) f (step_effect hs) (hC t e hc).2

/-- A child's end is written only to the slot of its own start. -/
def Written (s : Engine) : Prop :=
  ∀ h pid status i x, s.child h = some ⟨pid, .handled status (some (i, x))⟩ →
    s.Settled i h ∧ (s.table i).state.Final

theorem Written.step (v : Written s) (r : Recorded s) (w : Wf s) (f : FirstOfPid s)
    (hs : Effect s e s') (hc : ReapPublished s e) : Written s' := by
  intro h pid status i x hchild
  rcases step_handled hs hchild trivial with hold | ⟨p, st, rfl, hr, hreaped, rfl⟩
  · obtain ⟨hi, hfin⟩ := v h pid status i x hold
    refine ⟨(w.settled_step hs hi).1, ?_⟩
    rwa [(r.final_step w f hs hc hi hfin).1]
  · obtain ⟨j, hfind, hj⟩ : ∃ j, findContainerByPid s.table p = some j ∧ j = i := by
      simp only [recorded, setChild, Function.update_self, Option.some.injEq, Child.mk.injEq,
        ChildLife.handled.injEq, Option.map_eq_some_iff, Prod.mk.injEq] at hchild
      obtain ⟨-, -, j, hfind, hj, -⟩ := hchild
      exact ⟨j, hfind, hj⟩
    subst hj
    have hi := (r.reap_own w f hc hr hreaped hfind).1
    refine ⟨(w.settled_step hs hi).1, ?_⟩
    have hfin := reapState_final (s.table j).stopRequested st
    simpa [recorded, reaperUpdate, hfind, Container.reap] using hfin

/-- The three conditions together. -/
def ReapInOrder (s : Engine) (e : Event) : Prop :=
  PublishFirst s e ∧ PublishInTime s e ∧ ReapPublished s e

instance (s : Engine) (e : Event) : Decidable (ReapInOrder s e) :=
  inferInstanceAs (Decidable (_ ∧ _))

theorem ReapInOrder.recorded (hr : Transition.Run Engine.step ReapInOrder init s) :
    FirstOfPid s ∧ Recorded s :=
  ⟨FirstOfPid.of_run hr fun _ _ h => h.1, Recorded.of_run hr fun _ _ h => ⟨h.1, h.2.2⟩⟩

theorem Written.of_run (hr : Transition.Run Engine.step ReapInOrder init s) : Written s := by
  refine hr.invariant_of_reached (fun h pid status i x hc => by simp [init] at hc) ?_
  intro t e u ht v hc hs
  obtain ⟨f, r⟩ := ReapInOrder.recorded ht
  exact v.step r (Wf.of_run ht) f (step_effect hs) hc.2.2

/-- If every start publishes in time a pid that is found first, and no other child with the pid
of a used slot is handled, then the record of a finished container never changes; and what the
reaper makes of a wait status is written to the slot of the container that cloned the child, if
this has one, and to no other. -/
theorem finished_record_final (hr : Transition.Run step ReapInOrder init s) :
    (∀ i, (s.table i).used = true → (s.table i).state.Final →
        ∀ s', Transition.Run step ReapInOrder s s' →
          (s'.table i).state = (s.table i).state ∧
            (s'.table i).exitCode = (s.table i).exitCode) ∧
      ∀ h pid status written, s.child h = some ⟨pid, .handled status written⟩ →
        (∀ i x, written = some (i, x) → s.owner i = some h ∧ (s.table i).state = x ∧
            (s.table i).exitCode = reapExitCode status) ∧
          ∀ i, s.owner i = some h → (s.table i).state ≠ .starting → ∃ x, written = some (i, x) := by
  have w := Wf.of_run hr
  have hrec := (ReapInOrder.recorded hr).2
  refine ⟨fun i hu hfin s' hr' => ?_, fun h pid status written hc => ⟨?_, ?_⟩⟩
  · obtain ⟨h, hi⟩ := w.settled_of_final hu hfin
    refine hr'.invariant_of_reached (I := fun t => (t.table i).state = (s.table i).state ∧
      (t.table i).exitCode = (s.table i).exitCode) ⟨rfl, rfl⟩ ?_
    rintro t e u ht ⟨hst, hexit⟩ hc hs
    obtain ⟨f, r⟩ := ReapInOrder.recorded (hr.trans ht)
    obtain ⟨hst', hexit'⟩ := r.final_step (Wf.of_run (hr.trans ht)) f (step_effect hs) hc.2.2
      (settled_run hr ht hi).1 (hst ▸ hfin)
    exact ⟨hst'.trans hst, hexit'.trans hexit⟩
  · rintro i x rfl
    obtain ⟨hi, hfin⟩ := Written.of_run hr h pid status i x hc
    obtain ⟨p, st, hc', hexit⟩ := hrec i h hi hfin
    obtain ⟨-, hlife⟩ := Child.mk.inj (Option.some.inj (hc.symm.trans hc'))
    obtain ⟨rfl, hw⟩ := ChildLife.handled.inj hlife
    obtain ⟨-, hx⟩ := Prod.mk.inj (Option.some.inj hw)
    exact ⟨hi.1, hx.symm, hexit⟩
  · intro i ho hst
    have hlive : RunningUnhandled s := RunningUnhandled.of_run hr fun _ _ h => ⟨h.1, h.2.1⟩
    rcases (w.of_settled ⟨ho, hst⟩).1 with hrun | hfin
    · exact absurd trivial (hlive i h ⟨ho, hst⟩ hrun _ hc)
    · obtain ⟨p, st, hc', -⟩ := hrec i h ⟨ho, hst⟩ hfin
      obtain ⟨-, hlife⟩ := Child.mk.inj (Option.some.inj (hc.symm.trans hc'))
      exact ⟨_, (ChildLife.handled.inj hlife).2⟩

/-- A container that ran and was killed. -/
theorem finished_record_final_one : ∃ s : Engine, (s.table 0).state = .killed ∧
    ∀ s', Transition.Run step ReapInOrder s s' →
      (s'.table 0).state = (s.table 0).state ∧ (s'.table 0).exitCode = (s.table 0).exitCode := by
  obtain ⟨s, hr, hu, hst⟩ := Transition.exists_run_of_exec step ReapInOrder init
    (playClone 0 REQ_START "a" 7 ++ playPublish 0 ++ [.exit 0 SIGKILL, .waitpid 0, .reap])
    (fun s => (s.table 0).used = true ∧ (s.table 0).state = .killed) (by decide)
  exact ⟨s, hst, (finished_record_final hr).1 0 hu (by simp [hst, ContainerState.Final])⟩

/-- The pid of a finished container comes back, and the new child's end is written over the old
record. -/
theorem finished_record_rewritten : ∃ s s' : Engine, s.Reachable ∧ step s .reap = some s' ∧
    (s.table 0).state = .exited ∧ (s.table 0).exitCode = 0 ∧ (s'.table 0).exitCode = 1 ∧
      s'.owner 1 = some 1 ∧ (s'.table 1).state = .running := by
  obtain ⟨s, hr, hst, hexit, hs⟩ := Transition.exists_run_of_exec step Transition.Always init
    (playClone 0 REQ_START "a" 7 ++ playPublish 0 ++ [.exit 0 0, .waitpid 0, .reap] ++
      playClone 1 REQ_START "b" 7 ++ playPublish 1 ++ [.exit 1 256, .waitpid 1])
    (fun s => (s.table 0).state = .exited ∧ (s.table 0).exitCode = 0 ∧
      ((step s .reap).any fun s' => (s'.table 0).exitCode = 1 ∧ s'.owner 1 = some 1 ∧
        (s'.table 1).state = .running) = true) (by decide)
  obtain ⟨s', hs', hp⟩ := (Option.any_eq_true _ _).mp hs
  exact ⟨s, s', hr, hs', hst, hexit, of_decide_eq_true hp⟩

end Engine

end Jackfruit
