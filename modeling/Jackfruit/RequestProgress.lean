import Jackfruit.Peers
import Jackfruit.RunReply
import Jackfruit.ShutdownWork
import Jackfruit.StartCalls
import Jackfruit.Unregistration

/-!
# Every request is answered

`handlerWork` counts the statements that a handler has left until it closes its connection. Each
step of the handler lowers it, and nothing raises it but a wake-up, by one, so a handler goes round
its loops no more often than it is woken. As long as the connection is open the handler can take a
step, or it serves a run and sleeps on a slot that is RUNNING with a child that the reaper is not
done with (`Wf.awaits`). From there the end of that child and the reaper lead to the answer, if no
handler sends to a client that has closed meanwhile (`requests_complete`).
-/

set_option linter.unusedSectionVars false

open Transition (PeerEvent WithPeers)

namespace Jackfruit

/-- A statement of the handler `h`. A spurious wake-up is none. -/
def Event.isStepOf (h : ℕ) : Event → Bool
  | .spurious _ => false
  | e => e.handler = some h

/-- Something that may wake the handler `h`. -/
def Event.wakes (h : ℕ) : Event → ℕ
  | .reap => 1
  | .spurious g => if g = h then 1 else 0
  | _ => 0

/-- A step of the handler `h`, the end of a child or a step of the reaper. -/
def Event.leadsOn (h : ℕ) (e : Event) : Bool :=
  e.isStepOf h || e.isEnd

/-- The statements of a handler, with `woken` for those whose sleep on a slot is over. -/
def Pc.work (woken : Slot → Prop) [DecidablePred woken] : Pc → ℕ
  | .absent | .recv => 13
  | .reserve => 12
  | .pipe _ => 11
  | .mallocStack _ => 10
  | .mallocChild _ => 9
  | .clone _ => 8
  | .mallocArg _ _ => 7
  | .publish _ _ => 6
  | .createProducer _ _ => 5
  | .register _ _ => 4
  | .runTest _ | .stop => 3
  | .runWait i => if woken i then 3 else 2
  | .rollback _ _ | .stopKill _ _ | .read => 2
  | .send => 1
  | .closed => 0

/-- The request has arrived and is not a start that still has to publish its slot. -/
def Pc.past : Pc → Bool
  | .absent | .recv | .reserve | .pipe _ | .mallocStack _ | .mallocChild _ | .clone _
  | .mallocArg _ _ | .publish _ _ => false
  | _ => true

namespace Engine

variable {s s' : Engine} {e : Event} {i j : Slot} {g h : ℕ}

/-! ## Who sleeps and who is woken -/

/-- Everything that an event can do to the condition variable of the slot `i`. -/
inductive CvStep (s : Engine) (e : Event) (i : Slot) : CondVar ℕ → Prop
  | same : CvStep s e i (s.table i).stateCv
  | wait (g : ℕ) : e = .runEnter g → CvStep s e i (((s.table i).stateCv.resume g).wait g)
  | resume (g : ℕ) : e = .runEnter g → CvStep s e i ((s.table i).stateCv.resume g)
  | wake (g : ℕ) : e = .spurious g → CvStep s e i ((s.table i).stateCv.wake g)
  | broadcast : e = .reap → CvStep s e i (s.table i).stateCv.broadcast

theorem CvStep.update {c : Container} (hc : CvStep s e j c.stateCv) :
    CvStep s e i (Function.update s.table j c i).stateCv := by
  rcases eq_or_ne i j with rfl | hij
  · rwa [Function.update_self]
  · rw [Function.update_of_ne hij]
    exact .same

theorem step_cv (hs : Effect s e s') (i : Slot) : CvStep s e i (s'.table i).stateCv := by
  cases hs with
  | reserve h now idx => exact CvStep.update (j := idx) .same
  | rollback h idx => exact CvStep.update (j := idx) .same
  | publish h idx => exact CvStep.update (j := idx) .same
  | stopEnter h idx => exact CvStep.update (j := idx) .same
  | runWait h idx => exact CvStep.update (j := idx) (.wait h rfl)
  | runDone h idx => exact CvStep.update (j := idx) (.resume h rfl)
  | spurious h idx => exact CvStep.update (j := idx) (.wake h rfl)
  | stopAll =>
    change CvStep s _ i (stopAllLiveContainers s.table i).stateCv
    unfold stopAllLiveContainers
    split_ifs <;> exact .same
  | reap h pid status =>
    change CvStep s _ i (reaperUpdate s.table pid status i).stateCv
    unfold reaperUpdate
    cases findContainerByPid s.table pid with
    | none => exact .same
    | some j => exact CvStep.update (j := j) (.broadcast rfl)
  | _ => exact .same

/-- Only a wake-up ends a sleep. -/
theorem CvStep.woken {cv : CondVar ℕ} (hs : CvStep s e i cv) (hh : h ∈ cv.woken) :
    h ∈ (s.table i).stateCv.woken ∨ e.wakes h = 1 := by
  cases hs with
  | same => exact Or.inl hh
  | wait g | resume g => exact Or.inl (by simp at hh; simp [hh])
  | broadcast he => exact Or.inr (by rw [he]; rfl)
  | wake g he =>
    unfold CondVar.wake at hh
    split_ifs at hh
    · rcases Finset.mem_insert.mp hh with rfl | hh
      · exact Or.inr (by simp [he, Event.wakes])
      · exact Or.inl hh
    · exact Or.inl hh

/-- A thread in `pthread_cond_wait` stays at the condition variable until it goes on. -/
theorem CvStep.kept {cv : CondVar ℕ} (hs : CvStep s e i cv) (he : e ≠ .runEnter h)
    (hh : h ∈ (s.table i).stateCv.asleep ∨ h ∈ (s.table i).stateCv.woken) :
    h ∈ cv.asleep ∨ h ∈ cv.woken := by
  cases hs with
  | same => exact hh
  | wait g hg | resume g hg =>
    have hne : h ≠ g := fun heq => he (heq ▸ hg)
    simpa [hne] using hh
  | wake g => exact CondVar.mem_wake.mpr hh
  | broadcast => simpa using hh

/-- A run in `pthread_cond_wait` is at the condition variable of its slot. -/
def RunsQueued (s : Engine) : Prop :=
  ∀ h i, (s.handler h).pc = .runWait i →
    h ∈ (s.table i).stateCv.asleep ∨ h ∈ (s.table i).stateCv.woken

/-- A run that holds the mutex goes to sleep or has its answer. -/
theorem step_runEnter (hs : s.step (.runEnter h) = some s') :
    ∃ i, s.runReady h = some i ∧
      ((s'.handler h).pc = .runWait i ∧ h ∈ (s'.table i).stateCv.asleep ∧
        h ∉ (s'.table i).stateCv.woken ∨ (s'.handler h).pc = .send) := by
  replace hs := (step_next hs).2
  simp only [next, handlerStep] at hs
  split at hs
  · rename_i i hready
    refine ⟨i, hready, ?_⟩
    split_ifs at hs
    · cases hs
      simp [setPc, setHandler, setSlot]
    · cases hs
      simp [respond, setHandler]
  · cases hs

theorem dispatch_ne_runWait (req : Request) (i : Slot) : dispatch req ≠ .runWait i := by
  unfold dispatch
  split_ifs <;> simp

theorem RunsQueued.step (q : RunsQueued s) (hs : s.step e = some s') : RunsQueued s' := by
  intro h i hpc
  by_cases he : e = .runEnter h
  · subst he
    obtain ⟨j, -, ⟨hj, hasleep, -⟩ | hsend⟩ := step_runEnter hs
    · obtain rfl := Pc.runWait.inj (hj.symm.trans hpc)
      exact Or.inl hasleep
    · cases hsend.symm.trans hpc
  · refine (step_cv (step_effect hs) i).kept he (q h i ?_)
    rcases step_pc hs h with hm | ⟨-, -, heq⟩
    · generalize (s.handler h).pc = pc at hm
      generalize (s'.handler h).pc = pc' at hm hpc
      cases hm with
      | recv req => exact absurd hpc (dispatch_ne_runWait req i)
      | register j pid pc hpc' => rcases hpc' with rfl | rfl <;> cases hpc
      | stopEnter pc hpc' => rcases hpc' with rfl | ⟨j, pid, rfl⟩ <;> cases hpc
      | runEnter => exact absurd rfl he
      | spurious j => exact hpc
      | _ => cases hpc
    · rwa [← heq]

theorem RunsQueued.of_run {C : Engine → Event → Prop}
    (hr : Transition.Run Engine.step C init s) : RunsQueued s :=
  hr.invariant (fun h i hpc => by simp [init, Handler.init] at hpc) fun _ _ _ q _ hs => q.step hs

/-! ## The work of a handler -/

/-- What the handler `h` has left to do. -/
def handlerWork (s : Engine) (h : ℕ) : ℕ :=
  (s.handler h).pc.work fun i => h ∈ (s.table i).stateCv.woken

theorem Pc.work_le {woken woken' : Slot → Prop} [DecidablePred woken] [DecidablePred woken']
    {pc : Pc} {n : ℕ} (hw : ∀ i, pc = .runWait i → woken' i → woken i ∨ n = 1) :
    pc.work woken' ≤ pc.work woken + n := by
  cases pc with
  | runWait i =>
    have hi := hw i rfl
    simp only [Pc.work]
    split_ifs with h' h
    · omega
    · rw [(hi h').resolve_left h]
    · omega
    · omega
  | _ => exact Nat.le_add_right _ _

/-- A statement of a handler brings it nearer to its end, and a wake-up costs one more. -/
theorem handlerWork_step (hs : s.step e = some s') (h : ℕ) :
    s'.handlerWork h + (e.isStepOf h).toNat ≤ s.handlerWork h + e.wakes h := by
  by_cases he : e = .runEnter h
  · subst he
    have hown : (Event.runEnter h).isStepOf h = true := by simp [Event.isStepOf, Event.handler]
    obtain ⟨i, hready, hnext⟩ := step_runEnter hs
    have hbefore : s.handlerWork h = 3 := by
      unfold runReady at hready
      split at hready
      · rename_i j hpc
        rw [handlerWork, hpc]
        rfl
      · rename_i j hpc
        split_ifs at hready with hwoken
        rw [handlerWork, hpc, Pc.work, if_pos hwoken]
      · cases hready
    have hafter : s'.handlerWork h ≤ 2 := by
      rcases hnext with ⟨hpc, -, hwoken⟩ | hpc
      · rw [handlerWork, hpc, Pc.work, if_neg hwoken]
      · rw [handlerWork, hpc]
        exact Nat.le_succ 1
    rw [hbefore, hown, Bool.toNat_true]
    omega
  · have hw (i : Slot) := (step_cv (step_effect hs) i).woken (h := h)
    unfold handlerWork
    rcases step_pc hs h with hm | ⟨hne, -, heq⟩
    · generalize (s.handler h).pc = pc at hm
      generalize (s'.handler h).pc = pc' at hm
      cases hm with
      | recv req =>
        unfold dispatch
        split_ifs <;> simp [Event.isStepOf, Event.handler, Event.wakes, Pc.work]
      | register j pid pc hpc' =>
        rcases hpc' with rfl | rfl <;>
          simp [Event.isStepOf, Event.handler, Event.wakes, Pc.work]
      | stopEnter pc hpc' =>
        rcases hpc' with rfl | ⟨j, pid, rfl⟩ <;>
          simp [Event.isStepOf, Event.handler, Event.wakes, Pc.work]
      | runEnter => exact absurd rfl he
      | spurious j =>
        have hle : (Pc.runWait j).work (fun i => h ∈ (s'.table i).stateCv.woken) ≤
            (Pc.runWait j).work (fun i => h ∈ (s.table i).stateCv.woken) +
              (Event.spurious h).wakes h := Pc.work_le fun i _ => hw i
        simpa [Event.isStepOf] using hle
      | _ => simp [Event.isStepOf, Event.handler, Event.wakes, Pc.work]
    · have hown : e.isStepOf h = false := by
        cases e <;> simp_all [Event.isStepOf, Event.handler]
      rw [hown, heq]
      exact Pc.work_le fun i _ => hw i

/-! ## Whom a handler waits for -/

/-- The handler `h` serves a run and sleeps until the reaper is done with its child. -/
def Awaits (s : Engine) (h : ℕ) : Prop :=
  ∃ i c, (s.handler h).pc = .runWait i ∧ h ∈ (s.table i).stateCv.asleep ∧
    (s.table i).state = .running ∧ s.child h = some c ∧ c.pid = (s.table i).pid ∧ ¬c.Handled

/-- A statement of the handler `h` at a program point. -/
def stepAt (h : ℕ) : Pc → Event
  | .reserve => .reserve h 0
  | .pipe _ => .pipe h none
  | .mallocStack _ => .mallocStack h true
  | .mallocChild _ => .mallocChild h true
  | .clone _ => .clone h (.error [])
  | .mallocArg _ _ => .mallocArg h true
  | .publish _ _ => .publish h
  | .createProducer _ _ => .createProducer h true
  | .register _ _ => .register h
  | .rollback _ _ => .rollback h
  | .runTest _ | .runWait _ => .runEnter h
  | .stop => .stopEnter h
  | .stopKill _ _ => .stopKill h none
  | .read => .read h initResponse
  | .absent | .recv | .send | .closed => .send h

theorem isStepOf_stepAt (h : ℕ) (pc : Pc) : (stepAt h pc).isStepOf h = true := by
  cases pc <;> simp [stepAt, Event.isStepOf, Event.handler]

/-- A start that has published its slot publishes none any more. -/
theorem stepAt_ne_publish {pc : Pc} (hpast : pc.past = true) (g : ℕ) :
    stepAt h pc ≠ .publish g := by
  cases pc <;> simp_all [stepAt, Pc.past]

/-- A handler that has its request can go on until it has closed its connection, but for a run that
sleeps. -/
theorem step_stepAt (hm : s.main ≠ .returned) (hreq : (s.handler h).pc ≠ .absent)
    (hrecv : (s.handler h).pc ≠ .recv) (hopen : (s.handler h).pc ≠ .closed)
    (hwait : ∀ i, (s.handler h).pc = .runWait i → h ∈ (s.table i).stateCv.woken) :
    (s.step (stepAt h (s.handler h).pc)).isSome = true := by
  rw [step, if_neg hm]
  cases hpc : (s.handler h).pc with
  | absent => exact absurd hpc hreq
  | recv => exact absurd hpc hrecv
  | closed => exact absurd hpc hopen
  | reserve =>
    simp only [stepAt, next, startStep, hpc]
    cases startContainerCheck s.table (s.req h) <;> rfl
  | runTest i =>
    simp only [stepAt, next, handlerStep, runReady, hpc]
    split_ifs <;> rfl
  | runWait i =>
    simp only [stepAt, next, handlerStep, runReady, hpc, if_pos (hwait i hpc)]
    split_ifs <;> rfl
  | stop =>
    simp only [stepAt, next, handlerStep, hpc]
    cases findContainerByIdLocked s.table (s.req h).id with
    | none => rfl
    | some i => dsimp only; split_ifs <;> rfl
  | read | send => simp [stepAt, next, handlerStep, hpc]
  | stopKill i pid => simp [stepAt, next, handlerStep, hpc]
  | _ => simp [stepAt, next, startStep, hpc]

/-- A run sleeps on its own slot, and the reaper is not done with its child. -/
theorem Wf.awaits (w : Wf s) (q : RunsQueued s) (u : RunningUnhandled s)
    (hawake : (s.table i).state.Final → (s.table i).stateCv.asleep = ∅)
    (hpc : (s.handler h).pc = .runWait i) (hasleep : h ∉ (s.table i).stateCv.woken) :
    s.Awaits h := by
  have hi : s.Settled i h := w.published h i (by rw [hpc]; rfl)
  have hmem := (q h i hpc).resolve_right hasleep
  obtain ⟨hst, c, hc, hpid⟩ := w.of_settled hi
  have hrun := hst.resolve_right fun hfin => by simp [hawake hfin] at hmem
  exact ⟨i, c, hpc, hmem, hrun, hc, hpid, u i h hi hrun c hc⟩

/-! ## The end of a child -/

/-- A child that has been waited for and is not handled is in the reaper's hands. -/
theorem reaped_held {C : Engine → Event → Prop} (hr : Transition.Run Engine.step C init s)
    {pid : ℤ} {status : ℕ} (hc : s.child g = some ⟨pid, .reaped status⟩) :
    s.reaper = .holding g := by
  refine Transition.Run.invariant (I := fun t : Engine => ∀ g pid status,
    t.child g = some ⟨pid, .reaped status⟩ → t.reaper = .holding g) hr
    (fun g pid status hc => by simp [init] at hc) (fun t e u ih _ hs g pid status hc => ?_) g pid
    status hc
  cases step_effect hs with
  | clone f idx p | exit f p =>
    rcases eq_or_ne g f with rfl | hne
    · simp [forked, setPc, setHandler, setChild] at hc
    · exact ih g pid status (by simpa [forked, setPc, setHandler, setChild, hne] using hc)
  | waitpid f p st hwaiting =>
    rcases eq_or_ne g f with rfl | hne
    · rfl
    · have hheld := ih g pid status (by simpa [setChild, hne] using hc)
      cases hwaiting.symm.trans hheld
  | reap f p st hholding =>
    rcases eq_or_ne g f with rfl | hne
    · simp [recorded, setChild] at hc
    · have hheld := ih g pid status (by simpa [recorded, setChild, hne] using hc)
      exact absurd (ReaperPc.holding.inj (hholding.symm.trans hheld)).symm hne
  | reaperExit hwaiting => cases hwaiting.symm.trans (ih g pid status hc)
  | _ => exact ih g pid status hc

/-- The reaper leaves its loop only after a SIGINT or a SIGTERM. -/
theorem Serving.reaper_ne_exited {C : Engine → Event → Prop}
    (hr : Transition.Run Engine.step C init s) (hv : Serving s) : s.reaper ≠ .exited := by
  intro hexited
  have hstopped : s.running = false := by
    refine hr.invariant (I := fun t : Engine => t.reaper = .exited → t.running = false)
      (fun h => by simp [init] at h) (fun t e u ih _ hs h => ?_) hexited
    have hcase : t.reaper = .exited ∨ e = .reaperExit := by
      cases step_effect hs with
      | reaperExit => exact Or.inr rfl
      | waitpid | reap => cases h
      | _ => exact Or.inl h
    rcases hcase with hold | rfl
    · exact running_step hs (ih hold)
    · replace hs := (step_next hs).2
      simp only [next, reaperStep] at hs
      obtain ⟨hguard, hs⟩ := Option.ite_none_right_eq_some.mp hs
      cases hs
      exact hguard.2.1
  exact absurd hv.1 (by simp [hstopped])

/-- The reaper and the children go on until the reaper is done with a child. -/
theorem exists_end {C : Engine → Event → Prop} (hr : Transition.Run Engine.step C init s)
    (hv : Serving s) {c : Child} (hc : s.child h = some c) (hh : ¬c.Handled) :
    ∃ e, e.isEnd = true ∧ (s.step e).isSome = true := by
  have hm : s.main ≠ .returned := by rcases hv.2 with hm | hm <;> simp [hm]
  have hnext (e : Event) : s.step e = s.next e := if_neg hm
  cases hreaper : s.reaper with
  | exited => exact absurd hreaper (hv.reaper_ne_exited hr)
  | holding g =>
    obtain ⟨pid, status, hg⟩ := Held.of_run hr g hreaper
    exact ⟨.reap, rfl, by simp [step_reap hm hreaper hg]⟩
  | waiting =>
    obtain ⟨pid, life⟩ := c
    cases life with
    | alive => exact ⟨.exit h 0, rfl, by simp [hnext, next, reaperStep, hc, wifexited]⟩
    | zombie status => exact ⟨.waitpid h, rfl, by simp [hnext, next, reaperStep, hreaper, hc]⟩
    | reaped status => cases hreaper.symm.trans (reaped_held hr hc)
    | handled => exact absurd trivial hh

/-! ## To the answer -/

/-- Every start publishes in time a pid that is found first. -/
def PublishOk (s : Engine) (e : Event) : Prop :=
  PublishFirst s e ∧ PublishInTime s e

instance (s : Engine) (e : Event) : Decidable (PublishOk s e) :=
  inferInstanceAs (Decidable (_ ∧ _))

theorem publishOk_of_ne (hne : ∀ g, e ≠ .publish g) : PublishOk s e := by
  unfold PublishOk PublishFirst PublishInTime
  cases e with
  | publish g => exact absurd rfl (hne g)
  | _ => exact ⟨trivial, trivial⟩

theorem PcMove.past {pc pc' : Pc} (hm : PcMove h e pc pc') (hpast : pc.past = true) :
    pc'.past = true := by
  cases hm with
  | register i pid pc hpc => rcases hpc with rfl | rfl <;> rfl
  | runEnter i pc pc' _ hpc => rcases hpc with rfl | rfl <;> rfl
  | stopEnter pc hpc => rcases hpc with rfl | ⟨i, pid, rfl⟩ <;> rfl
  | spurious | createProducer | rollback | stopKill | read | send => rfl
  | _ => cases hpast

/-- The handler `h` has come past its start, and the supervisor is not told to stop. -/
def Answering (h : ℕ) (s : Engine) : Prop :=
  Transition.Run step PublishOk init s ∧ s.Serving ∧ (s.handler h).pc.past = true

theorem wakes_le_one (h : ℕ) (e : Event) : e.wakes h ≤ 1 := by
  cases e with
  | spurious g =>
    rw [Event.wakes]
    split_ifs <;> omega
  | _ => first | exact le_refl 1 | exact Nat.zero_le 1

theorem wakes_of_isStepOf (he : e.isStepOf h = true) : e.wakes h = 0 := by
  cases e <;> first | rfl | simp [Event.isStepOf, Event.handler] at he

/-- A handler that has come past its start clones no more. -/
theorem newWork_eq_zero (hs : s.step e = some s') (he : e.isStepOf h = true)
    (hpast : (s.handler h).pc.past = true) : e.newWork = 0 := by
  cases e with
  | clone g res =>
    obtain rfl : g = h := by simpa [Event.isStepOf, Event.handler] using he
    rcases step_pc hs g with hm | ⟨hne, -⟩
    · generalize (s.handler g).pc = pc at hm hpast
      generalize (s'.handler g).pc = pc' at hm
      cases hm <;> cases hpast
    · exact absurd rfl hne
  | _ => rfl

/-- What the handler, the children and the reaper have left to do. -/
theorem answering_variant (h : ℕ) :
    Transition.Variant step (fun s e => PublishOk s e ∧ e.leadsOn h = true) (Answering h)
      (Event.leadsOn h) (fun _ => 0) (fun s => s.handlerWork h + 2 * s.reaping) where
  keeps s e t := by
    rintro ⟨hr, hv, hpast⟩ ⟨hok, he⟩ hs
    refine ⟨.tail e hr hok hs, hv.step (step_effect hs) ?_, ?_⟩
    · rintro rfl
      simp [Event.leadsOn, Event.isStepOf, Event.handler, Event.isEnd] at he
    · rcases step_pc hs h with hm | ⟨-, -, heq⟩
      · exact hm.past hpast
      · rwa [heq]
  pays s e t := by
    rintro ⟨hr, hv, hpast⟩ ⟨-, he⟩ hs
    have hwork := handlerWork_step hs h
    rw [he, Bool.toNat_true]
    by_cases hend : e.isEnd = true
    · have hreaping := reaping_end (fun g c hc => cloned_of_child hr hc) hs hend
      have hwakes := wakes_le_one h e
      omega
    · have hstep : e.isStepOf h = true := by simpa [Event.leadsOn, hend] using he
      have hreaping := reaping_other (Wf.of_run hr) (fun g hg => child_of_cloned hr hg) hs
        (Bool.eq_false_iff.mpr hend)
      rw [newWork_eq_zero hs hstep hpast] at hreaping
      rw [hstep, Bool.toNat_true, wakes_of_isStepOf hstep] at hwork
      omega

theorem handlerWork_le (hreq : (s.handler h).pc ≠ .absent) (hrecv : (s.handler h).pc ≠ .recv) :
    s.handlerWork h ≤ 12 := by
  unfold handlerWork
  cases hpc : (s.handler h).pc with
  | absent => exact absurd hpc hreq
  | recv => exact absurd hpc hrecv
  | runWait i =>
    rw [Pc.work]
    split_ifs <;> omega
  | _ => simp [Pc.work]

/-- A handler that is not closed can go on, or waits for its child. -/
theorem step_or_awaits (hr : Transition.Run step PublishOk init s) (hm : s.main ≠ .returned)
    (hreq : (s.handler h).pc ≠ .absent) (hrecv : (s.handler h).pc ≠ .recv)
    (hopen : (s.handler h).pc ≠ .closed) :
    (s.step (stepAt h (s.handler h).pc)).isSome = true ∨ s.Awaits h := by
  by_cases hwait : ∀ i, (s.handler h).pc = .runWait i → h ∈ (s.table i).stateCv.woken
  · exact Or.inl (step_stepAt hm hreq hrecv hopen hwait)
  · push Not at hwait
    obtain ⟨i, hpc, hasleep⟩ := hwait
    exact Or.inr ((Wf.of_run hr).awaits (.of_run hr) (.of_run hr fun _ _ h => h)
      (awake_of_final hr) hpc hasleep)

/-- The requests of a supervisor whose clients all wait for their answers : in every schedule a
handler takes a bounded number of steps and one more for each wake-up; as long as it has not closed
its connection it can take one, or its run sleeps; and once its start has published, its steps, the
ends of the children and the reaper alone lead to its end. -/
theorem requests_alone (hr : Transition.Run step PublishOk init s)
    (hreq : (s.handler h).pc ≠ .absent) (hrecv : (s.handler h).pc ≠ .recv) :
    (∀ es t, Transition.exec step Transition.Always s es = some t →
        es.countP (Event.isStepOf h) ≤ 12 + (es.map (Event.wakes h)).sum) ∧
      (s.main ≠ .returned → (s.handler h).pc ≠ .closed →
        (∃ e, e.isStepOf h = true ∧ (s.step e).isSome = true) ∨ s.Awaits h) ∧
      (s.Serving → (s.handler h).pc.past = true →
        ∃ es t, Transition.exec step PublishOk s es = some t ∧ (∀ e ∈ es, e.leadsOn h = true) ∧
          (t.handler h).pc = .closed) := by
  refine ⟨fun es t hes => ?_, fun hm hopen => ?_, fun hv hpast => ?_⟩
  · have v : Transition.Variant step Transition.Always (fun _ => True) (Event.isStepOf h)
        (Event.wakes h) (fun s => s.handlerWork h) :=
      ⟨fun _ _ _ _ _ _ => trivial, fun _ _ _ _ _ hs => handlerWork_step hs h⟩
    have hcount := v.count_le trivial hes
    have hle := handlerWork_le hreq hrecv
    omega
  · exact (step_or_awaits hr hm hreq hrecv hopen).imp_left fun hs =>
      ⟨_, isStepOf_stepAt h _, hs⟩
  · have hprogress (t : Engine) (ht : Answering h t) (hopen : ¬(t.handler h).pc = .closed) :
        ∃ e, e.leadsOn h = true ∧ 0 = 0 ∧ (PublishOk t e ∧ e.leadsOn h = true) ∧
          (t.step e).isSome = true := by
      obtain ⟨hr, hv, hpast⟩ := ht
      have hm : t.main ≠ .returned := by rcases hv.2 with hm | hm <;> simp [hm]
      rcases step_or_awaits hr hm (fun hpc => by simp [hpc, Pc.past] at hpast)
        (fun hpc => by simp [hpc, Pc.past] at hpast) hopen with hs | ⟨i, c, -, -, -, hc, -, hh⟩
      · have hown : (stepAt h (t.handler h).pc).leadsOn h = true := by
          simp [Event.leadsOn, isStepOf_stepAt]
        exact ⟨_, hown, rfl, ⟨publishOk_of_ne (stepAt_ne_publish hpast), hown⟩, hs⟩
      · obtain ⟨e, hend, hs⟩ := exists_end hr hv hc hh
        have hown : e.leadsOn h = true := by simp [Event.leadsOn, hend]
        have hne : ∀ g, e ≠ .publish g := by
          rintro g rfl
          cases hend
        exact ⟨e, hown, rfl, ⟨publishOk_of_ne hne, hown⟩, hs⟩
    obtain ⟨es, t, hes, hall, -, hclosed⟩ :=
      (answering_variant h).exists_run hprogress ⟨hr, hv, hpast⟩
    exact ⟨es, t, Transition.exec_mono (fun _ _ hc => hc.1) hes, hall, hclosed⟩

/-! ## With clients -/

/-- One step of the supervisor with its clients : a send to a client that has closed raises
SIGPIPE, which kills it. -/
abbrev serve :=
  WithPeers.step (ι := ℕ) step Event.client

/-- No handler sends to a client that has closed, or whose connection a container that has inherited
it has shut down. -/
abbrev SendsToOpen (s : WithPeers Engine ℕ) (e : PeerEvent Event ℕ) : Prop :=
  s.Sparing Event.client Transition.Always e

/-- Nor does a start publish too late, or a pid that is found in another slot. -/
abbrev Answerable (s : WithPeers Engine ℕ) (e : PeerEvent Event ℕ) : Prop :=
  s.Sparing Event.client PublishOk e

/-- A handler sends to no client but its own. -/
theorem client_of_leadsOn {e : Event} (he : e.leadsOn h = true) :
    e.client = none ∨ e.client = some h := by
  cases e with
  | send g =>
    have hg : g = h := by simpa [Event.leadsOn, Event.isStepOf, Event.handler, Event.isEnd] using he
    exact .inr (congrArg some hg)
  | _ => exact .inl rfl

/-- If every start publishes in time a pid that is found first, then every request is answered, as
long as no handler sends to a client that has closed, which would kill the process : in every
schedule its handler takes a bounded number of steps and one more for each wake-up; as long as it
has not closed its connection it can take one, whatever the other threads do, but for a run that
sleeps while its container is RUNNING and the reaper is not done with its child; and once the start
has published its slot, the steps of the handler, the ends of the children and the reaper alone
lead to the end of the handler, if its own client has not closed. -/
theorem requests_complete {s : WithPeers Engine ℕ}
    (hr : Transition.Run serve Answerable (.init init) s)
    (hreq : (s.inner.handler h).pc ≠ .absent) (hrecv : (s.inner.handler h).pc ≠ .recv) :
    (∀ (es : List (PeerEvent Event ℕ)) (t : WithPeers Engine ℕ),
        Transition.exec serve SendsToOpen s es = some t →
        (es.filterMap PeerEvent.inner?).countP (Event.isStepOf h) ≤
          12 + ((es.filterMap PeerEvent.inner?).map (Event.wakes h)).sum) ∧
      (s.inner.main ≠ .returned → (s.inner.handler h).pc ≠ .closed →
        (∃ e, e.isStepOf h = true ∧ (serve s (.inner e)).isSome = true) ∨ s.inner.Awaits h) ∧
      (s.inner.Serving → (s.inner.handler h).pc.past = true → s.gone h = false →
        ∃ (es : List Event) (t : WithPeers Engine ℕ),
          Transition.exec serve Answerable s (es.map .inner) = some t ∧
          (∀ e ∈ es, e.leadsOn h = true) ∧ (t.inner.handler h).pc = .closed) := by
  obtain ⟨hr, halive⟩ := WithPeers.inner_run hr
  obtain ⟨hbound, hgo, hclosed⟩ := requests_alone hr hreq hrecv
  refine ⟨fun es t hes => hbound _ _ (WithPeers.exec_project hes),
    fun hm hopen => (hgo hm hopen).imp_left ?_, fun hv hpast hclient => ?_⟩
  · rintro ⟨e, he, hs⟩
    exact ⟨e, he, WithPeers.isSome_step halive hs⟩
  · obtain ⟨es, t, hes, hall, hpc⟩ := hclosed hv hpast
    refine ⟨es, _, WithPeers.exec_inner halive (fun e he => ?_) hes, hall, hpc⟩
    rcases client_of_leadsOn (hall e he) with hnone | hsome
    · rw [hnone]
      rfl
    · rw [hsome]
      exact hclient

/-- A run that sleeps while its container is alive. A client that has closed waits for no answer. -/
theorem requests_complete_one : ∃ s : WithPeers Engine ℕ, s.inner.child 0 = some ⟨7, .alive⟩ ∧
    (s.inner.handler 0).pc = .runWait 0 ∧ s.gone 1 = true ∧
      ∃ (es : List Event) (t : WithPeers Engine ℕ),
        Transition.exec serve Answerable s (es.map .inner) = some t ∧
        (∀ e ∈ es, e.leadsOn 0 = true) ∧ (t.inner.handler 0).pc = .closed := by
  let started : List Event := playClone 0 REQ_RUN "a" 7 ++ playPublish 0 ++ [.runEnter 0]
  obtain ⟨s, hr, hc, hpc, hgone, hopen, hrun, hmain⟩ := Transition.exists_run_of_exec serve
    Answerable (.init init) (started.map .inner ++ [.leave 1])
    (fun s => s.inner.child 0 = some ⟨7, .alive⟩ ∧ (s.inner.handler 0).pc = .runWait 0 ∧
      s.gone 1 = true ∧ s.gone 0 = false ∧ s.inner.running = true ∧ s.inner.main = .loop)
    (by decide)
  exact ⟨s, hc, hpc, hgone, (requests_complete hr (by simp [hpc]) (by simp [hpc])).2.2
    ⟨hrun, Or.inl hmain⟩ (by rw [hpc]; rfl) hopen⟩

end Engine

end Jackfruit
