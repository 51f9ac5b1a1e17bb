import Jackfruit.Records
import Jackfruit.RunReply
import Jackfruit.Session
import Jackfruit.Shutdown
import Jackfruit.StopRefusal

/-!
# What an answer says about the supervisor

A handler answers a start with the pid that it has published, a run with a final record and a stop
with the pid that it has signalled. `Told` says for each program point what the handler knows
there, and `Reply` what its answer says about the table, the children and the signals, from the
moment it is written and for as long as the supervisor runs (`Told.step`). Both look back to the
states that the supervisor has `passed` : the record that a run reports is that of its slot in one
of them, and so is the STARTING slot that a stop has found.

A start or a run that is answered with `ok=0` owns no slot, then or later.
-/

set_option linter.unusedSectionVars false

namespace Jackfruit

/-- The answer to a start that returned `0`. -/
def startedResponse (req : Request) (pid : ℤ) : Response :=
  setResponse true 0
    (cstr "Container " ++ req.id ++ cstr " started (PID " ++ decimal pid ++ cstr ")")

/-- The answer to a stop whose `kill` returned `0`. -/
def stoppedResponse (req : Request) (pid : ℤ) : Response :=
  setResponse true 0
    (cstr "Stop requested for " ++ req.id ++ cstr " (PID " ++ decimal pid ++ cstr ")")

/-- A program point at which no answer has been written. -/
def Pc.unanswered : Pc → Bool
  | .runTest _ | .runWait _ | .send | .closed => false
  | _ => true

/-- A program point from which a handler may come to an answer with `ok=0`. -/
def Pc.Refuses : Pc → Prop
  | .recv | .reserve | .rollback _ _ | .stop => True
  | _ => False

namespace Engine

variable {passed passed' : Engine → Prop} {s s' : Engine} {e : Event} {i : Slot} {g h : ℕ}
  {pid : ℤ} {req : Request}

/-- The slot `i` was STARTING, with the id of the request. -/
def WasStarting (passed : Engine → Prop) (req : Request) (i : Slot) : Prop :=
  ∃ t, passed t ∧ (t.table i).used = true ∧ (t.table i).state = .starting ∧
    (t.table i).id = req.id

/-- A stop for `req` has found this pid in the slot `i` : that of a settled record with its id,
where it is noted, or the `-1` of a slot with its id that was STARTING. -/
def Targets (s : Engine) (passed : Engine → Prop) (req : Request) (i : Slot) (pid : ℤ) : Prop :=
  pid = -1 ∧ WasStarting passed req i ∨
    s.Denotes i pid ∧ (s.table i).id = req.id ∧ (s.table i).stopRequested = true

/-- The container that `h` has started in the slot `i` had ended in the state `t`. -/
structure HadEnded (passed : Engine → Prop) (h : ℕ) (i : Slot) (t : Engine) : Prop where
  passed : passed t
  started : t.started h = some i
  final : (t.table i).state.Final
  exitCode : 0 ≤ (t.table i).exitCode ∧ (t.table i).exitCode < 256

/-- What the answer of `h` says. -/
structure Reply (s : Engine) (passed : Engine → Prop) (h : ℕ) : Prop where
  start : (s.req h).type = REQ_START → (s.handler h).resp.ok = true →
    ∃ i, s.started h = some i ∧ (s.handler h).resp = startedResponse (s.req h) (s.table i).pid
  run : (s.req h).type = REQ_RUN → (s.handler h).resp.ok = true →
    ∃ i t, s.started h = some i ∧ HadEnded passed h i t ∧
      (s.handler h).resp = runResponse (s.req h) (t.table i)
  stop : (s.req h).type = REQ_STOP → (s.handler h).resp.ok = true →
    ∃ k ∈ s.sigterms, s.Targets passed (s.req h) k.slot k.pid ∧
      (s.handler h).resp = stoppedResponse (s.req h) k.pid
  refused : (s.req h).Starts → (s.handler h).resp.ok = false → ∀ i, s.owner i ≠ some h

/-- What the handler `h` knows at its program point. -/
def Told (s : Engine) (passed : Engine → Prop) (h : ℕ) : Prop :=
  match (s.handler h).pc with
  | .absent | .recv => True
  | .reserve | .pipe _ | .mallocStack _ | .mallocChild _ | .clone _ | .mallocArg _ _ | .publish _ _
  | .rollback _ _ => (s.req h).Starts
  | .createProducer i pid | .register i pid =>
    (s.req h).Starts ∧ s.Settled i h ∧ (s.table i).pid = pid
  | .runTest i | .runWait i => (s.req h).type = REQ_RUN ∧ s.started h = some i
  | .stop => (s.req h).type = REQ_STOP
  | .stopKill i pid => (s.req h).type = REQ_STOP ∧ s.Targets passed (s.req h) i pid
  | .read => (s.req h).type = REQ_PS ∨ (s.req h).type = REQ_LOGS
  | .send | .closed => s.Reply passed h

/-! ## What the other threads leave alone -/

theorem Wf.stopRequested_step (w : Wf s) (hs : Effect s e s') (hi : s.Settled i h)
    (hstop : (s.table i).stopRequested = true) : (s'.table i).stopRequested = true := by
  have hstep := step_slot hs i
  generalize s'.table i = c at hstep ⊢
  cases hstep with
  | stop => rfl
  | reserve g now he hpc hck =>
    have hfree := (startContainerCheck_ok hck).1
    simp [w.used_of_settled hi] at hfree
  | release g text he hpc | publish g pid he hpc =>
    exact absurd (by rw [hpc]; rfl) (w.not_reserved hi g)
  | _ => exact hstop

theorem Targets.step (ht : s.Targets passed req i pid) (w : Wf s) (hs : Effect s e s') :
    s'.Targets passed req i pid := by
  refine ht.imp_right fun ⟨hdenotes, hid, hstop⟩ => ?_
  obtain ⟨⟨g, hset⟩, -⟩ := id hdenotes
  have hkept := (w.settled_step hs hset).2
  exact ⟨w.denotes_step hs hdenotes, hkept.id.trans hid, w.stopRequested_step hs hset hstop⟩

theorem started_step (hs : Effect s e s') (he : e ≠ .register h) :
    s'.started h = s.started h := by
  cases hs with
  | register g idx pid resp hpc =>
    have hne : h ≠ g := by
      rintro rfl
      exact he rfl
    exact Function.update_of_ne hne _ _
  | _ => rfl

/-- Nothing that an answer says is undone. -/
theorem Reply.step (hr : s.Reply passed h) (w : Wf s) (hs : Effect s e s')
    (hhandler : (s'.handler h).req = s.req h ∧ (s'.handler h).resp = (s.handler h).resp)
    (hregister : e ≠ .register h) (hreserve : ∀ now, e ≠ .reserve h now) :
    s'.Reply passed h := by
  obtain ⟨hreq, hresp⟩ := hhandler
  have hstarted := started_step hs hregister
  replace hreq : s'.req h = s.req h := hreq
  constructor
  case start =>
    intro htype hok
    rw [hreq] at htype
    rw [hresp] at hok
    obtain ⟨i, hi, heq⟩ := hr.start htype hok
    have hkept := (w.settled_step hs (w.started h i hi)).2
    exact ⟨i, hstarted.trans hi, by rw [hresp, hreq, hkept.pid, heq]⟩
  case run =>
    intro htype hok
    rw [hreq] at htype
    rw [hresp] at hok
    obtain ⟨i, t, hi, hended, heq⟩ := hr.run htype hok
    exact ⟨i, t, hstarted.trans hi, hended, by rw [hresp, hreq, heq]⟩
  case stop =>
    intro htype hok
    rw [hreq] at htype
    rw [hresp] at hok
    obtain ⟨k, hk, htarget, heq⟩ := hr.stop htype hok
    exact ⟨k, sigterms_kept hs hk, hreq ▸ htarget.step w hs, by rw [hresp, hreq, heq]⟩
  case refused =>
    intro hstarts hok i ho
    rw [hreq] at hstarts
    rw [hresp] at hok
    rcases owner_cases hs ho with hold | ⟨now, he, -⟩
    · exact hr.refused hstarts hok i hold
    · exact hreserve now he

/-- What a handler knows stays true while the others work. -/
theorem Told.frame (ht : s.Told passed h) (w : Wf s) (hs : Effect s e s')
    (hhandler : s'.handler h = s.handler h) (hregister : e ≠ .register h)
    (hreserve : ∀ now, e ≠ .reserve h now) : s'.Told passed h := by
  have hreq : s'.req h = s.req h := congrArg Handler.req hhandler
  have hsettled {i : Slot} {pid : ℤ} (hi : s.Settled i h ∧ (s.table i).pid = pid) :
      s'.Settled i h ∧ (s'.table i).pid = pid := by
    obtain ⟨hset, hkept⟩ := w.settled_step hs hi.1
    exact ⟨hset, hkept.pid.trans hi.2⟩
  unfold Told at ht ⊢
  rw [hhandler, hreq]
  split at ht
  case h_11 i pid hpc | h_12 i pid hpc => exact ⟨ht.1, hsettled ht.2⟩
  case h_13 i hpc | h_14 i hpc => exact ⟨ht.1, (started_step hs hregister).trans ht.2⟩
  case h_16 i pid hpc => exact ⟨ht.1, ht.2.step w hs⟩
  case h_18 hpc | h_19 hpc => exact ht.step w hs ⟨hreq, by rw [hhandler]⟩ hregister hreserve
  all_goals exact ht

/-! ## What a handler's own step tells it -/

/-- The exit codes of final records are those of wait statuses. -/
def CodesOk (s : Engine) : Prop :=
  ∀ i h, s.Settled i h → (s.table i).state.Final →
    0 ≤ (s.table i).exitCode ∧ (s.table i).exitCode < 256

theorem CodesOk.step (c : CodesOk s) (ok : StatusOk s) (w : Wf s) (hs : Effect s e s') :
    CodesOk s' := by
  intro i h hi hfin
  have hused := (w.step hs).used_of_settled hi
  have hstep := step_slot hs i
  generalize s'.table i = c' at hstep hfin hused ⊢
  cases hstep with
  | same | waiters | stop =>
    obtain ⟨g, hg⟩ := w.settled_of_final hused hfin
    exact c i g hg hfin
  | reserve | publish => simp [Container.reserve, Container.publish, ContainerState.Final] at hfin
  | release => simp [Container.release] at hused
  | reap g pid status _ _ hc => exact reapExitCode_bounds (ok g _ status hc rfl)

theorem CodesOk.of_run {C : Engine → Event → Prop} (hr : Transition.Run Engine.step C init s) :
    CodesOk s := by
  refine hr.invariant_of_reached (fun i h hi => ?_) fun t e u ht c _ hs => ?_
  · cases hi.1
  · exact c.step (StatusOk.of_run ht) (Wf.of_run ht) (step_effect hs)

/-- From these points a handler refuses, or goes on without an answer. -/
theorem HandlerStep.ok_eq_false {hd : Handler} (hs : HandlerStep s e h hd)
    (hok : (s.handler h).resp.ok = false) (hpc : (s.handler h).pc.Refuses) :
    hd.resp.ok = false := by
  cases hs with
  | move hd hm =>
    cases hm with
    | refused => rfl
    | read resp hpc₀ =>
      rw [hpc₀] at hpc
      cases hpc
    | _ => exact hok
  | recv req resp _ _ hresp => exact hresp
  | rollback => rfl
  | register i pid resp hpc₀ | stopKill i pid resp hpc₀ =>
    rw [hpc₀] at hpc
    cases hpc
  | runDone i hready =>
    rcases runReady_spec hready with hpc₀ | hpc₀ <;>
    · rw [hpc₀] at hpc
      cases hpc
  | _ => exact hok

/-- No answer is written before its time. -/
theorem HandlerStep.unanswered {hd : Handler} (hs : HandlerStep s e h hd)
    (hold : (s.handler h).pc.unanswered = true → (s.handler h).resp.ok = false)
    (hpc : hd.pc.unanswered = true) : hd.resp.ok = false := by
  cases hs with
  | same => exact hold hpc
  | move hd hm =>
    cases hm with
    | accept hpc₀ => exact hold (by rw [hpc₀]; rfl)
    | syscall pc hm =>
      refine hold ?_
      generalize (s.handler h).pc = pc₀ at hm
      cases hm <;> rfl
    | _ => cases hpc
  | recv req resp _ _ hresp => exact hresp
  | reserve i hpc₀ | clone i pid hpc₀ | publish i pid hpc₀ | createProducer i pid hpc₀ =>
    exact hold (by rw [hpc₀]; rfl)
  | stopEnter i _ hpc₀ => exact hold (by rw [hpc₀]; rfl)
  | register i pid resp =>
    dsimp only at hpc
    split_ifs at hpc <;> cases hpc
  | _ => cases hpc

theorem unanswered_of_run {C : Engine → Event → Prop} (hr : Transition.Run Engine.step C init s)
    (h : ℕ) : (s.handler h).pc.unanswered = true → (s.handler h).resp.ok = false :=
  hr.invariant (I := fun t => (t.handler h).pc.unanswered = true → (t.handler h).resp.ok = false)
    (fun _ => rfl) fun _ _ _ ih _ hs => (step_handler (step_effect hs) h).unanswered ih

theorem publish_pid (hs : s.step (.publish h) = some s')
    (hpc : (s.handler h).pc = .publish i pid) : (s'.table i).pid = pid := by
  replace hs := (step_next hs).2
  simp only [next, startStep, hpc] at hs
  cases hs
  simp [setPc, setHandler, setSlot, Container.publish]

/-- The last step of a start. -/
theorem register_handler (hs : s.step (.register h) = some s')
    (hpc : (s.handler h).pc = .register i pid) :
    (s'.handler h).resp = startedResponse (s.req h) pid ∧ s'.started h = some i ∧
      (s'.handler h).pc = if (s.req h).type = REQ_RUN then .runTest i else .send := by
  replace hs := (step_next hs).2
  simp only [next, startStep, hpc] at hs
  cases hs
  simp [setHandler, startedResponse, req]

/-- A run that looks at its slot. -/
theorem runEnter_handler (hs : s.step (.runEnter h) = some s') : ∃ i, s.runReady h = some i ∧
    ((s'.handler h).pc = .runWait i ∨ (s'.handler h).pc = .send ∧
      isLiveState (s.table i).state = false ∧
        (s'.handler h).resp = runResponse (s.req h) (s.table i)) := by
  replace hs := (step_next hs).2
  simp only [next, handlerStep] at hs
  split at hs
  · rename_i i hready
    refine ⟨i, hready, ?_⟩
    split_ifs at hs with hlive <;> cases hs
    · exact Or.inl (by simp [setPc, setHandler])
    · exact Or.inr ⟨by simp [respond, setHandler], by simpa using hlive,
        by simp [respond, setHandler]⟩
  · cases hs

/-- The `kill` of a stop. -/
theorem stopKill_handler {err : Option CStr} (hs : s.step (.stopKill h err) = some s')
    (hpc : (s.handler h).pc = .stopKill i pid) (hok : (s'.handler h).resp.ok = true) :
    (s'.handler h).resp = stoppedResponse (s.req h) pid ∧ ⟨i, pid⟩ ∈ s'.sigterms := by
  replace hs := (step_next hs).2
  simp only [next, handlerStep, hpc] at hs
  cases hs
  cases err with
  | none => simp [respond, setHandler, stoppedResponse]
  | some text => simp [respond, setHandler, setResponse] at hok

/-- A refusal says nothing but that no slot is owned. -/
theorem Reply.of_false (hok : (s.handler h).resp.ok = false)
    (howner : (s.req h).Starts → ∀ i, s.owner i ≠ some h) : s.Reply passed h where
  start _ ht := absurd ht (by simp [hok])
  run _ ht := absurd ht (by simp [hok])
  stop _ ht := absurd ht (by simp [hok])
  refused hstarts _ := howner hstarts

/-- A request that starts nothing is no start. -/
theorem not_starts (hreq : req.type = REQ_STOP) : ¬req.Starts := by
  rintro (hstart | hrun)
  · cases hstart.symm.trans hreq
  · cases hrun.symm.trans hreq

/-- A stop that gets the mutex has found a running slot, where it is noted, or a STARTING one. -/
theorem targets_stopEnter (w : Wf s) (hnow : passed s)
    (hfind : findContainerByIdLocked s.table req.id = some i)
    (htable : s'.table = Function.update s.table i (s.table i).requestStop) (hs : Effect s e s') :
    s'.Targets passed req i (s.table i).pid := by
  obtain ⟨hu, hid⟩ := findContainerByIdLocked_spec hfind
  obtain ⟨g, ho⟩ := (w.used_iff i).mp hu
  have hslot : s'.table i = (s.table i).requestStop := by rw [htable, Function.update_self]
  by_cases hst : (s.table i).state = .starting
  · rcases w.owned i g ho with hres | ⟨-, -, hrun | hfin, -⟩
    · exact Or.inl ⟨(w.reserved g i hres).2.2, s, hnow, hu, hst, hid⟩
    · simp [hst] at hrun
    · simp [hst, ContainerState.Final] at hfin
  · have hdenotes := w.denotes_step hs (w.denotes_of_used hu hst)
    exact Or.inr ⟨hdenotes, by rw [hslot]; exact hid, by rw [hslot]; rfl⟩

/-- A failed start has given its slot back. -/
theorem Wf.rolledBack_owner (w : Wf s) {text : CStr} (hs : s.step (.rollback h) = some s')
    (hpc : (s.handler h).pc = .rollback i text) (j : Slot) : s'.owner j ≠ some h := by
  replace hs := (step_next hs).2
  simp only [next, startStep, hpc] at hs
  cases hs
  obtain ⟨-, honly, -⟩ := w.of_reserved (by rw [hpc]; rfl)
  rcases eq_or_ne j i with rfl | hne
  · simp
  · simpa [hne] using fun ho => hne (honly j ho)

/-- A refusal answers a request that owns no slot. -/
theorem Reply.of_refusal (ht : s.Told passed h) (w : Wf s) (hs : s.step e = some s')
    (hok : (s.handler h).resp.ok = false) (hpc : (s.handler h).pc.Refuses)
    (hm : PcMove h e (s.handler h).pc (s'.handler h).pc)
    (hpc' : (s'.handler h).pc = .send ∨ (s'.handler h).pc = .closed) : s'.Reply passed h := by
  have hstep := step_handler (step_effect hs) h
  refine .of_false (hstep.ok_eq_false hok hpc) fun hstarts i ho => ?_
  unfold Told at ht
  generalize hpc₀ : (s.handler h).pc = pc at hm hpc ht
  generalize hpc₁ : (s'.handler h).pc = pc' at hm hpc'
  cases hm with
  | recv req =>
    obtain ⟨resp, hd⟩ := recv_handler hs
    have hreq : s'.req h = req := congrArg Handler.req hd
    rw [dispatch, if_pos (hreq ▸ hstarts)] at hpc'
    simp at hpc'
  | hangup =>
    rcases owner_cases (step_effect hs) ho with hold | ⟨now, he, -⟩
    · exact (w.owner_pc hold).2 hpc₀
    · cases he
  | refused now =>
    rcases owner_cases (step_effect hs) ho with hold | ⟨now, -, -, -, rfl⟩
    · exact w.not_owner hpc₀ i hold
    · simp [reserved, setPc, setHandler] at hpc₁
  | rollback j text => exact w.rolledBack_owner hs hpc₀ i ho
  | stopEnter pc =>
    have hreq : s'.req h = s.req h := hstep.req_eq (by simp)
    exact not_starts ht (hreq ▸ hstarts)
  | reserve => simp at hpc'
  | runEnter i pc pc' hpc₂ => rcases hpc₂ with rfl | rfl <;> cases hpc
  | _ => cases hpc

/-- The end of a start : an answer with the pid, or a run that will look at its slot. -/
theorem Told.register (ht : s.Told passed h) (w : Wf s) (hs : s.step (.register h) = some s')
    (hpc : (s.handler h).pc = .register i pid) : s'.Told passed h := by
  have heff := step_effect hs
  rw [Told, hpc] at ht
  obtain ⟨hstarts, hi, hpid⟩ := ht
  obtain ⟨hresp, hstarted, hpc'⟩ := register_handler hs hpc
  have hreq : s'.req h = s.req h := (step_handler heff h).req_eq (by simp)
  have hpid' := ((w.settled_step heff hi).2.pid).trans hpid
  unfold Told
  split_ifs at hpc' with hrun
  · rw [hpc']
    exact ⟨hreq ▸ hrun, hstarted⟩
  · rw [hpc']
    refine ⟨fun _ _ => ⟨i, hstarted, by rw [hresp, hreq, hpid']⟩, fun htype => ?_,
      fun htype => ?_, fun _ hok => ?_⟩
    · exact absurd (hreq ▸ htype) hrun
    · exact absurd (hreq ▸ hstarts) (not_starts htype)
    · simp [hresp, startedResponse, setResponse] at hok

/-- A run that looks at its slot answers if the container has ended. -/
theorem Told.runEnter (ht : s.Told passed h) (hnow : passed s) (w : Wf s) (c : CodesOk s)
    (hs : s.step (.runEnter h) = some s') : s'.Told passed h := by
  have heff := step_effect hs
  have hreq : s'.req h = s.req h := (step_handler heff h).req_eq (by simp)
  obtain ⟨i, hready, hnext⟩ := runEnter_handler hs
  obtain ⟨htype, hstarted⟩ : (s.req h).type = REQ_RUN ∧ s.started h = some i := by
    rcases runReady_spec hready with hpc | hpc <;> rw [Told, hpc] at ht <;> exact ht
  have hstarted' := (started_step heff (by simp)).trans hstarted
  unfold Told
  rcases hnext with hpc' | ⟨hpc', hlive, hresp⟩
  · rw [hpc']
    exact ⟨hreq ▸ htype, hstarted'⟩
  · rw [hpc']
    have hi := w.started h i hstarted
    have hfin := ((w.of_settled hi).1).resolve_left fun hrun => by
      simp [hrun, isLiveState] at hlive
    have hended : HadEnded passed h i s := ⟨hnow, hstarted, hfin, c i h hi hfin⟩
    refine ⟨fun hstart => ?_, fun _ _ => ⟨i, s, hstarted', hended, ?_⟩, fun hstop => ?_,
      fun _ hok => ?_⟩
    · cases (hreq ▸ hstart).symm.trans htype
    · rw [hresp, hreq]
    · cases (hreq ▸ hstop).symm.trans htype
    · simp [hresp, runResponse, setResponse] at hok

/-- What the handler of the event knows after its step. -/
theorem Told.move (ht : s.Told passed h) (hnow : ∀ g, e = .runEnter g ∨ e = .stopEnter g → passed s)
    (hu : (s.handler h).pc.unanswered = true → (s.handler h).resp.ok = false) (w : Wf s)
    (c : CodesOk s) (hs : s.step e = some s')
    (hm : PcMove h e (s.handler h).pc (s'.handler h).pc) : s'.Told passed h := by
  have heff := step_effect hs
  have hstep := step_handler heff h
  have w' := w.step heff
  have hkeep (hrecv : ∀ req, e ≠ .recv h req) : s'.req h = s.req h := hstep.req_eq hrecv
  have hrefusal (hok : (s.handler h).resp.ok = false) (hpc : (s.handler h).pc.Refuses)
      (hpc' : (s'.handler h).pc = .send ∨ (s'.handler h).pc = .closed) : s'.Reply passed h :=
    .of_refusal ht w hs hok hpc hm hpc'
  have told := ht
  unfold Told at ht ⊢
  generalize hpc : (s.handler h).pc = pc at hm ht hu hrefusal
  generalize hpc' : (s'.handler h).pc = pc' at hm hrefusal ⊢
  cases hm with
  | accept => trivial
  | recv req =>
    obtain ⟨resp, hd⟩ := recv_handler hs
    have hreq : s'.req h = req := congrArg Handler.req hd
    have hsend := hrefusal (hu rfl) trivial
    rw [hreq]
    unfold dispatch at hsend ⊢
    split_ifs at hsend ⊢ with hstart hread hstop
    · exact hstart
    · exact hread
    · exact hstop
    · exact hsend (Or.inl rfl)
  | hangup | refused | rollback => exact hrefusal (hu rfl) trivial (by simp)
  | publish i pid =>
    have hi := w'.published h i (by rw [hpc']; rfl)
    exact ⟨hkeep (by simp) ▸ ht, hi, publish_pid hs hpc⟩
  | createProducer ok i pid =>
    obtain ⟨hstarts, hi, hpid⟩ := ht
    obtain ⟨hi', hkept⟩ := w.settled_step heff hi
    exact ⟨hkeep (by simp) ▸ hstarts, hi', hkept.pid.trans hpid⟩
  | register i pid pc hpc₁ =>
    have hnext := told.register w hs hpc
    rwa [Told, hpc'] at hnext
  | runEnter i pc pc' hpc₁ hpc₂ =>
    have hnext := told.runEnter (hnow h (.inl rfl)) w c hs
    rwa [Told, hpc'] at hnext
  | spurious i => exact ⟨hkeep (by simp) ▸ ht.1, (started_step heff (by simp)).trans ht.2⟩
  | stopEnter pc' hpc₁ =>
    rcases stopEnter_cases hs with ⟨hsend, -, -⟩ | ⟨i, hfind, -, hkill, htable⟩
    · obtain rfl := hpc'.symm.trans hsend
      exact hrefusal (hu rfl) trivial (Or.inl rfl)
    · obtain rfl := hpc'.symm.trans hkill
      have hreq := hkeep (by simp)
      exact ⟨hreq ▸ ht, hreq ▸ targets_stopEnter w (hnow h (.inr rfl)) hfind htable heff⟩
  | stopKill err i pid =>
    obtain ⟨htype, htarget⟩ := ht
    have hreq := hkeep (by simp)
    have hnot : ¬(s'.req h).Starts := hreq ▸ not_starts htype
    refine ⟨fun h => absurd (Or.inl h) hnot, fun h => absurd (Or.inr h) hnot, fun _ hok => ?_,
      fun h => absurd h hnot⟩
    obtain ⟨hresp, hk⟩ := stopKill_handler hs hpc hok
    exact ⟨_, hk, hreq ▸ htarget.step w heff, by rw [hresp, hreq]⟩
  | read resp =>
    have hreq := hkeep (by simp)
    have hnot : ¬(s'.req h).Starts := by
      rw [hreq]
      rintro (h | h) <;> rcases ht with ht | ht <;> cases h.symm.trans ht
    refine ⟨fun h => absurd (Or.inl h) hnot, fun h => absurd (Or.inr h) hnot, fun h => ?_,
      fun h => absurd h hnot⟩
    rw [hreq] at h
    rcases ht with ht | ht <;> cases h.symm.trans ht
  | send =>
    have hreq := hkeep (by simp)
    exact Reply.step ht w heff ⟨hreq, (hstep.resp_eq (Or.inl hpc)).1⟩ (by simp) (by simp)
  | _ => exact hkeep (by simp) ▸ ht

/-- A step keeps what the handlers know, if the states in which a run or a stop looks at the table
are passed. -/
theorem Told.step (ht : s.Told passed h)
    (hnow : ∀ g, e = .runEnter g ∨ e = .stopEnter g → passed s)
    (hu : (s.handler h).pc.unanswered = true → (s.handler h).resp.ok = false) (w : Wf s)
    (c : CodesOk s) (hs : s.step e = some s') : s'.Told passed h := by
  rcases step_pc hs h with hm | ⟨he, -, heq⟩
  · exact ht.move hnow hu w c hs hm
  · refine ht.frame w (step_effect hs) heq ?_ ?_
    · rintro rfl
      exact he rfl
    · rintro now rfl
      exact he rfl

theorem Told.step_of_run {C : Engine → Event → Prop} (ht : s.Told passed h)
    (hr : Transition.Run Engine.step C init s)
    (hnow : ∀ g, e = .runEnter g ∨ e = .stopEnter g → passed s) (hs : s.step e = some s') :
    s'.Told passed h :=
  ht.step hnow (unanswered_of_run hr h) (.of_run hr) (.of_run hr) hs

theorem Reply.mono (hr : s.Reply passed h) (hsub : ∀ t, passed t → passed' t) :
    s.Reply passed' h where
  start := hr.start
  run htype hok := by
    obtain ⟨i, t, hi, hended, heq⟩ := hr.run htype hok
    exact ⟨i, t, hi, { hended with passed := hsub t hended.passed }, heq⟩
  stop htype hok := by
    obtain ⟨k, hk, htarget, heq⟩ := hr.stop htype hok
    exact ⟨k, hk, htarget.imp_left fun h => h.imp_right fun ⟨t, ht, hslot⟩ => ⟨t, hsub t ht, hslot⟩,
      heq⟩
  refused := hr.refused

/-- More states have been passed. -/
theorem Told.mono (ht : s.Told passed h) (hsub : ∀ t, passed t → passed' t) :
    s.Told passed' h := by
  unfold Told at ht ⊢
  split at ht
  case h_16 i pid hpc =>
    exact ⟨ht.1, ht.2.imp_left fun h => h.imp_right fun ⟨t, hp, hslot⟩ => ⟨t, hsub t hp, hslot⟩⟩
  case h_18 hpc | h_19 hpc => exact ht.mono hsub
  all_goals exact ht

/-- The answer of a handler that has one says what `Reply` does. -/
theorem Told.reply (ht : s.Told passed h) (hpc : (s.handler h).pc.Answered) : s.Reply passed h := by
  unfold Told at ht
  rcases hpc with hpc | hpc <;> rw [hpc] at ht <;> exact ht

end Engine

end Jackfruit
