import Jackfruit.Engine

/-!
# What one step of the supervisor does

`Effect s e s'` lists everything that the event `e` can do in the state `s`, with the guards
under which it happens. `step_effect` proves that the list is complete; every invariant of the
supervisor is derived from it, not from `step`.

`SlotStep`, `HandlerStep` and `ChildStep` are the same for one slot, one handler and one child
(`step_slot`, `step_handler`, `step_child`), which is all that most invariants need.
-/

set_option linter.unusedSectionVars false

namespace Jackfruit

/-- The client handler that takes a step. -/
def Event.handler : Event → Option ℕ
  | .recv h _ | .hangup h | .reserve h _ | .pipe h _ | .mallocStack h _ | .mallocChild h _
  | .clone h _ | .mallocArg h _ | .publish h | .rollback h | .createProducer h _ | .register h
  | .runEnter h | .spurious h | .stopEnter h | .stopKill h _ | .read h _ | .send h => some h
  | _ => none

/-- The handler to whose client a step sends. -/
def Event.client : Event → Option ℕ
  | .send h => some h
  | _ => none

namespace Engine

/-- A move between program points of a start that holds its slot and has not published it. -/
inductive SysMove : Pc → Pc → Prop
  | pipe (i : Slot) : SysMove (.pipe i) (.mallocStack i)
  | mallocStack (i : Slot) : SysMove (.mallocStack i) (.mallocChild i)
  | mallocChild (i : Slot) : SysMove (.mallocChild i) (.clone i)
  | mallocArg (i : Slot) (pid : ℤ) : SysMove (.mallocArg i pid) (.publish i pid)
  | pipeFail (i : Slot) (text : CStr) : SysMove (.pipe i) (.rollback i text)
  | mallocStackFail (i : Slot) (text : CStr) : SysMove (.mallocStack i) (.rollback i text)
  | mallocChildFail (i : Slot) (text : CStr) : SysMove (.mallocChild i) (.rollback i text)
  | cloneFail (i : Slot) (text : CStr) : SysMove (.clone i) (.rollback i text)
  | mallocArgFail (i : Slot) (pid : ℤ) (text : CStr) : SysMove (.mallocArg i pid) (.rollback i text)

/-- A step that changes one handler and nothing else that is shared. -/
inductive HandlerMove (hd : Handler) : Handler → Prop
  | accept : hd.pc = .absent → HandlerMove hd { hd with pc := .recv }
  | hangup : hd.pc = .recv → HandlerMove hd { hd with pc := .closed }
  | syscall (pc : Pc) : SysMove hd.pc pc → HandlerMove hd { hd with pc := pc }
  | refused (text : CStr) : hd.pc = .reserve ∨ hd.pc = .stop →
      HandlerMove hd { hd with resp := setResponse false (-1) text, pc := .send }
  | read (resp : Response) : hd.pc = .read → HandlerMove hd { hd with resp := resp, pc := .send }
  | send : hd.pc = .send → HandlerMove hd { hd with pc := .closed }

/-- What a signal or the main thread does to `supervisor_running` and to its program point,
outside `accept` and the section of `stop_all_live_containers`. -/
inductive MainMove (s : Engine) : Event → Bool → MainPc → Prop
  | signal : MainMove s .signal false s.main
  | loopTest : s.main = .loop →
      MainMove s .loopTest s.running (if s.running then .accepting else .stopAll)
  | acceptFail : s.main = .accepting →
      MainMove s .acceptFail s.running (if s.running then .loop else .stopAll)
  | logShutdown : s.main = .logShutdown → MainMove s .logShutdown false .joinConsumer
  | joinConsumer : s.main = .joinConsumer → MainMove s .joinConsumer s.running .joinReaper
  | joinReaper : s.main = .joinReaper → s.reaper = .exited →
      MainMove s .joinReaper s.running .returned

/-- The state after the first critical section of a start. -/
def reserved (s : Engine) (h : ℕ) (idx : Slot) (now : ℤ) : Engine :=
  { (s.setSlot idx ((s.table idx).reserve (s.req h) now)).setPc h (.pipe idx) with
    owner := Function.update s.owner idx (some h) }

/-- The state after a successful `clone`. -/
def forked (s : Engine) (h : ℕ) (idx : Slot) (pid : ℤ) : Engine :=
  { (s.setChild h ⟨pid, .alive⟩).setPc h (.mallocArg idx pid) with cloned := h :: s.cloned }

/-- The state after a failed start gave its slot back. -/
def rolledBack (s : Engine) (h : ℕ) (idx : Slot) (text : CStr) : Engine :=
  { (s.setSlot idx (s.table idx).release).respond h (setResponse false (-1) text) with
    owner := Function.update s.owner idx none }

/-- The state after the second critical section of a start. -/
def published (s : Engine) (h : ℕ) (idx : Slot) (pid : ℤ) : Engine :=
  (s.setSlot idx ((s.table idx).publish pid h)).setPc h (.createProducer idx pid)

/-- The state after the reaper's critical section for the child of `h`. -/
def recorded (s : Engine) (h : ℕ) (pid : ℤ) (status : ℕ) : Engine :=
  { s.setChild h ⟨pid, .handled status ((findContainerByPid s.table pid).map fun i =>
      (i, reapState (s.table i).stopRequested status))⟩ with
    table := reaperUpdate s.table pid status
    reaper := .waiting }

/-- Everything that an event can do. -/
inductive Effect (s : Engine) : Event → Engine → Prop
  | control (e : Event) (running : Bool) (main : MainPc) : MainMove s e running main →
      Effect s e { s with running := running, main := main }
  | reaperExit : s.reaper = .waiting → Effect s .reaperExit { s with reaper := .exited }
  | handler (e : Event) (h : ℕ) (hd : Handler) (main : MainPc) : e ≠ .reap →
      main = s.main ∨ s.main = .accepting ∧ main = .loop → HandlerMove (s.handler h) hd →
      Effect s e { s.setHandler h hd with main := main }
  | recv (h : ℕ) (req : Request) (resp : Response) : (s.handler h).pc = .recv → resp.ok = false →
      Effect s (.recv h req) (s.setHandler h ⟨req, resp, dispatch req⟩)
  | reserve (h : ℕ) (now : ℤ) (idx : Slot) : (s.handler h).pc = .reserve →
      startContainerCheck s.table (s.req h) = .ok idx →
      Effect s (.reserve h now) (s.reserved h idx now)
  | clone (h : ℕ) (idx : Slot) (pid : ℤ) : (s.handler h).pc = .clone idx → s.PidFree pid →
      Effect s (.clone h (.ok pid)) (s.forked h idx pid)
  | rollback (h : ℕ) (idx : Slot) (text : CStr) : (s.handler h).pc = .rollback idx text →
      Effect s (.rollback h) (s.rolledBack h idx text)
  | publish (h : ℕ) (idx : Slot) (pid : ℤ) : (s.handler h).pc = .publish idx pid →
      Effect s (.publish h) (s.published h idx pid)
  | createProducer (h : ℕ) (ok : Bool) (idx : Slot) (pid : ℤ) :
      (s.handler h).pc = .createProducer idx pid →
      Effect s (.createProducer h ok) { s.setPc h (.register idx pid) with
        producer := if ok then Function.update s.producer h (some idx) else s.producer }
  | register (h : ℕ) (idx : Slot) (pid : ℤ) (resp : Response) :
      (s.handler h).pc = .register idx pid →
      Effect s (.register h) { s.setHandler h { s.handler h with
          resp := resp
          pc := if (s.req h).type = REQ_RUN then .runTest idx else .send } with
        started := Function.update s.started h (some idx) }
  | runWait (h : ℕ) (idx : Slot) : s.runReady h = some idx →
      isLiveState (s.table idx).state = true →
      Effect s (.runEnter h) ((s.setSlot idx { s.table idx with
        stateCv := ((s.table idx).stateCv.resume h).wait h }).setPc h (.runWait idx))
  | runDone (h : ℕ) (idx : Slot) : s.runReady h = some idx →
      isLiveState (s.table idx).state = false →
      Effect s (.runEnter h) ((s.setSlot idx { s.table idx with
        stateCv := (s.table idx).stateCv.resume h }).respond h
          (runResponse (s.req h) (s.table idx)))
  | spurious (h : ℕ) (idx : Slot) : (s.handler h).pc = .runWait idx →
      Effect s (.spurious h) (s.setSlot idx { s.table idx with
        stateCv := (s.table idx).stateCv.wake h })
  | stopEnter (h : ℕ) (idx : Slot) : (s.handler h).pc = .stop →
      findContainerByIdLocked s.table (s.req h).id = some idx →
      isLiveState (s.table idx).state = true →
      Effect s (.stopEnter h) ((s.setSlot idx (s.table idx).requestStop).setPc h
        (.stopKill idx (s.table idx).pid))
  | stopKill (h : ℕ) (err : Option CStr) (idx : Slot) (pid : ℤ) (resp : Response) :
      (s.handler h).pc = .stopKill idx pid → resp.ok = err.isNone →
      Effect s (.stopKill h err) { s.respond h resp with sigterms := s.sigterms ++ [⟨idx, pid⟩] }
  | stopAll : s.main = .stopAll → Effect s .stopAll { s with
        table := stopAllLiveContainers s.table
        sigterms := s.sigterms ++ (liveSlots s.table).map fun i => ⟨i, (s.table i).pid⟩
        main := .logShutdown }
  | exit (h : ℕ) (pid : ℤ) (status : ℕ) : s.child h = some ⟨pid, .alive⟩ →
      (wifexited status || wifsignaled status) = true →
      Effect s (.exit h status) (s.setChild h ⟨pid, .zombie status⟩)
  | waitpid (h : ℕ) (pid : ℤ) (status : ℕ) : s.reaper = .waiting →
      s.child h = some ⟨pid, .zombie status⟩ →
      Effect s (.waitpid h) { s.setChild h ⟨pid, .reaped status⟩ with reaper := .holding h }
  | reap (h : ℕ) (pid : ℤ) (status : ℕ) : s.reaper = .holding h →
      s.child h = some ⟨pid, .reaped status⟩ → Effect s .reap (s.recorded h pid status)

/-- Everything that an event can do to the slot `i`. -/
inductive SlotStep (s : Engine) (e : Event) (i : Slot) : Container → Prop
  | same : SlotStep s e i (s.table i)
  | waiters (cv : CondVar ℕ) :
      (∀ h ∈ cv.asleep, h ∈ (s.table i).stateCv.asleep ∨ isLiveState (s.table i).state = true) →
      SlotStep s e i { s.table i with stateCv := cv }
  | stop : isLiveState (s.table i).state = true → SlotStep s e i (s.table i).requestStop
  | reserve (h : ℕ) (now : ℤ) : e = .reserve h now → (s.handler h).pc = .reserve →
      startContainerCheck s.table (s.req h) = .ok i →
      SlotStep s e i ((s.table i).reserve (s.req h) now)
  | release (h : ℕ) (text : CStr) : e = .rollback h → (s.handler h).pc = .rollback i text →
      SlotStep s e i (s.table i).release
  | publish (h : ℕ) (pid : ℤ) : e = .publish h → (s.handler h).pc = .publish i pid →
      SlotStep s e i ((s.table i).publish pid h)
  | reap (h : ℕ) (pid : ℤ) (status : ℕ) : e = .reap → s.reaper = .holding h →
      s.child h = some ⟨pid, .reaped status⟩ → findContainerByPid s.table pid = some i →
      SlotStep s e i ((s.table i).reap status)

/-- Everything that an event can do to the handler `h`. -/
inductive HandlerStep (s : Engine) (e : Event) (h : ℕ) : Handler → Prop
  | same : HandlerStep s e h (s.handler h)
  | move (hd : Handler) : HandlerMove (s.handler h) hd → HandlerStep s e h hd
  | recv (req : Request) (resp : Response) : e = .recv h req → (s.handler h).pc = .recv →
      resp.ok = false → HandlerStep s e h ⟨req, resp, dispatch req⟩
  | reserve (idx : Slot) : (s.handler h).pc = .reserve →
      HandlerStep s e h { s.handler h with pc := .pipe idx }
  | clone (idx : Slot) (pid : ℤ) : (s.handler h).pc = .clone idx →
      HandlerStep s e h { s.handler h with pc := .mallocArg idx pid }
  | rollback (idx : Slot) (text : CStr) : (s.handler h).pc = .rollback idx text →
      HandlerStep s e h { s.handler h with resp := setResponse false (-1) text, pc := .send }
  | publish (idx : Slot) (pid : ℤ) : (s.handler h).pc = .publish idx pid →
      HandlerStep s e h { s.handler h with pc := .createProducer idx pid }
  | createProducer (idx : Slot) (pid : ℤ) : (s.handler h).pc = .createProducer idx pid →
      HandlerStep s e h { s.handler h with pc := .register idx pid }
  | register (idx : Slot) (pid : ℤ) (resp : Response) : (s.handler h).pc = .register idx pid →
      HandlerStep s e h { s.handler h with
        resp := resp
        pc := if (s.req h).type = REQ_RUN then .runTest idx else .send }
  | runWait (idx : Slot) : s.runReady h = some idx → isLiveState (s.table idx).state = true →
      HandlerStep s e h { s.handler h with pc := .runWait idx }
  | runDone (idx : Slot) : s.runReady h = some idx → isLiveState (s.table idx).state = false →
      HandlerStep s e h { s.handler h with
        resp := runResponse (s.req h) (s.table idx)
        pc := .send }
  | stopEnter (idx : Slot) : e = .stopEnter h → (s.handler h).pc = .stop →
      findContainerByIdLocked s.table (s.req h).id = some idx →
      isLiveState (s.table idx).state = true →
      HandlerStep s e h { s.handler h with pc := .stopKill idx (s.table idx).pid }
  | stopKill (idx : Slot) (pid : ℤ) (resp : Response) : (s.handler h).pc = .stopKill idx pid →
      HandlerStep s e h { s.handler h with resp := resp, pc := .send }

/-- Everything that an event can do to the child of `h`. -/
inductive ChildStep (s : Engine) (e : Event) (h : ℕ) : Option Child → Prop
  | same : ChildStep s e h (s.child h)
  | clone (i : Slot) (pid : ℤ) : e = .clone h (.ok pid) → (s.handler h).pc = .clone i →
      s.PidFree pid → ChildStep s e h (some ⟨pid, .alive⟩)
  | exit (pid : ℤ) (status : ℕ) : s.child h = some ⟨pid, .alive⟩ →
      (wifexited status || wifsignaled status) = true →
      ChildStep s e h (some ⟨pid, .zombie status⟩)
  | waitpid (pid : ℤ) (status : ℕ) : s.reaper = .waiting →
      s.child h = some ⟨pid, .zombie status⟩ → ChildStep s e h (some ⟨pid, .reaped status⟩)
  | reap (pid : ℤ) (status : ℕ) : e = .reap → s.reaper = .holding h →
      s.child h = some ⟨pid, .reaped status⟩ →
      ChildStep s e h (some ⟨pid, .handled status ((findContainerByPid s.table pid).map fun i =>
        (i, reapState (s.table i).stopRequested status))⟩)

variable {s s' : Engine} {e : Event}

theorem step_next (hs : step s e = some s') : s.main ≠ .returned ∧ s.next e = some s' := by
  unfold step at hs
  split_ifs at hs with hm
  exact ⟨hm, hs⟩

/-- A step that only moves a handler between program points of its start. -/
theorem effect_syscall {h : ℕ} {pc : Pc} (he : e ≠ .reap) (hpc : SysMove (s.handler h).pc pc) :
    Effect s e (s.setPc h pc) :=
  .handler e h _ s.main he (Or.inl rfl) (.syscall pc hpc)

/-- The main thread. -/
theorem mainStep_effect (hs : s.mainStep e = some s') : Effect s e s' := by
  cases e with
  | loopTest =>
    simp only [mainStep] at hs
    obtain ⟨hc, hs⟩ := Option.ite_none_right_eq_some.mp hs
    cases hs
    exact .control _ _ _ (.loopTest hc)
  | accept h =>
    simp only [mainStep] at hs
    split_ifs at hs with hc
    cases hs
    exact .handler _ h _ .loop nofun (Or.inr ⟨hc.1, rfl⟩) (.accept hc.2)
  | acceptFail =>
    simp only [mainStep] at hs
    obtain ⟨hc, hs⟩ := Option.ite_none_right_eq_some.mp hs
    cases hs
    exact .control _ _ _ (.acceptFail hc)
  | stopAll =>
    simp only [mainStep] at hs
    split_ifs at hs with hc
    cases hs
    exact .stopAll hc
  | logShutdown =>
    simp only [mainStep] at hs
    split_ifs at hs with hc
    cases hs
    exact .control _ _ _ (.logShutdown hc)
  | joinConsumer =>
    simp only [mainStep] at hs
    split_ifs at hs with hc
    cases hs
    exact .control _ _ _ (.joinConsumer hc)
  | joinReaper =>
    simp only [mainStep] at hs
    split_ifs at hs with hc
    cases hs
    exact .control _ _ _ (.joinReaper hc.1 hc.2)
  | _ => cases hs

/-- A handler in `start_container_internal`. -/
theorem startStep_effect {h : ℕ} (he : e.handler = some h)
    (hs : s.startStep h e = some s') : Effect s e s' := by
  cases e with
  | reserve h now =>
    obtain rfl := Option.some.inj he
    simp only [startStep] at hs
    split at hs
    · rename_i text hpc hck
      cases hs
      exact .handler _ h _ s.main nofun (Or.inl rfl) (.refused text (Or.inl hpc))
    · rename_i idx hpc hck
      cases hs
      exact .reserve h now idx hpc hck
    · cases hs
  | pipe h err =>
    obtain rfl := Option.some.inj he
    simp only [startStep] at hs
    split at hs
    · rename_i idx hpc
      cases hs
      exact effect_syscall nofun (hpc ▸ .pipe idx)
    · rename_i idx text hpc
      cases hs
      exact effect_syscall nofun (hpc ▸ .pipeFail idx _)
    · cases hs
  | mallocStack h ok =>
    obtain rfl := Option.some.inj he
    simp only [startStep] at hs
    split at hs
    · rename_i idx hpc
      cases hs
      split_ifs
      · exact effect_syscall nofun (hpc ▸ .mallocStack idx)
      · exact effect_syscall nofun (hpc ▸ .mallocStackFail idx _)
    · cases hs
  | mallocChild h ok =>
    obtain rfl := Option.some.inj he
    simp only [startStep] at hs
    split at hs
    · rename_i idx hpc
      cases hs
      split_ifs
      · exact effect_syscall nofun (hpc ▸ .mallocChild idx)
      · exact effect_syscall nofun (hpc ▸ .mallocChildFail idx _)
    · cases hs
  | clone h res =>
    obtain rfl := Option.some.inj he
    simp only [startStep] at hs
    split at hs
    · rename_i idx text hpc
      cases hs
      exact effect_syscall nofun (hpc ▸ .cloneFail idx _)
    · rename_i idx pid hpc
      split_ifs at hs with hfree
      cases hs
      exact .clone h idx pid hpc hfree
    · cases hs
  | mallocArg h ok =>
    obtain rfl := Option.some.inj he
    simp only [startStep] at hs
    split at hs
    · rename_i idx pid hpc
      cases hs
      split_ifs
      · exact effect_syscall nofun (hpc ▸ .mallocArg idx pid)
      · exact effect_syscall nofun (hpc ▸ .mallocArgFail idx pid _)
    · cases hs
  | publish h =>
    obtain rfl := Option.some.inj he
    simp only [startStep] at hs
    split at hs
    · rename_i idx pid hpc
      cases hs
      exact .publish h idx pid hpc
    · cases hs
  | rollback h =>
    obtain rfl := Option.some.inj he
    simp only [startStep] at hs
    split at hs
    · rename_i idx text hpc
      cases hs
      exact .rollback h idx text hpc
    · cases hs
  | createProducer h ok =>
    obtain rfl := Option.some.inj he
    simp only [startStep] at hs
    split at hs
    · rename_i idx pid hpc
      cases hs
      exact .createProducer h ok idx pid hpc
    · cases hs
  | register h =>
    obtain rfl := Option.some.inj he
    simp only [startStep] at hs
    split at hs
    · rename_i idx pid hpc
      cases hs
      exact .register h idx pid _ hpc
    · cases hs
  | _ => cases hs

/-- A handler outside of it. -/
theorem handlerStep_effect {h : ℕ} (he : e.handler = some h)
    (hs : s.handlerStep h e = some s') : Effect s e s' := by
  cases e with
  | recv h req =>
    obtain rfl := Option.some.inj he
    simp only [handlerStep] at hs
    split at hs
    · rename_i hpc
      cases hs
      exact .recv h req _ hpc (by split_ifs <;> rfl)
    · cases hs
  | hangup h =>
    obtain rfl := Option.some.inj he
    simp only [handlerStep] at hs
    split_ifs at hs with hpc
    cases hs
    exact .handler _ h _ s.main nofun (Or.inl rfl) (.hangup hpc)
  | runEnter h =>
    obtain rfl := Option.some.inj he
    simp only [handlerStep] at hs
    split at hs
    · rename_i idx hready
      split_ifs at hs with hlive <;> cases hs
      · exact .runWait h idx hready hlive
      · exact .runDone h idx hready (by simpa using hlive)
    · cases hs
  | spurious h =>
    obtain rfl := Option.some.inj he
    simp only [handlerStep] at hs
    split at hs
    · rename_i idx hpc
      split_ifs at hs
      cases hs
      exact .spurious h idx hpc
    · cases hs
  | stopEnter h =>
    obtain rfl := Option.some.inj he
    simp only [handlerStep] at hs
    split at hs
    · rename_i hpc hfind
      cases hs
      exact .handler _ h _ s.main nofun (Or.inl rfl) (.refused _ (Or.inr hpc))
    · rename_i idx hpc hfind
      split_ifs at hs with hlive <;> cases hs
      · exact .stopEnter h idx hpc hfind hlive
      · exact .handler _ h _ s.main nofun (Or.inl rfl) (.refused _ (Or.inr hpc))
    · cases hs
  | stopKill h err =>
    obtain rfl := Option.some.inj he
    simp only [handlerStep] at hs
    split at hs
    · rename_i idx pid hpc
      cases hs
      exact .stopKill h err idx pid _ hpc (by cases err <;> rfl)
    · cases hs
  | read h resp =>
    obtain rfl := Option.some.inj he
    simp only [handlerStep] at hs
    split_ifs at hs with hpc
    cases hs
    exact .handler _ h _ s.main nofun (Or.inl rfl) (.read resp hpc)
  | send h =>
    obtain rfl := Option.some.inj he
    simp only [handlerStep] at hs
    split_ifs at hs with hpc
    cases hs
    exact .handler _ h _ s.main nofun (Or.inl rfl) (.send hpc)
  | _ => cases hs

/-- The children and the reaper. -/
theorem reaperStep_effect (hs : s.reaperStep e = some s') : Effect s e s' := by
  cases e with
  | exit h status =>
    simp only [reaperStep] at hs
    split at hs
    · rename_i pid hchild
      split_ifs at hs with hst
      cases hs
      exact .exit h pid status hchild hst
    · cases hs
  | waitpid h =>
    simp only [reaperStep] at hs
    split at hs
    · rename_i pid status hr hchild
      cases hs
      exact .waitpid h pid status hr hchild
    · cases hs
  | reap =>
    simp only [reaperStep] at hs
    split at hs
    · rename_i h hr
      split at hs
      · rename_i pid status hchild
        cases hs
        exact .reap h pid status hr hchild
      · cases hs
    · cases hs
  | reaperExit =>
    simp only [reaperStep] at hs
    split_ifs at hs with hc
    cases hs
    exact .reaperExit hc.1
  | _ => cases hs

/-- Everything a step does is an effect of its event. -/
theorem step_effect (hs : step s e = some s') : Effect s e s' := by
  replace hs := (step_next hs).2
  cases e with
  | signal =>
    obtain rfl := Option.some.inj hs
    exact .control _ _ _ .signal
  | loopTest | accept | acceptFail | stopAll | logShutdown | joinConsumer | joinReaper =>
    exact mainStep_effect hs
  | reserve | pipe | mallocStack | mallocChild | clone | mallocArg | publish | rollback
  | createProducer | register => exact startStep_effect rfl hs
  | recv | hangup | runEnter | spurious | stopEnter | stopKill | read | send =>
    exact handlerStep_effect rfl hs
  | exit | waitpid | reap | reaperExit => exact reaperStep_effect hs

/-- The reaper's critical section. -/
theorem effect_reap (hs : Effect s .reap s') :
    ∃ h pid status, s.reaper = .holding h ∧ s.child h = some ⟨pid, .reaped status⟩ ∧
      s' = s.recorded h pid status := by
  cases hs with
  | control _ _ _ hm => cases hm
  | handler _ _ _ _ hne => exact absurd rfl hne
  | reap h pid status hr hc => exact ⟨h, pid, status, hr, hc, rfl⟩

/-- A step that writes the slot `j` only. -/
theorem SlotStep.update {i j : Slot} {c : Container} (hc : SlotStep s e j c) :
    SlotStep s e i (Function.update s.table j c i) := by
  rcases eq_or_ne i j with rfl | hij
  · rwa [Function.update_self]
  · rw [Function.update_of_ne hij]
    exact .same

/-- Everything a step does to a slot. -/
theorem step_slot (hs : Effect s e s') (i : Slot) : SlotStep s e i (s'.table i) := by
  cases hs with
  | reserve h now idx hpc hck => exact .update (.reserve h now rfl hpc hck)
  | rollback h idx text hpc => exact .update (.release h text rfl hpc)
  | publish h idx pid hpc => exact .update (.publish h pid rfl hpc)
  | runWait h idx hready hlive => exact .update (.waiters _ fun g _ => Or.inr hlive)
  | runDone h idx hready hlive =>
    refine .update (.waiters _ fun g hg => Or.inl ?_)
    simpa using hg
  | spurious h idx hpc =>
    exact .update (.waiters _ fun g hg => Or.inl (CondVar.asleep_wake_subset hg))
  | stopEnter h idx hpc hfind hlive => exact .update (.stop hlive)
  | stopAll =>
    change SlotStep s _ i (stopAllLiveContainers s.table i)
    unfold stopAllLiveContainers
    split_ifs with hi
    · exact .stop (mem_liveSlots.mp hi).2
    · exact .same
  | reap h pid status hr hchild =>
    change SlotStep s _ i (reaperUpdate s.table pid status i)
    unfold reaperUpdate
    cases hfind : findContainerByPid s.table pid with
    | none => exact .same
    | some j => exact .update (.reap h pid status rfl hr hchild hfind)
  | _ => exact .same

theorem HandlerStep.update {g h : ℕ} {hd : Handler} (hc : HandlerStep s e g hd) :
    HandlerStep s e h (Function.update s.handler g hd h) := by
  rcases eq_or_ne h g with rfl | hgh
  · rwa [Function.update_self]
  · rw [Function.update_of_ne hgh]
    exact .same

/-- Everything a step does to a handler. -/
theorem step_handler (hs : Effect s e s') (h : ℕ) : HandlerStep s e h (s'.handler h) := by
  cases hs with
  | handler e g hd main he hmain hm => exact .update (.move hd hm)
  | recv g req resp hpc hok => exact .update (.recv req resp rfl hpc hok)
  | reserve g now idx hpc => exact .update (.reserve idx hpc)
  | clone g idx pid hpc => exact .update (.clone idx pid hpc)
  | rollback g idx text hpc => exact .update (.rollback idx text hpc)
  | publish g idx pid hpc => exact .update (.publish idx pid hpc)
  | createProducer g ok idx pid hpc => exact .update (.createProducer idx pid hpc)
  | register g idx pid resp hpc => exact .update (.register idx pid resp hpc)
  | runWait g idx hready hlive => exact .update (.runWait idx hready hlive)
  | runDone g idx hready hlive => exact .update (.runDone idx hready hlive)
  | stopEnter g idx hpc hfind hlive => exact .update (.stopEnter idx rfl hpc hfind hlive)
  | stopKill g err idx pid resp hpc => exact .update (.stopKill idx pid resp hpc)
  | _ => exact .same

theorem ChildStep.update {g h : ℕ} {c : Child} (hc : ChildStep s e g (some c)) :
    ChildStep s e h (Function.update s.child g (some c) h) := by
  rcases eq_or_ne h g with rfl | hgh
  · rwa [Function.update_self]
  · rw [Function.update_of_ne hgh]
    exact .same

/-- Everything a step does to a child. -/
theorem step_child (hs : Effect s e s') (h : ℕ) : ChildStep s e h (s'.child h) := by
  cases hs with
  | clone g i pid hpc hfree => exact .update (.clone i pid rfl hpc hfree)
  | exit g pid status hc hst => exact .update (.exit pid status hc hst)
  | waitpid g pid status hr hc => exact .update (.waitpid pid status hr hc)
  | reap g pid status hr hc => exact .update (.reap pid status rfl hr hc)
  | _ => exact .same

/-- Only the reaper's critical section for a child makes it handled. -/
theorem step_handled {h : ℕ} {c : Child} (hs : Effect s e s') (hc : s'.child h = some c)
    (hh : c.Handled) :
    s.child h = some c ∨ ∃ pid status, e = .reap ∧ s.reaper = .holding h ∧
      s.child h = some ⟨pid, .reaped status⟩ ∧ s' = s.recorded h pid status := by
  have key {g : ℕ} {c₀ : Child} (hc₀ : Function.update s.child g (some c₀) h = some c)
      (hne : ¬c₀.Handled) : s.child h = some c := by
    rcases eq_or_ne h g with rfl | hgh
    · rw [Function.update_self] at hc₀
      exact absurd (Option.some.inj hc₀ ▸ hh) hne
    · rwa [Function.update_of_ne hgh] at hc₀
  cases hs with
  | clone g i pid hpc hfree => exact Or.inl (key hc (by simp [Child.Handled]))
  | exit g pid status hc₀ hst => exact Or.inl (key hc (by simp [Child.Handled]))
  | waitpid g pid status hr hc₀ => exact Or.inl (key hc (by simp [Child.Handled]))
  | reap g pid status hr hc₀ =>
    rcases eq_or_ne h g with rfl | hgh
    · exact Or.inr ⟨pid, status, rfl, hr, hc₀, rfl⟩
    · exact Or.inl ((Function.update_of_ne hgh _ _).symm.trans hc)
  | _ => exact Or.inl hc

/-- The main thread has joined the consumer only after that step. -/
theorem step_joined (hs : Effect s e s') (hj : s'.main.Joined) :
    s.main.Joined ∨ e = .joinConsumer := by
  cases hs with
  | control e running main hm =>
    cases hm with
    | signal => exact Or.inl hj
    | loopTest | acceptFail =>
      dsimp only at hj
      split_ifs at hj <;> simp [MainPc.Joined] at hj
    | logShutdown => simp [MainPc.Joined] at hj
    | joinConsumer => exact Or.inr rfl
    | joinReaper hmain => exact Or.inl (Or.inl hmain)
  | handler e h hd main he hmain =>
    rcases hmain with rfl | ⟨-, rfl⟩
    · exact Or.inl hj
    · simp [MainPc.Joined] at hj
  | stopAll => simp [MainPc.Joined] at hj
  | _ => exact Or.inl hj

/-- The main thread is in its accept loop, and `supervisor_running` is set. -/
def Serving (s : Engine) : Prop :=
  s.running = true ∧ (s.main = .loop ∨ s.main = .accepting)

/-- Only a signal ends the accept loop. -/
theorem Serving.step (hv : Serving s) (hs : Effect s e s') (he : e ≠ .signal) : Serving s' := by
  obtain ⟨hrun, hmain⟩ := hv
  cases hs with
  | control e running main hm =>
    cases hm with
    | signal => exact absurd rfl he
    | loopTest | acceptFail => exact ⟨hrun, by simp [hrun]⟩
    | logShutdown hc | joinConsumer hc | joinReaper hc => simp [hc] at hmain
  | handler e h hd main hne hm =>
    rcases hm with rfl | ⟨-, rfl⟩
    · exact ⟨hrun, hmain⟩
    · exact ⟨hrun, Or.inl rfl⟩
  | stopAll hc => simp [hc] at hmain
  | _ => exact ⟨hrun, hmain⟩

end Engine

end Jackfruit
