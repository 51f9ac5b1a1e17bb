import Jackfruit.Container
import Jackfruit.Transition

/-!
# The supervisor's threads

`engine.c` as a machine : client handlers (`client_handler_main` with `start_container_internal`
and `stop_container_by_id`), the reaper, the main thread of `run_supervisor`, and the kernel's
processes. Every critical section under `containers_mutex` is one step, and so is every system
call outside it; the handlers stop at a program point (`Pc`) between any two of them. What a
system call returns, when a child exits and with which status, and which pid `clone` hands out
are chosen by the event, so every interleaving with every failure is a run.

A handler serves one request and clones at most once, so a child is named by its handler. The
kernel never gives a new child the pid of a child that has not been waited for; it may give it
any other.

`owner` is the handler that reserved a used slot, `started` the slot with which a handler's
start returned `0`, `sigterms` the signals sent by stop requests and by the shutdown. No step
reads them.
-/

namespace Jackfruit

/-- Where a client handler is. -/
inductive Pc
  /-- The thread does not exist yet. -/
  | absent
  /-- In `recv_all`. -/
  | recv
  /-- At the first critical section of `start_container_internal`. -/
  | reserve
  | pipe (idx : Slot)
  | mallocStack (idx : Slot)
  | mallocChild (idx : Slot)
  | clone (idx : Slot)
  /-- The child runs; the write end is closed and `producer_arg_t` allocated. -/
  | mallocArg (idx : Slot) (pid : ℤ)
  /-- At the second critical section. -/
  | publish (idx : Slot) (pid : ℤ)
  /-- A failed start, about to give its slot back and return `-1`. -/
  | rollback (idx : Slot) (text : CStr)
  | createProducer (idx : Slot) (pid : ℤ)
  | register (idx : Slot) (pid : ℤ)
  /-- A run request at the mutex, before it looks at the state of its slot. -/
  | runTest (idx : Slot)
  /-- A run request in `pthread_cond_wait`. -/
  | runWait (idx : Slot)
  /-- At the critical section of `stop_container_by_id`. -/
  | stop
  | stopKill (idx : Slot) (pid : ℤ)
  /-- A ps or logs request. -/
  | read
  /-- Has its response and sends it. -/
  | send
  | closed
  deriving DecidableEq

/-- A client handler with its local variables. -/
structure Handler where
  req : Request
  resp : Response
  pc : Pc

/-- A handler that has not been created yet. -/
def Handler.init : Handler :=
  ⟨⟨0, [], [], [], 0, 0, 0⟩, initResponse, .absent⟩

/-- A child, from its clone to the end of the reaper's loop body for it. -/
inductive ChildLife
  | alive
  | zombie (status : ℕ)
  /-- `waitpid` has returned it. -/
  | reaped (status : ℕ)
  /-- The reaper is done with it and has recorded its end in the slot `written`, if in any. -/
  | handled (status : ℕ) (written : Option (Slot × ContainerState))
  deriving DecidableEq

/-- A child with its pid. -/
structure Child where
  pid : ℤ
  life : ChildLife
  deriving DecidableEq

/-- The wait status of a child that has ended. -/
def ChildLife.status : ChildLife → Option ℕ
  | .alive => none
  | .zombie status | .reaped status | .handled status _ => some status

/-- The kernel still holds the pid for this child. -/
def Child.Unreaped (c : Child) : Prop :=
  match c.life with
  | .alive => True
  | .zombie _ => True
  | _ => False

/-- The reaper is done with this child. -/
def Child.Handled (c : Child) : Prop :=
  match c.life with
  | .handled _ _ => True
  | _ => False

instance (c : Child) : Decidable c.Unreaped := by
  unfold Child.Unreaped
  split <;> infer_instance

instance (c : Child) : Decidable c.Handled := by
  unfold Child.Handled
  split <;> infer_instance

/-- Where `reaper_main` is. -/
inductive ReaperPc
  | waiting
  /-- `waitpid` returned the child of this handler. -/
  | holding (h : ℕ)
  | exited
  deriving DecidableEq

/-- Where the main thread is in `run_supervisor`. -/
inductive MainPc
  /-- At the test of the accept loop. -/
  | loop
  | accepting
  | stopAll
  | logShutdown
  | joinConsumer
  | joinReaper
  | returned
  deriving DecidableEq

/-- The consumer has been joined. -/
def MainPc.Joined (main : MainPc) : Prop :=
  main = .joinReaper ∨ main = .returned

/-- A `kill(pid, SIGTERM)` for a slot. -/
structure SigTerm where
  slot : Slot
  pid : ℤ
  deriving DecidableEq

/-- The supervisor : the table, what its threads are at, and its children, which are named by the
handlers that have cloned them. -/
structure Engine where
  table : Table
  handler : ℕ → Handler
  /-- `supervisor_running`. -/
  running : Bool
  main : MainPc
  reaper : ReaperPc
  child : ℕ → Option Child
  /-- The handlers that have cloned. -/
  cloned : List ℕ
  /-- The producer threads and their `container_index`. -/
  producer : ℕ → Option Slot
  owner : Slot → Option ℕ
  started : ℕ → Option Slot
  sigterms : List SigTerm

/-- What happens next. -/
inductive Event
  /-- SIGINT or SIGTERM. -/
  | signal
  | loopTest
  | accept (h : ℕ)
  | acceptFail
  | stopAll
  | logShutdown
  | joinConsumer
  | joinReaper
  /-- `recv_all` has a complete request. -/
  | recv (h : ℕ) (req : Request)
  /-- `recv_all` failed. -/
  | hangup (h : ℕ)
  | reserve (h : ℕ) (now : ℤ)
  /-- `pipe`, with `strerror(errno)` if it fails. -/
  | pipe (h : ℕ) (err : Option CStr)
  | mallocStack (h : ℕ) (ok : Bool)
  | mallocChild (h : ℕ) (ok : Bool)
  | clone (h : ℕ) (pid : Except CStr ℤ)
  | mallocArg (h : ℕ) (ok : Bool)
  | publish (h : ℕ)
  | rollback (h : ℕ)
  | createProducer (h : ℕ) (ok : Bool)
  | register (h : ℕ)
  | runEnter (h : ℕ)
  /-- A spurious wake-up. -/
  | spurious (h : ℕ)
  | stopEnter (h : ℕ)
  | stopKill (h : ℕ) (err : Option CStr)
  | read (h : ℕ) (resp : Response)
  | send (h : ℕ)
  | exit (h : ℕ) (status : ℕ)
  | waitpid (h : ℕ)
  | reap
  | reaperExit

namespace Engine

/-- `run_supervisor` at its accept loop. -/
def init : Engine where
  table := initContainers
  handler _ := Handler.init
  running := true
  main := .loop
  reaper := .waiting
  child _ := none
  cloned := []
  producer _ := none
  owner _ := none
  started _ := none
  sigterms := []

variable (s : Engine)

/-- The handler `h` becomes `hd`. -/
def setHandler (h : ℕ) (hd : Handler) : Engine :=
  { s with handler := Function.update s.handler h hd }

/-- The handler `h` moves to `pc`. -/
def setPc (h : ℕ) (pc : Pc) : Engine :=
  s.setHandler h { s.handler h with pc := pc }

/-- The handler `h` has its response. -/
def respond (h : ℕ) (resp : Response) : Engine :=
  s.setHandler h { s.handler h with resp := resp, pc := .send }

/-- The slot `i` becomes `c`. -/
def setSlot (i : Slot) (c : Container) : Engine :=
  { s with table := Function.update s.table i c }

/-- The child of `h` becomes `c`. -/
def setChild (h : ℕ) (c : Child) : Engine :=
  { s with child := Function.update s.child h (some c) }

/-- Where a request goes after `recv_all`. -/
def dispatch (req : Request) : Pc :=
  if req.type = REQ_START ∨ req.type = REQ_RUN then .reserve
  else if req.type = REQ_PS ∨ req.type = REQ_LOGS then .read
  else if req.type = REQ_STOP then .stop
  else .send

/-- `clone` hands out a positive pid that no child still has. -/
def PidFree (pid : ℤ) : Prop :=
  0 < pid ∧ ∀ h ∈ s.cloned, ∀ c ∈ s.child h, c.Unreaped → c.pid ≠ pid

instance (pid : ℤ) : Decidable (s.PidFree pid) :=
  inferInstanceAs (Decidable (_ ∧ _))

/-- The request in the handler's local variable. -/
abbrev req (h : ℕ) : Request :=
  (s.handler h).req

/-- One step of a client handler inside `start_container_internal`. -/
def startStep (h : ℕ) : Event → Option Engine
  | .reserve _ now =>
    match (s.handler h).pc, startContainerCheck s.table (s.req h) with
    | .reserve, .error text => some (s.respond h (setResponse false (-1) text))
    | .reserve, .ok idx =>
      some { (s.setSlot idx ((s.table idx).reserve (s.req h) now)).setPc h (.pipe idx) with
        owner := Function.update s.owner idx (some h) }
    | _, _ => none
  | .pipe _ err =>
    match (s.handler h).pc, err with
    | .pipe idx, none => some (s.setPc h (.mallocStack idx))
    | .pipe idx, some text => some (s.setPc h (.rollback idx (cstr "pipe failed: " ++ text)))
    | _, _ => none
  | .mallocStack _ ok =>
    match (s.handler h).pc with
    | .mallocStack idx =>
      some (s.setPc h (if ok then .mallocChild idx else .rollback idx (cstr "malloc failed")))
    | _ => none
  | .mallocChild _ ok =>
    match (s.handler h).pc with
    | .mallocChild idx =>
      some (s.setPc h (if ok then .clone idx else .rollback idx (cstr "malloc failed")))
    | _ => none
  | .clone _ res =>
    match (s.handler h).pc, res with
    | .clone idx, .error text => some (s.setPc h (.rollback idx (cstr "clone failed: " ++ text)))
    | .clone idx, .ok pid =>
      if s.PidFree pid then
        some { (s.setChild h ⟨pid, .alive⟩).setPc h (.mallocArg idx pid) with
          cloned := h :: s.cloned }
      else none
    | _, _ => none
  | .mallocArg _ ok =>
    match (s.handler h).pc with
    | .mallocArg idx pid =>
      some (s.setPc h (if ok then .publish idx pid else .rollback idx (cstr "malloc failed")))
    | _ => none
  | .rollback _ =>
    match (s.handler h).pc with
    | .rollback idx text =>
      some { (s.setSlot idx (s.table idx).release).respond h (setResponse false (-1) text) with
        owner := Function.update s.owner idx none }
    | _ => none
  | .publish _ =>
    match (s.handler h).pc with
    | .publish idx pid =>
      some ((s.setSlot idx ((s.table idx).publish pid h)).setPc h (.createProducer idx pid))
    | _ => none
  | .createProducer _ ok =>
    match (s.handler h).pc with
    | .createProducer idx pid =>
      some { s.setPc h (.register idx pid) with
        producer := if ok then Function.update s.producer h (some idx) else s.producer }
    | _ => none
  | .register _ =>
    match (s.handler h).pc with
    | .register idx pid =>
      let resp := setResponse true 0
        (cstr "Container " ++ (s.req h).id ++ cstr " started (PID " ++ decimal pid ++ cstr ")")
      some { s.setHandler h { s.handler h with
          resp := resp
          pc := if (s.req h).type = REQ_RUN then .runTest idx else .send } with
        started := Function.update s.started h (some idx) }
    | _ => none
  | _ => none

/-- The slot whose state a run handler may look at : it is at the mutex, or woken. -/
def runReady (h : ℕ) : Option Slot :=
  match (s.handler h).pc with
  | .runTest idx => some idx
  | .runWait idx => if h ∈ (s.table idx).stateCv.woken then some idx else none
  | _ => none

/-- The response of a run request for the slot that ended. -/
def runResponse (req : Request) (c : Container) : Response :=
  setResponse true c.exitCode
    (cstr "Container " ++ req.id ++ cstr " finished with state=" ++ c.state.text ++
      cstr " exit=" ++ decimal c.exitCode)

/-- One step of a client handler outside `start_container_internal`. -/
def handlerStep (h : ℕ) : Event → Option Engine
  | .recv _ req =>
    match (s.handler h).pc with
    | .recv =>
      let resp := if dispatch req = .send then setResponse false (-1) (cstr "Unknown request")
        else initResponse
      some (s.setHandler h ⟨req, resp, dispatch req⟩)
    | _ => none
  | .hangup _ => if (s.handler h).pc = .recv then some (s.setPc h .closed) else none
  | .runEnter _ =>
    match s.runReady h with
    | some idx =>
      let c := s.table idx
      if isLiveState c.state then
        some ((s.setSlot idx { c with stateCv := (c.stateCv.resume h).wait h }).setPc h
          (.runWait idx))
      else
        some ((s.setSlot idx { c with stateCv := c.stateCv.resume h }).respond h
          (runResponse (s.req h) c))
    | none => none
  | .spurious _ =>
    match (s.handler h).pc with
    | .runWait idx =>
      if h ∈ (s.table idx).stateCv.asleep then
        some (s.setSlot idx { s.table idx with stateCv := (s.table idx).stateCv.wake h })
      else none
    | _ => none
  | .stopEnter _ =>
    match (s.handler h).pc, findContainerByIdLocked s.table (s.req h).id with
    | .stop, none =>
      some (s.respond h (setResponse false (-1) (cstr "No such container: " ++ (s.req h).id)))
    | .stop, some idx =>
      if isLiveState (s.table idx).state then
        some ((s.setSlot idx (s.table idx).requestStop).setPc h
          (.stopKill idx (s.table idx).pid))
      else
        some (s.respond h (setResponse false (-1)
          (cstr "Container " ++ (s.req h).id ++ cstr " is not running")))
    | _, _ => none
  | .stopKill _ err =>
    match (s.handler h).pc with
    | .stopKill idx pid =>
      let resp := match err with
        | none => setResponse true 0 (cstr "Stop requested for " ++ (s.req h).id ++
            cstr " (PID " ++ decimal pid ++ cstr ")")
        | some text => setResponse false (-1)
            (cstr "Failed to stop " ++ (s.req h).id ++ cstr ": " ++ text)
      some { s.respond h resp with sigterms := s.sigterms ++ [⟨idx, pid⟩] }
    | _ => none
  | .read _ resp => if (s.handler h).pc = .read then some (s.respond h resp) else none
  | .send _ => if (s.handler h).pc = .send then some (s.setPc h .closed) else none
  | _ => none

/-- One step of the main thread. -/
def mainStep : Event → Option Engine
  | .loopTest =>
    if s.main = .loop then
      some { s with main := if s.running then .accepting else .stopAll }
    else none
  | .accept h =>
    if s.main = .accepting ∧ (s.handler h).pc = .absent then
      some { s.setPc h .recv with main := .loop }
    else none
  | .acceptFail =>
    if s.main = .accepting then some { s with main := if s.running then .loop else .stopAll }
    else none
  | .stopAll =>
    if s.main = .stopAll then
      some { s with
        table := stopAllLiveContainers s.table
        sigterms := s.sigterms ++ (liveSlots s.table).map fun i => ⟨i, (s.table i).pid⟩
        main := .logShutdown }
    else none
  | .logShutdown =>
    if s.main = .logShutdown then some { s with running := false, main := .joinConsumer } else none
  | .joinConsumer =>
    if s.main = .joinConsumer then some { s with main := .joinReaper } else none
  | .joinReaper =>
    if s.main = .joinReaper ∧ s.reaper = .exited then some { s with main := .returned } else none
  | _ => none

/-- One step of a child or of the reaper. -/
def reaperStep : Event → Option Engine
  | .exit h status =>
    match s.child h with
    | some ⟨pid, .alive⟩ =>
      -- `waitpid` without options reports exits and deaths by signal only.
      if wifexited status || wifsignaled status then some (s.setChild h ⟨pid, .zombie status⟩)
      else none
    | _ => none
  | .waitpid h =>
    match s.reaper, s.child h with
    | .waiting, some ⟨pid, .zombie status⟩ =>
      some { s.setChild h ⟨pid, .reaped status⟩ with reaper := .holding h }
    | _, _ => none
  | .reap =>
    match s.reaper with
    | .holding h =>
      match s.child h with
      | some ⟨pid, .reaped status⟩ =>
        let written := (findContainerByPid s.table pid).map fun i =>
          (i, reapState (s.table i).stopRequested status)
        some { s.setChild h ⟨pid, .handled status written⟩ with
          table := reaperUpdate s.table pid status
          reaper := .waiting }
      | _ => none
    | _ => none
  | .reaperExit =>
    if s.reaper = .waiting ∧ s.running = false ∧
        ∀ h ∈ s.cloned, ∀ c ∈ s.child h, ¬c.Unreaped then
      some { s with reaper := .exited }
    else none
  | _ => none

/-- Which thread takes the step. -/
def next : Event → Option Engine
  | .signal => some { s with running := false }
  | e@(.reserve h _) | e@(.pipe h _) | e@(.mallocStack h _) | e@(.mallocChild h _)
  | e@(.clone h _) | e@(.mallocArg h _) | e@(.publish h) | e@(.rollback h)
  | e@(.createProducer h _) | e@(.register h) => s.startStep h e
  | e@(.recv h _) | e@(.hangup h) | e@(.runEnter h) | e@(.spurious h) | e@(.stopEnter h)
  | e@(.stopKill h _) | e@(.read h _) | e@(.send h) => s.handlerStep h e
  | e@(.exit _ _) | e@(.waitpid _) | e@.reap | e@.reaperExit => s.reaperStep e
  | e => s.mainStep e

/-- One step; none once `run_supervisor` has returned and the process is gone. -/
def step (s : Engine) (e : Event) : Option Engine :=
  if s.main = .returned then none else s.next e

/-- Reached from the accept loop by any steps. -/
def Reachable (s : Engine) : Prop :=
  Transition.Run step Transition.Always init s

end Engine

end Jackfruit
