import Jackfruit.DescriptorTable
import Jackfruit.StartCalls

/-!
# The supervisor, its containers and their descriptors

The supervisor's threads with what they open, allocate, close and free, and the containers'
processes, each with its own table of descriptors. `clone` without `CLONE_FILES` copies the table
of the supervisor as it is at that moment, `exec` keeps the descriptors without close-on-exec, and
nothing in the repository sets close-on-exec.

What a handler has to close and free after a call is a list of statements (`todo`), which it works
off one by one before it goes on, so steps of other threads may come between any two of them. The
producer of a start frees its argument and closes the read end at any time after it was created. A
container's processes run `child_main` and then anything : they fork, open, duplicate and close.

`supervisor_signal_handler` is one step : that a second signal comes between its test of
`server_socket_fd` and the reset, and the same number is closed twice, is left out.

`acquired` and `released` are the descriptors of its pipe and the heap blocks that a start has
got and that have been closed or freed, in order, `sigkills` the starts that have sent SIGKILL with
the pids they sent it to, and `inherited` the table that a container got from `clone`. No step
reads them.
-/

set_option linter.unusedSectionVars false

namespace Jackfruit

/-- An open file of the supervisor or of a container. -/
inductive File
  /-- A standard stream of the supervisor. -/
  | std
  /-- The control socket. -/
  | listening
  /-- The connection of a handler. -/
  | client (h : ℕ)
  /-- The ends of the pipe of a start. -/
  | pipeRead (h : ℕ)
  | pipeWrite (h : ℕ)
  | devNull
  /-- A log file, the monitor's device, a connection that gets no handler, or a file of a
  container. -/
  | other
  deriving DecidableEq

/-- What a start acquires. -/
inductive Resource
  | readEnd
  | writeEnd
  | stack
  | childArg
  | producerArg
  deriving DecidableEq

/-- A statement that a handler has to execute before it goes on. -/
inductive Cleanup
  | closeRead
  | closeWrite
  | freeStack
  | freeChild
  /-- `kill(pid, SIGKILL)`. -/
  | kill (pid : ℤ)
  /-- `close(client_fd)`. -/
  | closeClient
  deriving DecidableEq

/-- `child_arg_t` without `write_fd`. -/
structure ChildArg where
  id : CStr
  rootfs : CStr
  command : CStr
  niceValue : ℤ
  deriving DecidableEq

/-- What `start_container_internal` passes to the child. -/
def Request.childArg (req : Request) : ChildArg where
  id := safeStrcpy req.id MAX_ID_LEN
  rootfs := safeStrcpy req.rootfs MAX_PATH_LEN
  command := safeStrcpy req.command MAX_CMD_LEN
  niceValue := req.niceValue

/-- Where a process of a container is in `child_main`. -/
inductive ChildPc
  | dupStdout
  | dupStderr
  | closeWrite
  | openNull
  | dupNull (devnull : ℕ)
  | closeNull (devnull : ℕ)
  | sethostname
  | chroot
  /-- At `execl`. -/
  | exec
  /-- In the program that the container runs. -/
  | program
  deriving DecidableEq

/-- A process of a container. -/
structure Proc where
  arg : ChildArg
  writeFd : ℕ
  pc : ChildPc
  fds : FdTable File
  inherited : FdTable File
  hostname : Option CStr
  root : Option CStr
  /-- What `/bin/sh -c` runs. -/
  command : Option CStr

/-- The supervisor and the containers. -/
structure Processes where
  engine : Engine
  fds : FdTable File
  /-- `server_socket_fd`. -/
  server : Option ℕ
  /-- `client_fd` of each handler. -/
  client : ℕ → ℕ
  pipefd : ℕ → ℕ × ℕ
  todo : ℕ → List Cleanup
  /-- The processes of the container that each handler started; the first is `child_main`. -/
  proc : ℕ → ℕ → Option Proc
  acquired : ℕ → List Resource
  released : ℕ → List Resource
  sigkills : List (ℕ × ℤ)

/-- What happens next. -/
inductive ProcessEvent
  | engine (e : Event)
  /-- The next statement of `todo`. -/
  | cleanup (h : ℕ)
  /-- `free(parg)` in a producer. -/
  | producerFree (h : ℕ)
  /-- `close(read_fd)` at the end of a producer. -/
  | producerClose (h : ℕ)
  /-- Another thread of the supervisor opens a file, or closes it. -/
  | openOther
  | closeOther (n : ℕ)
  /-- The next statement of `child_main`; `ok` says whether `/dev/null` can be opened. -/
  | child (h : ℕ) (ok : Bool)
  /-- What a program in a container does. -/
  | fork (h k k' : ℕ)
  | execve (h k : ℕ)
  | openFile (h k : ℕ) (cloexec : Bool)
  | dup (h k n m : ℕ)
  | close (h k n : ℕ)
  | exit (h k : ℕ)

/-- Something that the supervisor does. -/
def ProcessEvent.supervisor : ProcessEvent → Bool
  | .engine _ | .cleanup _ | .producerFree _ | .producerClose _ | .openOther | .closeOther _ => true
  | _ => false

/-- One statement of `child_main`. The statements that touch neither a descriptor nor the host
name, the root or the command are left out; if `chroot` or `chdir` fails the process exits. -/
def Proc.childStep (p : Proc) (ok : Bool) : Option Proc :=
  match p.pc with
  | .dupStdout => some { p with fds := p.fds.dup2 p.writeFd 1, pc := .dupStderr }
  | .dupStderr => some { p with fds := p.fds.dup2 p.writeFd 2, pc := .closeWrite }
  | .closeWrite => some { p with fds := p.fds.close p.writeFd, pc := .openNull }
  | .openNull =>
    if ok then some { p with fds := p.fds.openFile .devNull false, pc := .dupNull p.fds.lowest }
    else some { p with pc := .sethostname }
  | .dupNull devnull => some { p with fds := p.fds.dup2 devnull 0, pc := .closeNull devnull }
  | .closeNull devnull => some { p with fds := p.fds.close devnull, pc := .sethostname }
  | .sethostname => some { p with hostname := some p.arg.id, pc := .chroot }
  | .chroot => some { p with root := some p.arg.rootfs, pc := .exec }
  | .exec => some { p with fds := p.fds.exec, command := some p.arg.command, pc := .program }
  | .program => none

namespace Processes

/-- `run_supervisor` at its accept loop : the standard streams and the control socket are open. -/
def init : Processes where
  engine := Engine.init
  fds := [some ⟨.std, false⟩, some ⟨.std, false⟩, some ⟨.std, false⟩, some ⟨.listening, false⟩]
  server := some 3
  client _ := 0
  pipefd _ := (0, 0)
  todo _ := []
  proc _ _ := none
  acquired _ := []
  released _ := []
  sigkills := []

variable (s : Processes)

/-- The start of `h` has got these resources. -/
def acquire (h : ℕ) (l : List Resource) : Processes :=
  { s with acquired := Function.update s.acquired h (s.acquired h ++ l) }

/-- A resource of the start of `h` has been closed or freed. -/
def release (h : ℕ) (r : Resource) : Processes :=
  { s with released := Function.update s.released h (s.released h ++ [r]) }

/-- `h` has these statements to execute. -/
def owe (h : ℕ) (l : List Cleanup) : Processes :=
  { s with todo := Function.update s.todo h l }

/-- A process of the container of `h`. -/
def setProc (h k : ℕ) (p : Option Proc) : Processes :=
  { s with proc := Function.update s.proc h (Function.update (s.proc h) k p) }

/-- `close(n)` in the supervisor. -/
def closeFd (n : ℕ) : Processes :=
  let t := match s.fds.file n with
    | some (.pipeRead h) => s.release h .readEnd
    | some (.pipeWrite h) => s.release h .writeEnd
    | _ => s
  { t with fds := s.fds.close n }

/-- A successful `pipe`. -/
def openPipe (h : ℕ) : Processes :=
  let fds := s.fds.openFile (.pipeRead h) false
  { s.acquire h [.readEnd, .writeEnd] with
    fds := fds.openFile (.pipeWrite h) false
    pipefd := Function.update s.pipefd h (s.fds.lowest, fds.lowest) }

/-- A successful `clone`. -/
def fork (h : ℕ) : Processes :=
  s.setProc h 0 (some {
    arg := (s.engine.req h).childArg
    writeFd := (s.pipefd h).2
    pc := .dupStdout
    fds := s.fds
    inherited := s.fds
    hostname := none
    root := none
    command := none })

/-- `free(containers[i].child_stack)` in the slot that the reaper finds. -/
def freeStack : Processes :=
  match s.engine.reaper with
  | .holding g =>
    match (s.engine.child g).bind fun c => findContainerByPid s.engine.table c.pid with
    | some i =>
      match (s.engine.table i).childStack with
      | some h => s.release h .stack
      | none => s
    | none => s
  | _ => s

/-- What a step of the supervisor acquires and releases, and what it has to release before the
thread goes on. -/
def resources : Event → Processes
  | .signal =>
    match s.server with
    | some n => { s.closeFd n with server := none }
    | none => s
  | .accept h =>
    { s with
      fds := s.fds.openFile (.client h) false
      client := Function.update s.client h s.fds.lowest }
  | .pipe h none => s.openPipe h
  | .mallocStack h ok => if ok then s.acquire h [.stack] else s.owe h [.closeRead, .closeWrite]
  | .mallocChild h ok =>
    if ok then s.acquire h [.childArg] else s.owe h [.freeStack, .closeRead, .closeWrite]
  | .clone h (.ok _) => (s.fork h).owe h [.freeChild, .closeWrite]
  | .clone h (.error _) => s.owe h [.freeChild, .freeStack, .closeRead, .closeWrite]
  | .mallocArg h ok =>
    if ok then s.acquire h [.producerArg]
    else
      match (s.engine.handler h).pc with
      | .mallocArg _ pid => s.owe h [.kill pid, .closeRead, .freeStack]
      | _ => s
  | .send h | .hangup h => s.owe h [.closeClient]
  | .exit h _ => { s with proc := Function.update s.proc h fun _ => none }
  | .reap => s.freeStack
  | _ => s

/-- One statement of `todo`. -/
def perform (h : ℕ) : Cleanup → Processes
  | .closeRead => s.closeFd (s.pipefd h).1
  | .closeWrite => s.closeFd (s.pipefd h).2
  | .freeStack => s.release h .stack
  | .freeChild => s.release h .childArg
  | .kill pid => { s with sigkills := (h, pid) :: s.sigkills }
  | .closeClient => s.closeFd (s.client h)

/-- The handler of the event has something left to do. -/
def Blocked (e : Event) : Prop :=
  ∃ h ∈ e.handler, s.todo h ≠ []

instance (e : Event) : Decidable (s.Blocked e) :=
  inferInstanceAs (Decidable (∃ h ∈ e.handler, _))

/-- What a program in a container does to one of its processes. -/
def program (h k : ℕ) (f : FdTable File → FdTable File) : Option Processes :=
  match s.proc h k with
  | some p =>
    if p.pc = .program then some (s.setProc h k (some { p with fds := f p.fds })) else none
  | none => none

/-- One step. -/
def step (s : Processes) : ProcessEvent → Option Processes
  | .engine e =>
    if s.Blocked e then none
    else (s.engine.step e).map fun engine => { s.resources e with engine := engine }
  | .cleanup h =>
    match s.todo h with
    | c :: rest => some ((s.perform h c).owe h rest)
    | [] => none
  | .producerFree h =>
    if s.engine.producer h ≠ none ∧ .producerArg ∉ s.released h then
      some (s.release h .producerArg)
    else none
  | .producerClose h =>
    if s.engine.producer h ≠ none ∧ .producerArg ∈ s.released h ∧ .readEnd ∉ s.released h then
      some (s.closeFd (s.pipefd h).1)
    else none
  | .openOther => some { s with fds := s.fds.openFile .other false }
  | .closeOther n => if s.fds.file n = some .other then some (s.closeFd n) else none
  | .child h ok => ((s.proc h 0).bind fun p => p.childStep ok).map fun p => s.setProc h 0 (some p)
  | .fork h k k' =>
    match s.proc h k, s.proc h k' with
    | some p, none => if p.pc = .program then some (s.setProc h k' (some p)) else none
    | _, _ => none
  | .execve h k => s.program h k FdTable.exec
  | .openFile h k cloexec => s.program h k fun t => t.openFile .other cloexec
  | .dup h k n m => s.program h k fun t => t.dup2 n m
  | .close h k n => s.program h k fun t => t.close n
  | .exit h k => if k ≠ 0 ∧ s.proc h k ≠ none then some (s.setProc h k none) else none

/-- Reached from the accept loop by any steps. -/
def Reachable (s : Processes) : Prop :=
  Transition.Run step Transition.Always init s

end Processes

end Jackfruit
