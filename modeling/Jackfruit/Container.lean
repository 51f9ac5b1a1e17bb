import Jackfruit.CondVar
import Mathlib.Algebra.GroupWithZero.Nat
import Mathlib.Algebra.Ring.Int.Defs
import Mathlib.Data.Fintype.Basic
import Mathlib.Data.List.FinRange
import Mathlib.Tactic.SplitIfs

/-!
# The container table

The records of `engine.c` and the functions on the table of containers that run under
`containers_mutex`. A C string is the list of its bytes before the NUL, and a fixed-size field
holds what `safe_strcpy` leaves of a string. The request's text fields are the strings that the
code reads at those fields; they are longer than the field if no NUL is in it.

`startContainerReserve`, `Container.publish`, `reaperUpdate` and the others are the critical
sections as functions on the table. The threads that run them are in `Jackfruit.Engine`.
-/

namespace Jackfruit

/-- The slots of the table. -/
def MAX_CONTAINERS : ℕ := 10

/-- The size of an id, with its NUL. -/
def MAX_ID_LEN : ℕ := 32

/-- The size of a path, with its NUL. -/
def MAX_PATH_LEN : ℕ := 256

/-- The size of a command, with its NUL. -/
def MAX_CMD_LEN : ℕ := 256

/-- The size of the message of a response, with its NUL. -/
def RESPONSE_MSG_LEN : ℕ := 8192

instance : NeZero MAX_CONTAINERS :=
  ⟨Nat.succ_ne_zero 9⟩

/-- The range of an `int`. -/
def IsInt (n : ℤ) : Prop :=
  -2 ^ 31 ≤ n ∧ n < 2 ^ 31

instance (n : ℤ) : Decidable (IsInt n) :=
  inferInstanceAs (Decidable (_ ∧ _))

/-- The bytes of a C string. -/
abbrev CStr :=
  List UInt8

/-- A string literal. -/
def cstr (s : String) : CStr :=
  s.toList.map fun c => UInt8.ofNat c.toNat

/-- `%d`. -/
def decimal (n : ℤ) : CStr :=
  cstr (toString n)

/-- What `snprintf` leaves of a text in a buffer of `size` bytes. -/
def snprintf (size : ℕ) (text : CStr) : CStr :=
  text.take (size - 1)

/-- `safe_strcpy`. -/
def safeStrcpy (src : CStr) (size : ℕ) : CStr :=
  snprintf size src

/-- `logs/X.log`. -/
def logFileOf (id : CStr) : CStr :=
  cstr "logs/" ++ id ++ cstr ".log"

theorem logFileOf_injective : Function.Injective logFileOf := by
  intro id id' h
  exact List.append_cancel_left (List.append_cancel_right h)

/-! ## Requests and responses -/

/-- `engine start`. -/
def REQ_START : ℤ := 1

/-- `engine run`. -/
def REQ_RUN : ℤ := 2

/-- `engine ps`. -/
def REQ_PS : ℤ := 3

/-- `engine logs`. -/
def REQ_LOGS : ℤ := 4

/-- `engine stop`. -/
def REQ_STOP : ℤ := 5

/-- `request_t`. -/
structure Request where
  type : ℤ
  id : CStr
  rootfs : CStr
  command : CStr
  softMib : ℤ
  hardMib : ℤ
  niceValue : ℤ
  deriving DecidableEq

/-- The text fields are terminated inside their fields, as `main` builds them. -/
def Request.Terminated (req : Request) : Prop :=
  req.id.length < MAX_ID_LEN ∧ req.rootfs.length < MAX_PATH_LEN ∧
    req.command.length < MAX_CMD_LEN

instance (req : Request) : Decidable req.Terminated :=
  inferInstanceAs (Decidable (_ ∧ _ ∧ _))

/-- A request to start a container. -/
def Request.Starts (req : Request) : Prop :=
  req.type = REQ_START ∨ req.type = REQ_RUN

instance (req : Request) : Decidable req.Starts :=
  inferInstanceAs (Decidable (_ ∨ _))

/-- `response_t`. -/
structure Response where
  ok : Bool
  exitCode : ℤ
  message : CStr
  deriving DecidableEq

/-- `init_response`. -/
def initResponse : Response :=
  ⟨false, -1, []⟩

/-- `set_response`. -/
def setResponse (ok : Bool) (exitCode : ℤ) (text : CStr) : Response :=
  ⟨ok, exitCode, snprintf RESPONSE_MSG_LEN text⟩

/-! ## Containers -/

/-- The values of `state`; `cleared` is the empty string of a slot never used. -/
inductive ContainerState
  | cleared
  | starting
  | running
  | exited
  | stopped
  | killed
  deriving DecidableEq

/-- The text in `state`. -/
def ContainerState.text : ContainerState → CStr
  | .cleared => []
  | .starting => cstr "STARTING"
  | .running => cstr "RUNNING"
  | .exited => cstr "EXITED"
  | .stopped => cstr "STOPPED"
  | .killed => cstr "KILLED"

/-- `is_live_state`. -/
def isLiveState (state : ContainerState) : Bool :=
  state = .starting || state = .running

/-- The states a reaped container is left in. -/
def ContainerState.Final (state : ContainerState) : Prop :=
  state = .exited ∨ state = .stopped ∨ state = .killed

instance (state : ContainerState) : Decidable state.Final :=
  inferInstanceAs (Decidable (_ ∨ _ ∨ _))

/-- `container_t`. Threads are numbered, and `childStack` is the thread that allocated the
stack. -/
structure Container where
  used : Bool
  id : CStr
  pid : ℤ
  state : ContainerState
  rootfs : CStr
  command : CStr
  logFile : CStr
  softMib : ℤ
  hardMib : ℤ
  niceValue : ℤ
  exitCode : ℤ
  stopRequested : Bool
  startTime : ℤ
  childStack : Option ℕ
  stateCv : CondVar ℕ

/-- A zeroed container with its condition variable. -/
def Container.init : Container where
  used := false
  id := []
  pid := 0
  state := .cleared
  rootfs := []
  command := []
  logFile := []
  softMib := 0
  hardMib := 0
  niceValue := 0
  exitCode := 0
  stopRequested := false
  startTime := 0
  childStack := none
  stateCv := CondVar.init

/-- Positions in the table. -/
abbrev Slot :=
  Fin MAX_CONTAINERS

/-- `containers`. -/
abbrev Table :=
  Slot → Container

/-- `init_containers`. -/
def initContainers : Table :=
  fun _ => Container.init

/-- The loop `for (i = 0; i < MAX_CONTAINERS; i++)` up to the first slot with `p`. -/
def firstSlot (p : Slot → Bool) : Option Slot :=
  (List.finRange MAX_CONTAINERS).find? p

/-- `find_free_container_slot_locked`. -/
def findFreeContainerSlotLocked (t : Table) : Option Slot :=
  firstSlot fun i => !(t i).used

/-- `find_container_by_id_locked`. -/
def findContainerByIdLocked (t : Table) (id : CStr) : Option Slot :=
  firstSlot fun i => (t i).used && (t i).id = id

/-- `rootfs_in_use_locked`. -/
def rootfsInUseLocked (t : Table) (rootfs : CStr) : Bool :=
  (firstSlot fun i =>
    (t i).used && isLiveState (t i).state && (t i).rootfs = rootfs).isSome

/-! ## The critical sections of a start -/

/-- The fields that `start_container_internal` sets in the slot it reserves. -/
def Container.reserve (c : Container) (req : Request) (now : ℤ) : Container :=
  { c with
    used := true
    id := safeStrcpy req.id MAX_ID_LEN
    rootfs := safeStrcpy req.rootfs MAX_PATH_LEN
    command := safeStrcpy req.command MAX_CMD_LEN
    logFile := snprintf MAX_PATH_LEN (cstr "logs/" ++ req.id ++ cstr ".log")
    state := .starting
    softMib := req.softMib
    hardMib := req.hardMib
    niceValue := req.niceValue
    exitCode := -1
    stopRequested := false
    startTime := now
    pid := -1
    childStack := none }

/-- The checks before the reservation : the free slot, or the text of the refusal. -/
def startContainerCheck (t : Table) (req : Request) : Except CStr Slot :=
  if (findContainerByIdLocked t req.id).isSome then
    .error (cstr "Container ID '" ++ req.id ++ cstr "' already exists")
  else if rootfsInUseLocked t req.rootfs then
    .error (cstr "Rootfs '" ++ req.rootfs ++ cstr "' is already used by a live container")
  else
    match findFreeContainerSlotLocked t with
    | none => .error (cstr "Max containers reached")
    | some idx => .ok idx

/-- A start that failed gives its slot back. -/
def Container.release (c : Container) : Container :=
  { c with used := false }

/-- A start that cloned its child publishes the pid and the stack. -/
def Container.publish (c : Container) (pid : ℤ) (stack : ℕ) : Container :=
  { c with pid := pid, childStack := some stack, state := .running }

/-! ## The reaper's critical section -/

/-- The signal that cannot be caught. -/
def SIGKILL : ℕ := 9

/-- `WTERMSIG`. -/
def wtermsig (status : ℕ) : ℕ :=
  status % 128

/-- `WIFEXITED`. -/
def wifexited (status : ℕ) : Bool :=
  status % 128 = 0

/-- `WEXITSTATUS`. -/
def wexitstatus (status : ℕ) : ℕ :=
  status / 256 % 256

/-- `WIFSIGNALED`. -/
def wifsignaled (status : ℕ) : Bool :=
  0 < status % 128 && status % 128 < 127

/-- The state the reaper records. -/
def reapState (stopRequested : Bool) (status : ℕ) : ContainerState :=
  if wifexited status then if stopRequested then .stopped else .exited
  else if wifsignaled status then
    if stopRequested then .stopped
    else if wtermsig status = SIGKILL then .killed
    else .killed
  else .stopped

/-- The exit code the reaper records. -/
def reapExitCode (status : ℕ) : ℤ :=
  if wifexited status then wexitstatus status
  else if wifsignaled status then 128 + wtermsig status
  else -1

/-- What the reaper does to the slot it finds : record the end, broadcast, free the stack. -/
def Container.reap (c : Container) (status : ℕ) : Container :=
  { c with
    state := reapState c.stopRequested status
    exitCode := reapExitCode status
    stateCv := c.stateCv.broadcast
    childStack := none }

/-- The first used slot that records a pid. -/
def findContainerByPid (t : Table) (pid : ℤ) : Option Slot :=
  firstSlot fun i => (t i).used && (t i).pid = pid

/-- The reaper's loop over the table. -/
def reaperUpdate (t : Table) (pid : ℤ) (status : ℕ) : Table :=
  match findContainerByPid t pid with
  | none => t
  | some i => Function.update t i ((t i).reap status)

/-! ## Stopping -/

/-- A stop request is noted in the slot. -/
def Container.requestStop (c : Container) : Container :=
  { c with stopRequested := true }

/-- A used slot in a live state. -/
def Container.Live (c : Container) : Prop :=
  c.used = true ∧ isLiveState c.state = true

instance (c : Container) : Decidable c.Live :=
  inferInstanceAs (Decidable (_ ∧ _))

/-- The used slots in a live state, in order. -/
def liveSlots (t : Table) : List Slot :=
  (List.finRange MAX_CONTAINERS).filter fun i => (t i).used && isLiveState (t i).state

/-- `stop_all_live_containers`, without its signals. -/
def stopAllLiveContainers (t : Table) : Table :=
  fun i => if i ∈ liveSlots t then (t i).requestStop else t i

/-! ## Facts about the table -/

theorem firstSlot_spec {p : Slot → Bool} {i : Slot} (h : firstSlot p = some i) : p i = true :=
  List.find?_some h

theorem firstSlot_eq_none {p : Slot → Bool} : firstSlot p = none ↔ ∀ i, p i = false := by
  simp [firstSlot]

/-- The scan stops at the first slot with `p`. -/
theorem firstSlot_le {p : Slot → Bool} {i j : Slot} (h : firstSlot p = some i) (hj : p j = true) :
    i ≤ j := by
  obtain ⟨-, as, bs, heq, has⟩ := List.find?_eq_some_iff_append.mp h
  have hlt := List.pairwise_lt_finRange MAX_CONTAINERS
  have hmem := List.mem_finRange j
  rw [heq] at hlt hmem
  rcases List.mem_append.mp hmem with hmem | hmem
  · exact absurd hj (by simpa using has j hmem)
  · rcases List.mem_cons.mp hmem with rfl | hmem
    · exact le_refl _
    · exact le_of_lt (List.rel_of_pairwise_cons (List.pairwise_append.mp hlt).2.1 hmem)

theorem mem_liveSlots {t : Table} {i : Slot} :
    i ∈ liveSlots t ↔ (t i).used = true ∧ isLiveState (t i).state = true := by
  simp [liveSlots]

/-- A live state is not a final one. -/
theorem not_final_of_isLiveState {state : ContainerState} (h : isLiveState state = true) :
    ¬state.Final := by
  cases state <;> simp_all [isLiveState, ContainerState.Final]

theorem reapState_final (stopRequested : Bool) (status : ℕ) :
    (reapState stopRequested status).Final := by
  unfold reapState ContainerState.Final
  split_ifs <;> simp

theorem findContainerByPid_spec {t : Table} {pid : ℤ} {i : Slot}
    (h : findContainerByPid t pid = some i) : (t i).used = true ∧ (t i).pid = pid := by
  simpa using firstSlot_spec h

theorem findContainerByPid_le {t : Table} {pid : ℤ} {i j : Slot}
    (h : findContainerByPid t pid = some i) (hu : (t j).used = true) (hp : (t j).pid = pid) :
    i ≤ j :=
  firstSlot_le h (by simp [hu, hp])

/-- A pid that a used slot records is found. -/
theorem exists_findContainerByPid {t : Table} {pid : ℤ} {j : Slot} (hu : (t j).used = true)
    (hp : (t j).pid = pid) : ∃ i, findContainerByPid t pid = some i := by
  refine Option.ne_none_iff_exists'.mp fun hnone => ?_
  have hall := firstSlot_eq_none.mp hnone j
  simp [hu, hp] at hall

theorem findContainerByIdLocked_spec {t : Table} {id : CStr} {i : Slot}
    (h : findContainerByIdLocked t id = some i) : (t i).used = true ∧ (t i).id = id := by
  simpa using firstSlot_spec h

/-- The lookup of an id finds the first used slot that has it. -/
theorem findContainerByIdLocked_self_iff {t : Table} {i : Slot} (hu : (t i).used = true) :
    findContainerByIdLocked t (t i).id = some i ↔
      ∀ j < i, (t j).used = true → (t j).id ≠ (t i).id := by
  constructor
  · intro h j hj huj hid
    exact absurd (firstSlot_le h (by simpa [huj] using hid)) (not_le.mpr hj)
  · intro hfirst
    obtain ⟨k, hk⟩ : ∃ k, findContainerByIdLocked t (t i).id = some k := by
      refine Option.ne_none_iff_exists'.mp fun hnone => ?_
      have hall := firstSlot_eq_none.mp hnone i
      simp [hu] at hall
    obtain ⟨huk, hid⟩ := findContainerByIdLocked_spec hk
    rcases (firstSlot_le hk (by simp [hu]) : k ≤ i).lt_or_eq with hlt | rfl
    · exact absurd hid (hfirst k hlt huk)
    · exact hk

/-- A start gets past the checks with a free slot, a new id and an unused rootfs. -/
theorem startContainerCheck_ok {t : Table} {req : Request} {i : Slot}
    (h : startContainerCheck t req = .ok i) :
    (t i).used = false ∧ (∀ j, (t j).used = true → (t j).id ≠ req.id) ∧
      ∀ j, (t j).used = true → isLiveState (t j).state = true → (t j).rootfs ≠ req.rootfs := by
  unfold startContainerCheck at h
  split_ifs at h with hid hroot
  split at h
  · cases h
  · rename_i idx hfree
    obtain rfl : idx = i := by simpa using h
    refine ⟨by simpa using firstSlot_spec hfree, fun j hj hid' => hid ?_, fun j hj hl hr => ?_⟩
    · rw [Option.isSome_iff_ne_none, findContainerByIdLocked, ne_eq, firstSlot_eq_none]
      exact fun hall => by simpa [hj, hid'] using hall j
    · refine hroot ?_
      rw [rootfsInUseLocked, Option.isSome_iff_ne_none, ne_eq, firstSlot_eq_none]
      exact fun hall => by simpa [hj, hl, hr] using hall j

end Jackfruit
