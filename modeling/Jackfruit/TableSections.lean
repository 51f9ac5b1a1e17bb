import Jackfruit.CriticalSection
import Jackfruit.EngineStep
import Jackfruit.LogsOutput
import Jackfruit.PsOutput

/-!
# The critical sections of the supervisor, access by access

Everything that `engine.c` does under `containers_mutex`, as the loops and assignments of the
source : each access to a field of `containers` is one step, and any thread may run between two of
them. `TableSection.code` is the code of a section and `TableSection.meaning` the function on the
table that `Jackfruit.Container` gives for it.

`table_sections_atomic` says that for any threads and any interleaving the sections do what these
functions do, one after the other, and that the mutex is always given back. `section_of_step` says
that the steps of `Engine` on the table are these sections : a step changes the table as its section
does, and the thread goes on with what the section returned.
-/

set_option linter.unusedSectionVars false

open CriticalSection

namespace Jackfruit

/-! ## Loops and assignments -/

namespace TableCode

/-- `a && b && ..` on the fields of a slot, one field at a time. -/
def tests (i : Slot) : List (Container → Bool) → Code Table Bool
  | [] => .ret true
  | p :: ps => .read fun t => if p (t i) then tests i ps else .ret false

/-- `for (i = 0; i < MAX_CONTAINERS; i++) if (..) return i`, from some slot on. -/
def scan (ps : List (Container → Bool)) : List Slot → Code Table (Option Slot)
  | [] => .ret none
  | i :: is => (tests i ps).bind fun found => if found then .ret (some i) else scan ps is

/-- Assignments to the fields of a slot. -/
def assign (i : Slot) : List (Container → Container) → Code Table Unit
  | [] => .ret ()
  | f :: fs => .act (fun t => Function.update t i (f (t i))) fun _ => assign i fs

/-- The fields of a slot, one after the other, as they are when they are read. -/
def fetch (i : Slot) : List (Container → Container → Container) → Container → Code Table Container
  | [], c => .ret c
  | f :: fs, c => .read fun t => fetch i fs (f (t i) c)

variable {t : Table} {i : Slot}

@[simp] theorem run_tests (ps : List (Container → Bool)) :
    (tests i ps).run t = (ps.all fun p => p (t i), t) := by
  induction ps with
  | nil => rfl
  | cons p ps ih =>
    rw [tests, Code.run_read, List.all_cons]
    cases p (t i) with
    | true => exact ih
    | false => rfl

@[simp] theorem run_scan (ps : List (Container → Bool)) (is : List Slot) :
    (scan ps is).run t = (is.find? fun i => ps.all fun p => p (t i), t) := by
  induction is with
  | nil => rfl
  | cons i is ih =>
    rw [scan, Code.run_bind, run_tests, List.find?_cons]
    cases ps.all fun p => p (t i) with
    | true => rfl
    | false => exact ih

@[simp] theorem run_assign (fs : List (Container → Container)) :
    (assign i fs).run t = ((), Function.update t i (fs.foldl (fun c f => f c) (t i))) := by
  induction fs generalizing t with
  | nil => simp [assign]
  | cons f fs ih => simp [assign, ih]

@[simp] theorem run_fetch (fs : List (Container → Container → Container)) (c : Container) :
    (fetch i fs c).run t = (fs.foldl (fun c f => f (t i) c) c, t) := by
  induction fs generalizing c with
  | nil => rfl
  | cons f fs ih =>
    rw [fetch, Code.run_read, List.foldl_cons]
    exact ih _

end TableCode

open TableCode

/-- The slots in the order of the loops. -/
abbrev slots : List Slot :=
  List.finRange MAX_CONTAINERS

/-! ## The sections -/

/-- What a thread does under `containers_mutex`. -/
inductive TableSection
  /-- The first section of `start_container_internal`. -/
  | start (req : Request) (now : ℤ)
  /-- A failed start gives its slot back. -/
  | rollback (idx : Slot)
  /-- The second section of `start_container_internal`. -/
  | publish (idx : Slot) (pid : ℤ) (stack : ℕ)
  /-- A run handler `h` with the mutex, up to `pthread_cond_wait` or to the end. -/
  | runTest (h : ℕ) (idx : Slot)
  /-- `stop_container_by_id` up to its `kill`. -/
  | stop (id : CStr)
  /-- The loop of `reaper_main`. -/
  | reap (pid : ℤ) (status : ℕ)
  | stopAll
  /-- `build_ps_output`. -/
  | ps (p : Printing.Printer)
  /-- The section of `build_logs_output`. -/
  | logs (id : CStr)
  /-- The section of `log_consumer_main`. -/
  | logPath (idx : Slot)

/-- What a section hands to the rest of its thread. -/
abbrev TableSection.Result : TableSection → Type
  | .start _ _ => Except CStr Slot
  | .rollback _ | .publish _ _ _ => Unit
  | .runTest _ _ => Option (ℤ × ContainerState)
  | .stop _ => Except CStr (Slot × ℤ)
  | .reap _ _ => Option (Slot × ContainerState)
  | .stopAll => List SigTerm
  | .ps _ => Option Printing.Printer
  | .logs _ | .logPath _ => CStr

/-- The assignments to a reserved slot. -/
def reserveWrites (req : Request) (now : ℤ) : List (Container → Container) :=
  [fun c => { c with used := true },
    fun c => { c with id := safeStrcpy req.id MAX_ID_LEN },
    fun c => { c with rootfs := safeStrcpy req.rootfs MAX_PATH_LEN },
    fun c => { c with command := safeStrcpy req.command MAX_CMD_LEN },
    fun c => { c with logFile := snprintf MAX_PATH_LEN (cstr "logs/" ++ req.id ++ cstr ".log") },
    fun c => { c with state := .starting },
    fun c => { c with softMib := req.softMib },
    fun c => { c with hardMib := req.hardMib },
    fun c => { c with niceValue := req.niceValue },
    fun c => { c with exitCode := -1 },
    fun c => { c with stopRequested := false },
    fun c => { c with startTime := now },
    fun c => { c with pid := -1 },
    fun c => { c with childStack := none }]

/-- The loop of `stop_all_live_containers`, with the signals sent so far. -/
def stopLoop : List Slot → List SigTerm → Code Table (List SigTerm)
  | [], sent => .ret sent
  | i :: is, sent =>
    (tests i [Container.used, fun c => isLiveState c.state]).bind fun live =>
      if live then
        (assign i [Container.requestStop]).bind fun _ =>
          .read fun t => stopLoop is (sent ++ [⟨i, (t i).pid⟩])
      else stopLoop is sent

/-- What the call of `snprintf` for a row reads. -/
def psReads : List (Container → Container → Container) :=
  [fun c row => { row with id := c.id },
    fun c row => { row with pid := c.pid },
    fun c row => { row with state := c.state },
    fun c row => { row with exitCode := c.exitCode },
    fun c row => { row with softMib := c.softMib },
    fun c row => { row with hardMib := c.hardMib },
    fun c row => { row with niceValue := c.niceValue },
    fun c row => { row with logFile := c.logFile }]

/-- What `build_ps_output` reads of a slot : `format_time_string` gets the time by an access of its
own. -/
def psFetch (i : Slot) : Code Table Container :=
  .read fun t =>
    if (t i).startTime ≠ 0 then
      fetch i ((fun c row => { row with startTime := c.startTime }) :: psReads) Container.init
    else fetch i psReads { Container.init with startTime := 0 }

/-- The loop of `build_ps_output`. -/
def psLoop (formatTime : ℤ → CStr) (outSize : UInt64) :
    List Slot → Printing.Printer → Code Table (Option Printing.Printer)
  | [], p => .ret (some p)
  | i :: is, p =>
    (tests i [Container.used]).bind fun used =>
      if used then
        (psFetch i).bind fun row =>
          match p.print outSize (psRow formatTime row) with
          | none => .ret none
          | some p => if outSize ≤ p.used then .ret (some p) else psLoop formatTime outSize is p
      else psLoop formatTime outSize is p

/-- The code of a section. -/
def TableSection.code (formatTime : ℤ → CStr) : (op : TableSection) → Code Table op.Result
  | .start req now =>
    (scan [Container.used, fun c => c.id = req.id] slots).bind fun
      | some _ => .ret (.error (cstr "Container ID '" ++ req.id ++ cstr "' already exists"))
      | none =>
        (scan [Container.used, fun c => isLiveState c.state, fun c => c.rootfs = req.rootfs]
            slots).bind fun
          | some _ => .ret (.error
              (cstr "Rootfs '" ++ req.rootfs ++ cstr "' is already used by a live container"))
          | none =>
            (scan [fun c => !c.used] slots).bind fun
              | none => .ret (.error (cstr "Max containers reached"))
              | some idx => (assign idx (reserveWrites req now)).bind fun _ => .ret (.ok idx)
  | .rollback idx => assign idx [Container.release]
  | .publish idx pid stack =>
    assign idx [fun c => { c with pid := pid }, fun c => { c with childStack := some stack },
      fun c => { c with state := .running }]
  | .runTest h idx =>
    (assign idx [fun c => { c with stateCv := c.stateCv.resume h }]).bind fun _ =>
      .read fun t =>
        if isLiveState (t idx).state then
          (assign idx [fun c => { c with stateCv := c.stateCv.wait h }]).bind fun _ => .ret none
        else
          .read fun t =>
            let exitCode := (t idx).exitCode
            .read fun t => .ret (some (exitCode, (t idx).state))
  | .stop id =>
    (scan [Container.used, fun c => c.id = id] slots).bind fun
      | none => .ret (.error (cstr "No such container: " ++ id))
      | some idx =>
        .read fun t =>
          if isLiveState (t idx).state then
            (assign idx [Container.requestStop]).bind fun _ => .read fun t =>
              .ret (.ok (idx, (t idx).pid))
          else .ret (.error (cstr "Container " ++ id ++ cstr " is not running"))
  | .reap pid status =>
    (scan [Container.used, fun c => c.pid = pid] slots).bind fun
      | none => .ret none
      | some i =>
        .read fun t =>
          let state := reapState (t i).stopRequested status
          (assign i [fun c => { c with state := state },
            fun c => { c with exitCode := reapExitCode status },
            fun c => { c with stateCv := c.stateCv.broadcast },
            fun c => { c with childStack := none }]).bind fun _ => .ret (some (i, state))
  | .stopAll => stopLoop slots []
  | .ps p => psLoop formatTime psSize slots p
  | .logs id =>
    (scan [Container.used, fun c => c.id = id] slots).bind fun
      | none => .ret []
      | some idx => .read fun t => .ret (safeStrcpy (t idx).logFile MAX_PATH_LEN)
  | .logPath idx =>
    (tests idx [Container.used]).bind fun used =>
      if used then .read fun t => .ret (safeStrcpy (t idx).logFile MAX_PATH_LEN) else .ret []

/-- The function on the table that a section is. -/
def TableSection.meaning (formatTime : ℤ → CStr) : (op : TableSection) → Table → op.Result × Table
  | .start req now, t =>
    match startContainerCheck t req with
    | .error text => (.error text, t)
    | .ok idx => (.ok idx, Function.update t idx ((t idx).reserve req now))
  | .rollback idx, t => ((), Function.update t idx (t idx).release)
  | .publish idx pid stack, t => ((), Function.update t idx ((t idx).publish pid stack))
  | .runTest h idx, t =>
    if isLiveState (t idx).state then
      (none, Function.update t idx { t idx with stateCv := ((t idx).stateCv.resume h).wait h })
    else
      (some ((t idx).exitCode, (t idx).state),
        Function.update t idx { t idx with stateCv := (t idx).stateCv.resume h })
  | .stop id, t =>
    match findContainerByIdLocked t id with
    | none => (.error (cstr "No such container: " ++ id), t)
    | some idx =>
      if isLiveState (t idx).state then
        (.ok (idx, (t idx).pid), Function.update t idx (t idx).requestStop)
      else (.error (cstr "Container " ++ id ++ cstr " is not running"), t)
  | .reap pid status, t =>
    ((findContainerByPid t pid).map fun i => (i, reapState (t i).stopRequested status),
      reaperUpdate t pid status)
  | .stopAll, t =>
    ((liveSlots t).map fun i => ⟨i, (t i).pid⟩, stopAllLiveContainers t)
  | .ps p, t => (psRows formatTime psSize t slots p, t)
  | .logs id, t => (logsPath t id, t)
  | .logPath idx, t =>
    (if (t idx).used then safeStrcpy (t idx).logFile MAX_PATH_LEN else [], t)

variable {formatTime : ℤ → CStr} {t : Table} {i : Slot}

theorem findContainerByIdLocked_eq (t : Table) (id : CStr) : findContainerByIdLocked t id =
    slots.find? fun i => [Container.used, fun c => c.id = id].all fun p => p (t i) := by
  simp [findContainerByIdLocked, firstSlot]

theorem findContainerByPid_eq (t : Table) (pid : ℤ) : findContainerByPid t pid =
    slots.find? fun i => [Container.used, fun c => c.pid = pid].all fun p => p (t i) := by
  simp [findContainerByPid, firstSlot]

theorem rootfsInUseLocked_eq (t : Table) (rootfs : CStr) : rootfsInUseLocked t rootfs =
    (slots.find? fun i => [Container.used, fun c => isLiveState c.state,
      fun c => c.rootfs = rootfs].all fun p => p (t i)).isSome := by
  simp [rootfsInUseLocked, firstSlot, Bool.and_assoc]

theorem findFreeContainerSlotLocked_eq (t : Table) : findFreeContainerSlotLocked t =
    slots.find? fun i => [fun c : Container => !c.used].all fun p => p (t i) := by
  simp [findFreeContainerSlotLocked, firstSlot]

/-- The assignments of the source, one after the other, are the reservation. -/
theorem foldl_reserveWrites (req : Request) (now : ℤ) (c : Container) :
    (reserveWrites req now).foldl (fun c f => f c) c = c.reserve req now :=
  rfl

/-- The loop over `is` signals the live slots among them and changes no others. -/
theorem run_stopLoop : ∀ {is : List Slot} (sent : List SigTerm) (t : Table), is.Nodup →
    (stopLoop is sent).run t =
      (sent ++ (is.filter fun i => (t i).used && isLiveState (t i).state).map
          fun i => ⟨i, (t i).pid⟩,
        fun i => if i ∈ is.filter (fun i => (t i).used && isLiveState (t i).state) then
          (t i).requestStop else t i)
  | [], sent, t, _ => by simp [stopLoop]
  | i :: is, sent, t, hn => by
    obtain ⟨hi, hn⟩ := List.nodup_cons.mp hn
    rw [stopLoop, Code.run_bind, run_tests]
    by_cases hlive : ((t i).used && isLiveState (t i).state) = true
    · have htests :
          ([Container.used, fun c => isLiveState c.state].all fun p => p (t i)) = true := by
        simpa using hlive
      have hcons : (i :: is).filter (fun j => (t j).used && isLiveState (t j).state) =
          i :: is.filter fun j => (t j).used && isLiveState (t j).state := by
        rw [List.filter_cons, if_pos hlive]
      -- The rest of the loop does not look at the slot that was just changed.
      have hother : ∀ j ∈ is, Function.update t i (t i).requestStop j = t j := by
        intro j hj
        refine Function.update_of_ne ?_ _ _
        rintro rfl
        exact hi hj
      have hfilter : (is.filter fun j => (Function.update t i (t i).requestStop j).used &&
          isLiveState (Function.update t i (t i).requestStop j).state) =
          is.filter fun j => (t j).used && isLiveState (t j).state :=
        List.filter_congr fun j hj => by rw [hother j hj]
      have hmap : (is.filter fun j => (t j).used && isLiveState (t j).state).map
          (fun j => (⟨j, (Function.update t i (t i).requestStop j).pid⟩ : SigTerm)) =
          (is.filter fun j => (t j).used && isLiveState (t j).state).map fun j => ⟨j, (t j).pid⟩ :=
        List.map_congr_left fun j hj => by rw [hother j (List.mem_of_mem_filter hj)]
      rw [htests, if_pos rfl, Code.run_bind, run_assign, Code.run_read, run_stopLoop _ _ hn, hcons]
      simp only [List.foldl_cons, List.foldl_nil, hfilter, hmap, List.map_cons, List.append_assoc,
        List.singleton_append, Function.update_self]
      refine Prod.ext rfl (funext fun j => ?_)
      dsimp only
      rcases eq_or_ne j i with rfl | hji
      · have hnot : j ∉ is.filter fun j => (t j).used && isLiveState (t j).state :=
          fun h => hi (List.mem_of_mem_filter h)
        rw [if_neg hnot, if_pos List.mem_cons_self, Function.update_self]
      · simp only [Function.update_of_ne hji, List.mem_cons, hji, false_or]
    · have htests :
          ([Container.used, fun c => isLiveState c.state].all fun p => p (t i)) = false := by
        simpa using hlive
      have hcons : (i :: is).filter (fun j => (t j).used && isLiveState (t j).state) =
          is.filter fun j => (t j).used && isLiveState (t j).state := by
        rw [List.filter_cons, if_neg hlive]
      rw [htests, if_neg (by simp), run_stopLoop _ _ hn, hcons]

/-- The row that is printed is the row of the slot. -/
theorem run_psFetch (i : Slot) : ∃ row, (psFetch i).run t = (row, t) ∧
    psRow formatTime row = psRow formatTime (t i) := by
  rw [psFetch, Code.run_read]
  split_ifs with htime
  · exact ⟨_, run_fetch _ _, rfl⟩
  · refine ⟨_, run_fetch _ _, ?_⟩
    have hzero : (t i).startTime = 0 := not_not.mp htime
    simp only [psReads, List.foldl_cons, List.foldl_nil, psRow, hzero]

theorem run_psLoop (outSize : UInt64) : ∀ (is : List Slot) (p : Printing.Printer),
    (psLoop formatTime outSize is p).run t = (psRows formatTime outSize t is p, t)
  | [], p => rfl
  | i :: is, p => by
    rw [psLoop, Code.run_bind, run_tests, psRows]
    simp only [List.all_cons, List.all_nil, Bool.and_true]
    split_ifs with hu
    · obtain ⟨row, hrun, hrow⟩ : ∃ row, (psFetch i).run t = (row, t) ∧
          psRow formatTime row = psRow formatTime (t i) := run_psFetch i
      rw [Code.run_bind, hrun, hrow]
      cases p.print outSize (psRow formatTime (t i)) with
      | none => rfl
      | some q =>
        simp only [Option.bind_some]
        split_ifs
        · rfl
        · exact run_psLoop outSize is q
    · exact run_psLoop outSize is p

/-- Every section is its function on the table. -/
theorem TableSection.run_code (op : TableSection) (t : Table) :
    (op.code formatTime).run t = op.meaning formatTime t := by
  cases op with
  | start req now =>
    simp only [code, meaning, Code.run_bind, run_scan, startContainerCheck,
      ← findContainerByIdLocked_eq]
    cases findContainerByIdLocked t req.id with
    | some i => rfl
    | none =>
      simp only [Option.isSome_none, Bool.false_eq_true, if_false, Code.run_bind, run_scan,
        rootfsInUseLocked_eq]
      cases slots.find? fun i => [Container.used, fun c => isLiveState c.state,
          fun c => c.rootfs = req.rootfs].all fun p => p (t i) with
      | some i => rfl
      | none =>
        simp only [Option.isSome_none, Bool.false_eq_true, if_false, Code.run_bind, run_scan,
          ← findFreeContainerSlotLocked_eq]
        cases findFreeContainerSlotLocked t with
        | none => rfl
        | some idx => simp [foldl_reserveWrites]
  | rollback idx => exact run_assign _
  | publish idx pid stack => exact run_assign _
  | runTest h idx =>
    simp only [code, meaning, Code.run_bind, run_assign, Code.run_read, List.foldl_cons,
      List.foldl_nil, Function.update_self]
    split_ifs
    · simp
    · simp
  | stop id =>
    simp only [code, meaning, Code.run_bind, run_scan, ← findContainerByIdLocked_eq]
    cases findContainerByIdLocked t id with
    | none => rfl
    | some idx =>
      simp only [Code.run_read]
      split_ifs
      · simp [Container.requestStop]
      · rfl
  | reap pid status =>
    simp only [code, meaning, Code.run_bind, run_scan, ← findContainerByPid_eq, reaperUpdate]
    cases findContainerByPid t pid with
    | none => rfl
    | some i => simp [Container.reap]
  | stopAll => exact run_stopLoop [] t (List.nodup_finRange _)
  | ps p => exact run_psLoop _ _ _
  | logs id =>
    simp only [code, meaning, Code.run_bind, run_scan, ← findContainerByIdLocked_eq, logsPath]
    cases findContainerByIdLocked t id <;> rfl
  | logPath idx =>
    simp only [code, meaning, Code.run_bind, run_tests, List.all_cons, List.all_nil, Bool.and_true]
    split_ifs <;> rfl

/-! ## Every interleaving -/

/-- The threads of the supervisor at the table. -/
abbrev sectionStep (formatTime : ℤ → CStr) :=
  step (T := ℕ) (TableSection.code formatTime)

/-- For any threads and any interleaving of their accesses to the table : the sections that are over
returned what their functions return one after the other, in the order in which they gave the mutex
back. While nobody holds it the table is the one that these functions lead to. Whoever holds it can
go on to its end without anybody else, nobody else can take it before, and what it then leaves is
what its function does to that table. -/
theorem table_sections_atomic {t₀ : Table} {s : State ℕ Table TableSection.Result}
    (h : Transition.Run (sectionStep formatTime) Transition.Always
      (initial ℕ TableSection.Result t₀) s) :
    ∃ t, Sequential (TableSection.meaning formatTime) s.log t₀ t ∧
      match s.holder with
      | none => s.shared = t
      | some ⟨thread, op, rest⟩ =>
        (∀ thread' op', sectionStep formatTime s (.lock thread' op') = none) ∧
          Transition.exec (sectionStep formatTime) Transition.Always s
              (List.replicate (rest.steps s.shared) .act ++ [.unlock]) =
            some ⟨(op.meaning formatTime t).2, none,
              s.log ++ [⟨thread, op, (op.meaning formatTime t).1⟩]⟩ := by
  obtain ⟨t, hlog, hrest⟩ := sequential_of_run h
  refine ⟨t, hlog.congr fun op t => op.run_code t, ?_⟩
  obtain ⟨shared, holder, log⟩ := s
  cases holder with
  | none => exact hrest
  | some hd =>
    obtain ⟨thread, op, rest⟩ := hd
    refine ⟨fun thread' op' => not_lock_of_held rfl thread' op', ?_⟩
    have hmeaning : rest.run shared = op.meaning formatTime t := hrest.trans (op.run_code t)
    rw [← hmeaning]
    exact exec_finish (TableSection.code formatTime) thread op rest shared log

/-- One start is over, and that of another thread is in the middle of its assignments. -/
theorem table_sections_atomic_start : ∃ s : State ℕ Table TableSection.Result,
    s.log.map (fun entry => entry.thread) = [1] ∧ (s.shared 1).used = true ∧
      (s.shared 1).id = [] ∧
      (∃ t, Sequential (TableSection.meaning fun _ => []) s.log initContainers t) ∧
      ∀ thread op, sectionStep (fun _ => []) s (.lock thread op) = none := by
  let start (id : CStr) : TableSection := .start ⟨REQ_START, id, id, cstr "true", 40, 64, 0⟩ 5
  obtain ⟨s, hs, hlog, hused, hid, hheld⟩ := Transition.exists_run_of_exec
    (sectionStep fun _ => []) Transition.Always (initial ℕ TableSection.Result initContainers)
    (.lock 1 (start (cstr "a")) :: List.replicate 35 .act ++
      .unlock :: .lock 3 (start (cstr "b")) :: List.replicate 26 .act)
    (fun s => s.log.map (fun entry => entry.thread) = [1] ∧ (s.shared 1).used = true ∧
      (s.shared 1).id = [] ∧ s.holder.isSome = true) (by decide)
  obtain ⟨t, ht, hrest⟩ := table_sections_atomic hs
  obtain ⟨hd, hholder⟩ := Option.isSome_iff_exists.mp hheld
  rw [hholder] at hrest
  exact ⟨s, hlog, hused, hid, ⟨t, ht⟩, hrest.1⟩

/-! ## The steps of the supervisor -/

namespace Engine

/-- The section that a step is. -/
def sectionOf (s : Engine) : Event → Option TableSection
  | .reserve h now => some (.start (s.req h) now)
  | .rollback h =>
    match (s.handler h).pc with
    | .rollback idx _ => some (.rollback idx)
    | _ => none
  | .publish h =>
    match (s.handler h).pc with
    | .publish idx pid => some (.publish idx pid h)
    | _ => none
  | .runEnter h => (s.runReady h).map (.runTest h)
  | .stopEnter h => some (.stop (s.req h).id)
  | .reap =>
    match s.reaper with
    | .holding h =>
      match s.child h with
      | some ⟨pid, .reaped status⟩ => some (.reap pid status)
      | _ => none
    | _ => none
  | .stopAll => some .stopAll
  | _ => none

/-- The thread of the step goes on with what its section returned. -/
def GoesOn (s s' : Engine) (e : Event) : (op : TableSection) → op.Result → Prop
  | .start _ _, .error text => ∀ h, e.handler = some h →
      (s'.handler h).resp = setResponse false (-1) text ∧ (s'.handler h).pc = .send
  | .start _ _, .ok idx => ∀ h, e.handler = some h → (s'.handler h).pc = .pipe idx
  | .runTest h idx, none => (s'.handler h).pc = .runWait idx
  | .runTest h _, some (exitCode, state) =>
      (s'.handler h).resp = setResponse true exitCode (cstr "Container " ++ (s.req h).id ++
        cstr " finished with state=" ++ state.text ++ cstr " exit=" ++ decimal exitCode) ∧
      (s'.handler h).pc = .send
  | .stop _, .error text => ∀ h, e.handler = some h →
      (s'.handler h).resp = setResponse false (-1) text ∧ (s'.handler h).pc = .send
  | .stop _, .ok (idx, pid) => ∀ h, e.handler = some h → (s'.handler h).pc = .stopKill idx pid
  | .reap pid status, written => ∀ h, s.reaper = .holding h →
      s'.child h = some ⟨pid, .handled status written⟩
  | .stopAll, sent => s'.sigterms = s.sigterms ++ sent
  | _, _ => True

/-- Outside of its sections a step changes nothing in the table but who is asleep. -/
def SameButWaiters (t t' : Table) : Prop :=
  ∀ i, ∃ cv, t' i = { t i with stateCv := cv }

theorem SameButWaiters.refl (t : Table) : SameButWaiters t t :=
  fun i => ⟨(t i).stateCv, rfl⟩

/-- Every step of the supervisor does to the table what its section does, and its thread goes on
with what the section returned; the other steps leave the table alone, up to who is asleep. -/
theorem section_of_step {s s' : Engine} {e : Event} (hs : step s e = some s') :
    match s.sectionOf e with
    | none => SameButWaiters s.table s'.table
    | some op => s'.table = (op.meaning formatTime s.table).2 ∧
        GoesOn s s' e op (op.meaning formatTime s.table).1 := by
  have hnext := (step_next hs).2
  cases e with
  | reserve h now =>
    simp only [next, startStep] at hnext
    simp only [sectionOf, TableSection.meaning]
    split at hnext
    · rename_i text hpc hck
      cases hnext
      simp only [hck]
      refine ⟨rfl, fun g hg => ?_⟩
      obtain rfl := Option.some.inj hg
      simp [respond, setHandler]
    · rename_i idx hpc hck
      cases hnext
      simp only [hck]
      refine ⟨rfl, fun g hg => ?_⟩
      obtain rfl := Option.some.inj hg
      simp [setPc, setHandler]
    · cases hnext
  | rollback h =>
    simp only [next, startStep] at hnext
    split at hnext
    · rename_i idx text hpc
      cases hnext
      simp only [sectionOf, hpc]
      exact ⟨rfl, trivial⟩
    · cases hnext
  | publish h =>
    simp only [next, startStep] at hnext
    split at hnext
    · rename_i idx pid hpc
      cases hnext
      simp only [sectionOf, hpc]
      exact ⟨rfl, trivial⟩
    · cases hnext
  | runEnter h =>
    simp only [next, handlerStep] at hnext
    split at hnext
    · rename_i idx hready
      simp only [sectionOf, hready, Option.map_some, TableSection.meaning]
      split_ifs at hnext ⊢ <;> cases hnext
      · exact ⟨rfl, by simp [GoesOn, setPc, setHandler]⟩
      · exact ⟨rfl, by simp [GoesOn, respond, setHandler, runResponse]⟩
    · cases hnext
  | stopEnter h =>
    simp only [next, handlerStep] at hnext
    simp only [sectionOf, TableSection.meaning]
    split at hnext
    · rename_i hpc hfind
      cases hnext
      simp only [hfind]
      refine ⟨rfl, fun g hg => ?_⟩
      obtain rfl := Option.some.inj hg
      simp [respond, setHandler]
    · rename_i idx hpc hfind
      simp only [hfind]
      split_ifs at hnext ⊢ <;> cases hnext <;> refine ⟨rfl, fun g hg => ?_⟩ <;>
        obtain rfl := Option.some.inj hg <;> simp [respond, setPc, setHandler]
    · cases hnext
  | reap =>
    obtain ⟨h, pid, status, hr, hc, rfl⟩ := effect_reap (step_effect hs)
    simp only [sectionOf, hr, hc]
    refine ⟨rfl, fun g hg => ?_⟩
    obtain rfl := ReaperPc.holding.inj (hr.symm.trans hg)
    simp [recorded, setChild, TableSection.meaning]
  | stopAll =>
    simp only [next, mainStep] at hnext
    split_ifs at hnext
    cases hnext
    exact ⟨rfl, rfl⟩
  | spurious h =>
    cases step_effect hs with
    | control _ _ _ hm => cases hm
    | handler => exact .refl _
    | spurious _ idx hpc =>
      intro i
      rcases eq_or_ne i idx with rfl | hne
      · exact ⟨_, Function.update_self _ _ _⟩
      · exact ⟨_, Function.update_of_ne hne _ _⟩
  | _ => cases step_effect hs <;> exact .refl _

/-- Who is asleep makes no difference to what a section returns. -/
theorem SameButWaiters.meaning {t t' : Table} (h : SameButWaiters t t') (op : TableSection) :
    (op.meaning formatTime t).1 = (op.meaning formatTime t').1 ∧
      SameButWaiters (op.meaning formatTime t).2 (op.meaning formatTime t').2 := by
  have hupdate : ∀ {c c' : Container} (i : Slot), (∃ cv, c' = { c with stateCv := cv }) →
      SameButWaiters (Function.update t i c) (Function.update t' i c') := by
    intro c c' i hc j
    rcases eq_or_ne j i with rfl | hji
    · rwa [Function.update_self, Function.update_self]
    · rw [Function.update_of_ne hji, Function.update_of_ne hji]
      exact h j
  choose cv hcv using h
  obtain rfl : t' = fun i => { t i with stateCv := cv i } := funext hcv
  cases op with
  | start req now =>
    have hcheck : startContainerCheck (fun i => { t i with stateCv := cv i }) req =
        startContainerCheck t req := rfl
    simp only [TableSection.meaning, hcheck]
    cases startContainerCheck t req with
    | error text => exact ⟨rfl, fun i => ⟨cv i, rfl⟩⟩
    | ok idx => exact ⟨rfl, hupdate idx ⟨cv idx, rfl⟩⟩
  | rollback idx => exact ⟨rfl, hupdate idx ⟨cv idx, rfl⟩⟩
  | publish idx pid stack => exact ⟨rfl, hupdate idx ⟨cv idx, rfl⟩⟩
  | runTest h idx =>
    simp only [TableSection.meaning]
    split_ifs
    · exact ⟨rfl, hupdate idx ⟨_, rfl⟩⟩
    · exact ⟨rfl, hupdate idx ⟨_, rfl⟩⟩
  | stop id =>
    have hfind : findContainerByIdLocked (fun i => { t i with stateCv := cv i }) id =
        findContainerByIdLocked t id := rfl
    simp only [TableSection.meaning, hfind]
    cases findContainerByIdLocked t id with
    | none => exact ⟨rfl, fun i => ⟨cv i, rfl⟩⟩
    | some idx =>
      dsimp only
      split_ifs
      · exact ⟨rfl, hupdate idx ⟨cv idx, rfl⟩⟩
      · exact ⟨rfl, fun i => ⟨cv i, rfl⟩⟩
  | reap pid status =>
    have hfind : findContainerByPid (fun i => { t i with stateCv := cv i }) pid =
        findContainerByPid t pid := rfl
    simp only [TableSection.meaning, reaperUpdate, hfind]
    cases findContainerByPid t pid with
    | none => exact ⟨trivial, fun i => ⟨cv i, rfl⟩⟩
    | some idx => exact ⟨trivial, hupdate idx ⟨_, rfl⟩⟩
  | stopAll =>
    refine ⟨rfl, fun i => ⟨cv i, ?_⟩⟩
    have hlive : liveSlots (fun i => { t i with stateCv := cv i }) = liveSlots t := rfl
    simp only [TableSection.meaning, stopAllLiveContainers, hlive]
    split_ifs <;> rfl
  | ps p =>
    refine ⟨?_, fun i => ⟨cv i, rfl⟩⟩
    simp only [TableSection.meaning]
    induction slots generalizing p with
    | nil => rfl
    | cons i is ih =>
      simp only [psRows]
      refine if_congr Iff.rfl (congrArg _ (funext fun q => ?_)) (ih p)
      exact if_congr Iff.rfl rfl (ih q)
  | logs id => exact ⟨rfl, fun i => ⟨cv i, rfl⟩⟩
  | logPath idx => exact ⟨rfl, fun i => ⟨cv i, rfl⟩⟩

theorem SameButWaiters.trans {t t' t'' : Table} (h : SameButWaiters t t')
    (h' : SameButWaiters t' t'') : SameButWaiters t t'' := by
  intro i
  obtain ⟨cv, hcv⟩ := h i
  obtain ⟨cv', hcv'⟩ := h' i
  exact ⟨cv', by rw [hcv', hcv]⟩

theorem table_of_sections {C : Engine → Jackfruit.Event → Prop} {s : Engine}
    (h : Transition.Run step C init s) :
    ∃ m : State ℕ Table TableSection.Result, Transition.Run (sectionStep formatTime)
        Transition.Always (initial ℕ TableSection.Result initContainers) m ∧
      m.holder = none ∧ SameButWaiters m.shared s.table := by
  refine h.invariant (I := fun s => ∃ m : State ℕ Table TableSection.Result,
    Transition.Run (sectionStep formatTime) Transition.Always
      (initial ℕ TableSection.Result initContainers) m ∧
    m.holder = none ∧ SameButWaiters m.shared s.table) ⟨_, .refl, rfl, .refl _⟩ ?_
  rintro t e u ⟨⟨shared, holder, log⟩, hrun, rfl, hsame⟩ - hs
  have hsection := @section_of_step formatTime t u e hs
  cases hop : t.sectionOf e with
  | none =>
    simp only [hop] at hsection
    exact ⟨_, hrun, rfl, hsame.trans hsection⟩
  | some op =>
    simp only [hop] at hsection
    -- The thread takes the mutex and goes through its section alone.
    have hlock := hrun.tail (.lock 0 op) trivial rfl
    have hfinish := Transition.run_of_exec
      (exec_finish (TableSection.code formatTime) 0 op (op.code formatTime) shared log)
    refine ⟨_, hlock.trans hfinish, rfl, ?_⟩
    rw [op.run_code, hsection.1]
    exact (hsame.meaning op).2

/-- Every table that the supervisor reaches is one that the sections reach, access by access and up
to who is asleep, and its next step does to the table what a section does and goes on with what the
section returned, or leaves the table alone. -/
theorem engine_steps_are_sections {C : Engine → Jackfruit.Event → Prop} {s : Engine}
    (h : Transition.Run step C init s) :
    (∃ m : State ℕ Table TableSection.Result, Transition.Run (sectionStep formatTime)
        Transition.Always (initial ℕ TableSection.Result initContainers) m ∧
      m.holder = none ∧ SameButWaiters m.shared s.table) ∧
      ∀ e s', step s e = some s' →
        match s.sectionOf e with
        | none => SameButWaiters s.table s'.table
        | some op => s'.table = (op.meaning formatTime s.table).2 ∧
            GoesOn s s' e op (op.meaning formatTime s.table).1 :=
  ⟨table_of_sections h, fun _ _ hs => section_of_step hs⟩

/-- A start that has reserved its slot. -/
theorem engine_steps_are_sections_start : ∃ s : Engine, (s.table 0).used = true ∧
    ∃ m : State ℕ Table TableSection.Result, Transition.Run (sectionStep fun _ => [])
        Transition.Always (initial ℕ TableSection.Result initContainers) m ∧
      m.holder = none ∧ SameButWaiters m.shared s.table := by
  obtain ⟨s, hs, hused⟩ := Transition.exists_run_of_exec step Transition.Always init
    [.loopTest, .accept 0, .recv 0 ⟨REQ_START, cstr "a", cstr "r", cstr "true", 40, 64, 0⟩,
      .reserve 0 5]
    (fun s => (s.table 0).used = true) (by decide)
  exact ⟨s, hused, (@engine_steps_are_sections (fun _ => []) _ _ hs).1⟩

end Engine

end Jackfruit
