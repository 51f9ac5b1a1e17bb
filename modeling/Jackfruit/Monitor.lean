import Jackfruit.KeyedList
import Jackfruit.Transition

/-!
# The kernel monitor

`monitor.c` : a linked list of monitored processes behind one mutex. `monitorIoctl` is
`monitor_ioctl`, with what `copy_from_user` and `kmalloc` do as arguments, and
`monitorThreadPass` is one pass of `monitor_thread_fn` over the list, with what the helpers
find out about each process as an argument. Both hold `monitor_lock` over everything they do
to the list, so a run is a sequence of ioctls and passes.

Abstractly the list is a finite map from pids to limits (`limits`). `monitor_list_refines_map`
says that every ioctl and every pass is the operation on the map that it should be, and that
the list keeps the insertion order.
-/

namespace Jackfruit

/-! ## The list and its operations -/

/-- `struct monitor_entry`. -/
structure MonitorEntry where
  pid : ℤ
  softLimit : UInt64
  hardLimit : UInt64
  softWarned : Bool
  deriving DecidableEq

/-- `monitor_request_t`. -/
structure MonitorRequest where
  pid : ℤ
  softLimit : UInt64
  hardLimit : UInt64
  deriving DecidableEq

/-- A copy from user space has failed. -/
def EFAULT : ℤ := 14

/-- An unknown command, or a pid or a limit that makes no sense. -/
def EINVAL : ℤ := 22

/-- No memory. -/
def ENOMEM : ℤ := 12

/-- No such entry. -/
def ENOENT : ℤ := 2

/-- No such process. -/
def ESRCH : ℤ := 3

/-- `_IOW(type, nr, size)` of the ioctl encoding. -/
def iow (type nr size : ℕ) : ℕ :=
  1 <<< 30 ||| size <<< 16 ||| type <<< 8 ||| nr

/-- `_IOW('M', 1, monitor_request_t)`. -/
def REGISTER_CONTAINER : ℕ :=
  iow 77 1 24

/-- `_IOW('M', 2, pid_t)`. -/
def UNREGISTER_CONTAINER : ℕ :=
  iow 77 2 4

/-- `find_entry_locked`. -/
def findEntryLocked (l : List MonitorEntry) (pid : ℤ) : Option MonitorEntry :=
  KeyedList.find MonitorEntry.pid pid l

/-- `remove_entry_locked`. -/
def removeEntryLocked (l : List MonitorEntry) (pid : ℤ) : ℤ × List MonitorEntry :=
  if (findEntryLocked l pid).isSome then (0, KeyedList.remove MonitorEntry.pid pid l)
  else (-ENOENT, l)

/-- The fields a request overwrites in an existing entry. -/
def MonitorRequest.update (req : MonitorRequest) (entry : MonitorEntry) : MonitorEntry :=
  { entry with softLimit := req.softLimit, hardLimit := req.hardLimit, softWarned := false }

/-- The entry of a new request. -/
def MonitorRequest.entry (req : MonitorRequest) : MonitorEntry :=
  ⟨req.pid, req.softLimit, req.hardLimit, false⟩

@[simp] theorem MonitorRequest.pid_update (req : MonitorRequest) (entry : MonitorEntry) :
    (req.update entry).pid = entry.pid :=
  rfl

@[simp] theorem MonitorRequest.pid_entry (req : MonitorRequest) : req.entry.pid = req.pid :=
  rfl

/-- The case `REGISTER_CONTAINER` after the copy. -/
def registerContainer (req : MonitorRequest) (kmalloc : Bool) (l : List MonitorEntry) :
    ℤ × List MonitorEntry :=
  if req.pid ≤ 0 then (-EINVAL, l)
  else if req.hardLimit = 0 then (-EINVAL, l)
  else if (findEntryLocked l req.pid).isSome then
    (0, KeyedList.modify MonitorEntry.pid req.pid req.update l)
  else if kmalloc then (0, l ++ [req.entry])
  else (-ENOMEM, l)

/-- `monitor_ioctl`. `reqArg` and `pidArg` are what `copy_from_user` brings in for the two
commands, nothing when it fails; `kmalloc` says whether the allocation succeeds. -/
def monitorIoctl (cmd : ℕ) (reqArg : Option MonitorRequest) (pidArg : Option ℤ) (kmalloc : Bool)
    (l : List MonitorEntry) : ℤ × List MonitorEntry :=
  if cmd = REGISTER_CONTAINER then
    match reqArg with
    | none => (-EFAULT, l)
    | some req => registerContainer req kmalloc l
  else if cmd = UNREGISTER_CONTAINER then
    match pidArg with
    | none => (-EFAULT, l)
    | some pid => removeEntryLocked l pid
  else (-EINVAL, l)

/-! ## The monitor thread -/

/-- `PAGE_SIZE`. -/
def PAGE_SIZE : UInt64 :=
  4096

/-- What the lookup of `get_process_rss_mib` finds. -/
inductive RssLookup
  | noTask
  | noMm
  | pages (rss : UInt64)

/-- What the three helpers find out about one process in one pass. Each of them looks the pid
up again. -/
structure Observation where
  /-- `process_exists`. -/
  hasTask : Bool
  rss : RssLookup
  /-- `find_get_pid` in `kill_process_by_pid`. -/
  killFinds : Bool

/-- `get_process_rss_mib` : its return value and `*rss_mib_out`. -/
def getProcessRssMib : RssLookup → ℤ × UInt64
  | .noTask => (-ESRCH, 0)
  | .noMm => (-ESRCH, 0)
  | .pages rss => (0, rss * PAGE_SIZE / (1024 * 1024))

/-- What a pass does besides changing the list. -/
inductive MonitorAction
  | softWarning (pid : ℤ) (rssMib softLimit : UInt64)
  | sigkill (pid : ℤ)
  deriving DecidableEq

/-- The loop body of `monitor_thread_fn` : what remains of the entry. -/
def monitorVisit (entry : MonitorEntry) (obs : Observation) :
    Option MonitorEntry × List MonitorAction :=
  if !obs.hasTask then (none, [])
  else
    let (ret, rssMib) := getProcessRssMib obs.rss
    if ret ≠ 0 then (none, [])
    else
      let warns := !entry.softWarned && decide (rssMib > entry.softLimit)
      let kills := decide (rssMib > entry.hardLimit) && obs.killFinds
      (some { entry with softWarned := entry.softWarned || warns },
        (if warns then [.softWarning entry.pid rssMib entry.softLimit] else []) ++
          (if kills then [.sigkill entry.pid] else []))

/-- One pass of `monitor_thread_fn`, where `obs` is what it finds out about each pid. -/
def monitorThreadPass (obs : ℤ → Observation) :
    List MonitorEntry → List MonitorEntry × List MonitorAction
  | [] => ([], [])
  | entry :: l =>
    let visit := monitorVisit entry (obs entry.pid)
    let rest := monitorThreadPass obs l
    (visit.1.toList ++ rest.1, visit.2 ++ rest.2)

/-- What can happen to the list. -/
inductive MonitorEvent
  | ioctl (cmd : ℕ) (reqArg : Option MonitorRequest) (pidArg : Option ℤ) (kmalloc : Bool)
  | pass (obs : ℤ → Observation)

namespace Monitor

/-- One ioctl or one pass. -/
def step (l : List MonitorEntry) : MonitorEvent → Option (List MonitorEntry)
  | .ioctl cmd reqArg pidArg kmalloc => some (monitorIoctl cmd reqArg pidArg kmalloc l).2
  | .pass obs => some (monitorThreadPass obs l).1

/-- Reached from the empty list. -/
def Reachable (l : List MonitorEntry) : Prop :=
  Transition.Run step Transition.Always [] l

/-! ## The finite map -/

/-- What the map knows about a pid. -/
structure Limits where
  softLimit : UInt64
  hardLimit : UInt64
  softWarned : Bool
  deriving DecidableEq

/-- The finite map from pids to limits. -/
abbrev LimitMap :=
  Finmap fun _ : ℤ => Limits

/-- What the map knows of an entry. -/
def limitsOf (entry : MonitorEntry) : Limits :=
  ⟨entry.softLimit, entry.hardLimit, entry.softWarned⟩

/-- The map a list stands for. -/
def limits (l : List MonitorEntry) : LimitMap :=
  KeyedList.toMap MonitorEntry.pid limitsOf l

/-- Entries are well formed and no pid is listed twice. -/
structure Wf (l : List MonitorEntry) : Prop where
  entry : ∀ e ∈ l, 0 < e.pid ∧ e.hardLimit ≠ 0
  nodup : (l.map MonitorEntry.pid).Nodup

/-- What one pass leaves of a pid's limits. -/
def visitLimits (obs : Observation) (lim : Limits) : Option Limits :=
  if !obs.hasTask then none
  else
    match obs.rss with
    | .pages rss => some { lim with
        softWarned := lim.softWarned || decide (rss * PAGE_SIZE / (1024 * 1024) > lim.softLimit) }
    | _ => none

/-- The list after an ioctl with return value `ret` is the list for the map after the abstract
operation : insert or overwrite, erase, or nothing. -/
def IoctlRefines (cmd : ℕ) (reqArg : Option MonitorRequest) (pidArg : Option ℤ)
    (l : List MonitorEntry) (ret : ℤ) (l' : List MonitorEntry) : Prop :=
  (ret ≠ 0 → ret ∈ [-EFAULT, -EINVAL, -ENOMEM, -ENOENT] ∧ l' = l) ∧
    (cmd ≠ REGISTER_CONTAINER → cmd ≠ UNREGISTER_CONTAINER → ret = -EINVAL) ∧
    (cmd = REGISTER_CONTAINER → ret = 0 → ∃ req, reqArg = some req ∧
      limits l' = (limits l).insert req.pid ⟨req.softLimit, req.hardLimit, false⟩ ∧
      l'.filter (·.pid ≠ req.pid) = l.filter (·.pid ≠ req.pid)) ∧
    ∀ pid, cmd = UNREGISTER_CONTAINER → pidArg = some pid →
      (ret = 0 ↔ pid ∈ limits l) ∧
        (ret = 0 → limits l' = (limits l).erase pid ∧ l' = l.filter (·.pid ≠ pid))

/-- The list after a pass is the list for the map after the abstract visit of every pid, in the
same order. -/
def PassRefines (obs : ℤ → Observation) (l l' : List MonitorEntry) : Prop :=
  (∀ pid, (limits l').lookup pid = ((limits l).lookup pid).bind (visitLimits (obs pid))) ∧
    (l'.map MonitorEntry.pid).Sublist (l.map MonitorEntry.pid)

variable {l : List MonitorEntry}

/-- The entry of a pid in the map is in the list. -/
theorem mem_of_lookup {pid : ℤ} {lim : Limits}
    (h : (limits l).lookup pid = some lim) :
    ∃ entry ∈ l, entry.pid = pid ∧ limitsOf entry = lim := by
  rw [limits, KeyedList.lookup_toMap] at h
  obtain ⟨entry, hfind, hlim⟩ := Option.map_eq_some_iff.mp h
  obtain ⟨hmem, hpid⟩ := KeyedList.mem_of_find hfind
  exact ⟨entry, hmem, hpid, hlim⟩

/-! ## Ioctls -/

theorem isSome_findEntryLocked {pid : ℤ} :
    (findEntryLocked l pid).isSome ↔ pid ∈ l.map MonitorEntry.pid := by
  rw [findEntryLocked, Option.isSome_iff_ne_none, ne_eq, KeyedList.find_eq_none, not_not]

/-- Registering fails and changes nothing, overwrites the entry of a listed pid, or appends an
entry for a new one. -/
theorem registerContainer_cases (req : MonitorRequest) (kmalloc : Bool) (l : List MonitorEntry) :
    (registerContainer req kmalloc l = (-EINVAL, l) ∨
        registerContainer req kmalloc l = (-ENOMEM, l)) ∨
      (0 < req.pid ∧ req.hardLimit ≠ 0 ∧ req.pid ∈ l.map MonitorEntry.pid ∧
        registerContainer req kmalloc l =
          (0, KeyedList.modify MonitorEntry.pid req.pid req.update l)) ∨
      (0 < req.pid ∧ req.hardLimit ≠ 0 ∧ req.pid ∉ l.map MonitorEntry.pid ∧
        registerContainer req kmalloc l = (0, l ++ [req.entry])) := by
  unfold registerContainer
  split_ifs with hpid hhard hfind hk
  · exact Or.inl (Or.inl rfl)
  · exact Or.inl (Or.inl rfl)
  · exact Or.inr (Or.inl ⟨not_le.mp hpid, hhard, isSome_findEntryLocked.mp hfind, rfl⟩)
  · exact Or.inr (Or.inr ⟨not_le.mp hpid, hhard, mt isSome_findEntryLocked.mpr hfind, rfl⟩)
  · exact Or.inl (Or.inr rfl)

theorem Wf.registerContainer (h : Wf l) (req : MonitorRequest) (kmalloc : Bool) :
    Wf (registerContainer req kmalloc l).2 := by
  rcases registerContainer_cases req kmalloc l with
    (heq | heq) | ⟨hpid, hhard, hmem, heq⟩ | ⟨hpid, hhard, hmem, heq⟩
  · rw [heq]
    exact h
  · rw [heq]
    exact h
  · rw [heq]
    refine ⟨fun e he => ?_, ?_⟩
    · rcases KeyedList.mem_modify he with he | ⟨b, hb, -, rfl⟩
      · exact h.entry e he
      · exact ⟨(h.entry b hb).1, hhard⟩
    · show ((KeyedList.modify MonitorEntry.pid req.pid req.update l).map _).Nodup
      rw [KeyedList.map_key_modify req.pid_update]
      exact h.nodup
  · rw [heq]
    refine ⟨fun e he => ?_, ?_⟩
    · rcases List.mem_append.mp he with he | he
      · exact h.entry e he
      · rw [List.mem_singleton.mp he]
        exact ⟨hpid, hhard⟩
    · rw [List.map_append, List.nodup_append]
      refine ⟨h.nodup, List.nodup_singleton _, fun a ha b hb hab => hmem ?_⟩
      have hb' : b = req.pid := List.mem_singleton.mp hb
      exact hb' ▸ hab ▸ ha

theorem Wf.filter (h : Wf l) (p : MonitorEntry → Bool) : Wf (l.filter p) where
  entry e he := h.entry e (List.mem_of_mem_filter he)
  nodup := h.nodup.sublist (List.filter_sublist.map _)

theorem Wf.removeEntryLocked (h : Wf l) (pid : ℤ) : Wf (removeEntryLocked l pid).2 := by
  unfold Jackfruit.removeEntryLocked
  split_ifs
  · rw [KeyedList.remove_eq_filter h.nodup]
    exact h.filter _
  · exact h

theorem Wf.monitorIoctl (h : Wf l) (cmd : ℕ) (reqArg : Option MonitorRequest)
    (pidArg : Option ℤ) (kmalloc : Bool) : Wf (monitorIoctl cmd reqArg pidArg kmalloc l).2 := by
  unfold Jackfruit.monitorIoctl
  split_ifs
  · cases reqArg with
    | none => exact h
    | some req => exact h.registerContainer req kmalloc
  · cases pidArg with
    | none => exact h
    | some pid => exact h.removeEntryLocked pid
  · exact h

theorem register_ne_unregister : REGISTER_CONTAINER ≠ UNREGISTER_CONTAINER := by
  decide

/-- `REGISTER_CONTAINER` inserts or overwrites in the map, or fails and changes nothing. -/
theorem registerContainer_refines (req : MonitorRequest) (kmalloc : Bool) {ret : ℤ}
    {l' : List MonitorEntry} (h : registerContainer req kmalloc l = (ret, l')) :
    (ret ≠ 0 → ret ∈ [-EFAULT, -EINVAL, -ENOMEM, -ENOENT] ∧ l' = l) ∧
      (ret = 0 → limits l' = (limits l).insert req.pid ⟨req.softLimit, req.hardLimit, false⟩ ∧
        l'.filter (·.pid ≠ req.pid) = l.filter (·.pid ≠ req.pid)) := by
  rcases registerContainer_cases req kmalloc l with
    (heq | heq) | ⟨-, -, hmem, heq⟩ | ⟨-, -, hmem, heq⟩ <;>
    obtain ⟨rfl, rfl⟩ := Prod.mk.inj (heq.symm.trans h)
  · exact ⟨fun _ => ⟨by simp, rfl⟩, fun h0 => absurd h0 (by decide)⟩
  · exact ⟨fun _ => ⟨by simp, rfl⟩, fun h0 => absurd h0 (by decide)⟩
  · refine ⟨fun h0 => absurd rfl h0, fun _ => ⟨?_, KeyedList.filter_modify req.pid_update⟩⟩
    exact KeyedList.toMap_modify req.pid_update (fun _ _ => rfl) hmem
  · refine ⟨fun h0 => absurd rfl h0, fun _ => ⟨KeyedList.toMap_append hmem, ?_⟩⟩
    rw [List.filter_append, List.filter_cons_of_neg (by simp), List.filter_nil, List.append_nil]

/-- `UNREGISTER_CONTAINER` erases a listed pid and fails on any other. -/
theorem removeEntryLocked_refines (hl : Wf l) (pid : ℤ) {ret : ℤ} {l' : List MonitorEntry}
    (h : removeEntryLocked l pid = (ret, l')) :
    (ret ≠ 0 → ret ∈ [-EFAULT, -EINVAL, -ENOMEM, -ENOENT] ∧ l' = l) ∧
      (ret = 0 ↔ pid ∈ limits l) ∧
        (ret = 0 → limits l' = (limits l).erase pid ∧ l' = l.filter (·.pid ≠ pid)) := by
  have hmem : pid ∈ limits l ↔ (findEntryLocked l pid).isSome := by
    rw [isSome_findEntryLocked]
    exact KeyedList.mem_toMap
  rw [hmem]
  unfold removeEntryLocked at h
  split_ifs at h with hfind <;> obtain ⟨rfl, rfl⟩ := Prod.mk.inj h
  · refine ⟨fun h0 => absurd rfl h0, ⟨fun _ => hfind, fun _ => rfl⟩, fun _ => ⟨?_, ?_⟩⟩
    · exact KeyedList.toMap_remove hl.nodup
    · exact KeyedList.remove_eq_filter hl.nodup
  · refine ⟨fun _ => ⟨by simp, rfl⟩, ⟨fun h0 => absurd h0 (by decide), fun h0 => absurd h0 hfind⟩,
      fun h0 => absurd h0 (by decide)⟩

theorem monitorIoctl_refines (hl : Wf l) (cmd : ℕ) (reqArg : Option MonitorRequest)
    (pidArg : Option ℤ) (kmalloc : Bool) {ret : ℤ} {l' : List MonitorEntry}
    (h : monitorIoctl cmd reqArg pidArg kmalloc l = (ret, l')) :
    IoctlRefines cmd reqArg pidArg l ret l' := by
  unfold monitorIoctl at h
  split_ifs at h with hreg hunreg
  · refine ⟨?_, fun hne => absurd hreg hne, ?_,
      fun _ heq => absurd (hreg.symm.trans heq) register_ne_unregister⟩
    · cases reqArg with
      | none =>
        obtain ⟨rfl, rfl⟩ := Prod.mk.inj h
        exact fun _ => ⟨by simp, rfl⟩
      | some req => exact (registerContainer_refines req kmalloc h).1
    · cases reqArg with
      | none =>
        obtain ⟨rfl, rfl⟩ := Prod.mk.inj h
        exact fun _ h0 => absurd h0 (by decide)
      | some req => exact fun _ h0 => ⟨req, rfl, (registerContainer_refines req kmalloc h).2 h0⟩
  · refine ⟨?_, fun _ hne => absurd hunreg hne, fun heq => absurd heq hreg, ?_⟩
    · cases pidArg with
      | none =>
        obtain ⟨rfl, rfl⟩ := Prod.mk.inj h
        exact fun _ => ⟨by simp, rfl⟩
      | some pid => exact (removeEntryLocked_refines hl pid h).1
    · rintro pid - rfl
      exact (removeEntryLocked_refines hl pid h).2
  · obtain ⟨rfl, rfl⟩ := Prod.mk.inj h
    exact ⟨fun _ => ⟨by simp, rfl⟩, fun _ _ => rfl, fun heq => absurd heq hreg,
      fun _ heq => absurd heq hunreg⟩

/-! ## Passes -/

theorem monitorVisit_fst (entry : MonitorEntry) (obs : Observation) :
    (monitorVisit entry obs).1 = (visitLimits obs (limitsOf entry)).map fun lim =>
      ⟨entry.pid, lim.softLimit, lim.hardLimit, lim.softWarned⟩ := by
  obtain ⟨hasTask, rss, killFinds⟩ := obs
  cases hasTask with
  | false => rfl
  | true =>
    cases rss with
    | noTask => rfl
    | noMm => rfl
    | pages rss =>
      cases hw : entry.softWarned <;>
        simp [monitorVisit, getProcessRssMib, visitLimits, limitsOf, hw]

/-- A visit keeps an entry as it is up to `soft_warned`, or drops it. -/
theorem mem_monitorVisit {entry e : MonitorEntry} {obs : Observation}
    (h : e ∈ (monitorVisit entry obs).1.toList) :
    e.pid = entry.pid ∧ e.softLimit = entry.softLimit ∧ e.hardLimit = entry.hardLimit := by
  rw [Option.mem_toList, monitorVisit_fst, Option.map_eq_some_iff] at h
  obtain ⟨lim, hlim, rfl⟩ := h
  unfold visitLimits at hlim
  split_ifs at hlim
  split at hlim
  · obtain rfl := Option.some.inj hlim
    exact ⟨rfl, rfl, rfl⟩
  · cases hlim

theorem monitorThreadPass_cons (obs : ℤ → Observation) (entry : MonitorEntry)
    (l : List MonitorEntry) : (monitorThreadPass obs (entry :: l)).1 =
      (monitorVisit entry (obs entry.pid)).1.toList ++ (monitorThreadPass obs l).1 :=
  rfl

theorem mem_monitorThreadPass {obs : ℤ → Observation} {e : MonitorEntry} :
    ∀ {l : List MonitorEntry}, e ∈ (monitorThreadPass obs l).1 →
      ∃ entry ∈ l, e ∈ (monitorVisit entry (obs entry.pid)).1.toList
  | [], h => by simp [monitorThreadPass] at h
  | entry :: l, h => by
    rw [monitorThreadPass_cons] at h
    rcases List.mem_append.mp h with h | h
    · exact ⟨entry, List.mem_cons_self, h⟩
    · obtain ⟨entry', hmem, he⟩ := mem_monitorThreadPass h
      exact ⟨entry', List.mem_cons_of_mem _ hmem, he⟩

/-- A pass drops pids and keeps the order of the others. -/
theorem sublist_monitorThreadPass (obs : ℤ → Observation) : ∀ l : List MonitorEntry,
    ((monitorThreadPass obs l).1.map MonitorEntry.pid).Sublist (l.map MonitorEntry.pid)
  | [] => List.Sublist.refl _
  | entry :: l => by
    have ih := sublist_monitorThreadPass obs l
    rw [monitorThreadPass_cons]
    cases hv : (monitorVisit entry (obs entry.pid)).1 with
    | none => exact ih.trans (List.sublist_cons_self _ _)
    | some e =>
      have hpid : e.pid = entry.pid := (mem_monitorVisit (by rw [hv]; simp)).1
      show (e.pid :: _).Sublist (entry.pid :: _)
      rw [hpid]
      exact ih.cons_cons _

theorem Wf.monitorThreadPass (h : Wf l) (obs : ℤ → Observation) :
    Wf (monitorThreadPass obs l).1 where
  entry e he := by
    obtain ⟨entry, hmem, hvisit⟩ := mem_monitorThreadPass he
    obtain ⟨hpid, -, hhard⟩ := mem_monitorVisit hvisit
    rw [hpid, hhard]
    exact h.entry entry hmem
  nodup := h.nodup.sublist (sublist_monitorThreadPass obs l)

/-- A pass visits every pid of the map. -/
theorem lookup_monitorThreadPass (hl : (l.map MonitorEntry.pid).Nodup) (obs : ℤ → Observation)
    (pid : ℤ) : (limits (monitorThreadPass obs l).1).lookup pid =
      ((limits l).lookup pid).bind (visitLimits (obs pid)) := by
  rw [limits, limits, KeyedList.lookup_toMap, KeyedList.lookup_toMap]
  induction l with
  | nil => rfl
  | cons entry l ih =>
    rw [List.map_cons, List.nodup_cons] at hl
    have hsub := (sublist_monitorThreadPass obs l).subset
    have hrest := ih hl.2
    rw [monitorThreadPass_cons, KeyedList.find, List.find?_append, KeyedList.find_cons]
    rw [KeyedList.find] at hrest
    by_cases hp : entry.pid = pid
    · -- The pid of this entry does not occur again, so what its visit leaves is all there is.
      subst hp
      have hnone : (monitorThreadPass obs l).1.find? (fun e => e.pid = entry.pid) = none :=
        KeyedList.find_eq_none.mpr fun h => hl.1 (hsub h)
      rw [hnone, Option.or_none, if_pos rfl, Option.map_some, Option.bind_some, monitorVisit_fst]
      cases visitLimits (obs entry.pid) (limitsOf entry) with
      | none => rfl
      | some lim => simp [limitsOf]
    · rw [if_neg hp]
      cases hv : (monitorVisit entry (obs entry.pid)).1 with
      | none => exact hrest
      | some e =>
        have hpid : e.pid = entry.pid := (mem_monitorVisit (by rw [hv]; simp)).1
        rw [Option.toList_some, List.find?_singleton, if_neg (by simpa [hpid] using hp),
          Option.none_or]
        exact hrest

theorem Reachable.wf (h : Reachable l) : Wf l := by
  refine Transition.Run.invariant h ⟨by simp, List.nodup_nil⟩ ?_
  rintro t e u ht - hu
  cases e with
  | ioctl cmd reqArg pidArg kmalloc =>
    obtain rfl := Option.some.inj hu
    exact ht.monitorIoctl cmd reqArg pidArg kmalloc
  | pass obs =>
    obtain rfl := Option.some.inj hu
    exact ht.monitorThreadPass obs

/-- After every run of ioctls and passes, with failures anywhere, the entries are well formed and
the pids distinct, and the next ioctl or pass is its operation on the map of the list and keeps
the order of all other entries. -/
theorem monitor_list_refines_map (h : Reachable l) :
    (∀ e ∈ l, 0 < e.pid ∧ e.hardLimit ≠ 0) ∧ (l.map MonitorEntry.pid).Nodup ∧
      (∀ cmd reqArg pidArg kmalloc,
        IoctlRefines cmd reqArg pidArg l (monitorIoctl cmd reqArg pidArg kmalloc l).1
          (monitorIoctl cmd reqArg pidArg kmalloc l).2) ∧
      ∀ obs, PassRefines obs l (monitorThreadPass obs l).1 := by
  have hl := h.wf
  refine ⟨hl.entry, hl.nodup, ?_, fun obs => ⟨?_, ?_⟩⟩
  · exact fun cmd reqArg pidArg kmalloc => monitorIoctl_refines hl cmd reqArg pidArg kmalloc rfl
  · exact lookup_monitorThreadPass hl.nodup obs
  · exact sublist_monitorThreadPass obs l

/-- The list after one registration. -/
theorem monitor_list_refines_map_one : ∃ l, l = [⟨7, 40, 64, false⟩] ∧
    ∀ obs, PassRefines obs l (monitorThreadPass obs l).1 := by
  obtain ⟨l, hl, heq⟩ := Transition.exists_run_of_exec step Transition.Always []
    [.ioctl REGISTER_CONTAINER (some ⟨7, 40, 64⟩) none true]
    (fun l => l = [⟨7, 40, 64, false⟩]) (by decide)
  exact ⟨l, heq, (monitor_list_refines_map hl).2.2.2⟩

end Monitor

end Jackfruit
