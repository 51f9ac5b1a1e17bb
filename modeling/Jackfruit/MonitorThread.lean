import Jackfruit.Monitor

/-!
# The monitor thread among the processes

`monitor_thread_fn` one lookup at a time. `process_exists`, `get_process_rss_mib` and
`kill_process_by_pid` each look the pid of the entry up again, and between any two of them
processes may begin, end and be waited for, by which their pids become free. Only ioctls have to
wait for the end of the pass, since they take `monitor_lock`.

A pass that is seen as one step is the `monitorThreadPass` of what the lookups have found, so
between two passes the list is one that the monitor of `Monitor` can reach (`pass_refines`).
-/

set_option linter.unusedSectionVars false

namespace Jackfruit

/-- A process, from its creation until it has been waited for. -/
structure Task where
  id : ℕ
  /-- It has not exited. -/
  alive : Bool
  deriving DecidableEq

/-- Where `monitor_thread_fn` is. -/
inductive ThreadPc
  /-- Between two passes, without `monitor_lock`. -/
  | sleeping
  /-- At `process_exists` for the next entry, or at the end of the list. -/
  | processExists
  | rss
  | kill
  deriving DecidableEq

/-- A SIGKILL of the monitor thread, and the process that owned the pid at the latest successful
REGISTER for it. -/
structure SigKill where
  pid : ℤ
  victim : ℕ
  owner : Option ℕ
  deriving DecidableEq

/-- The monitor, its thread and the processes. -/
structure Kernel where
  pc : ThreadPc
  /-- The entries that the pass has behind it; all of them outside a pass. -/
  kept : List MonitorEntry
  /-- The entries from the one on at which the pass is. -/
  todo : List MonitorEntry
  holder : ℤ → Option Task
  /-- The number of processes so far. -/
  processes : ℕ
  /-- The process that had the pid at its latest successful REGISTER. No step reads it. -/
  owner : ℤ → Option ℕ
  actions : List MonitorAction
  kills : List SigKill

/-- What happens next. -/
inductive KernelEvent
  | ioctl (cmd : ℕ) (reqArg : Option MonitorRequest) (pidArg : Option ℤ) (kmalloc : Bool)
  /-- A pass begins. -/
  | lock
  | processExists
  | rss (found : RssLookup)
  | kill
  | unlock
  /-- A process is created with this pid. -/
  | spawn (pid : ℤ)
  | exit (pid : ℤ)
  /-- The process with this pid is waited for. -/
  | wait (pid : ℤ)

namespace Monitor

theorem monitorThreadPass_append (obs : ℤ → Observation) (l' : List MonitorEntry) :
    ∀ l : List MonitorEntry, monitorThreadPass obs (l ++ l') =
      ((monitorThreadPass obs l).1 ++ (monitorThreadPass obs l').1,
        (monitorThreadPass obs l).2 ++ (monitorThreadPass obs l').2)
  | [] => rfl
  | entry :: l => by
    simp only [List.cons_append, monitorThreadPass, monitorThreadPass_append obs l' l,
      List.append_assoc]

/-- A pass looks up only the pids that are listed. -/
theorem monitorThreadPass_congr {obs obs' : ℤ → Observation} :
    ∀ {l : List MonitorEntry}, (∀ entry ∈ l, obs entry.pid = obs' entry.pid) →
      monitorThreadPass obs l = monitorThreadPass obs' l
  | [], _ => rfl
  | entry :: l, h => by
    have ih := monitorThreadPass_congr fun e he => h e (List.mem_cons_of_mem _ he)
    simp only [monitorThreadPass, ih, h entry List.mem_cons_self]

/-- A pass that goes on to one more entry. -/
theorem monitorThreadPass_snoc {l : List MonitorEntry} {entry : MonitorEntry}
    (hnew : entry.pid ∉ l.map MonitorEntry.pid) (obs : ℤ → Observation) (o : Observation) :
    monitorThreadPass (Function.update obs entry.pid o) (l ++ [entry]) =
      ((monitorThreadPass obs l).1 ++ (monitorVisit entry o).1.toList,
        (monitorThreadPass obs l).2 ++ (monitorVisit entry o).2) := by
  have hl : monitorThreadPass (Function.update obs entry.pid o) l = monitorThreadPass obs l := by
    refine monitorThreadPass_congr fun e he => Function.update_of_ne ?_ _ _
    rintro heq
    exact hnew (heq ▸ List.mem_map_of_mem he)
  rw [monitorThreadPass_append, hl]
  simp [monitorThreadPass]

end Monitor

namespace Kernel

/-- The thread sleeps, and nothing is registered. -/
def init : Kernel where
  pc := .sleeping
  kept := []
  todo := []
  holder _ := none
  processes := 0
  owner _ := none
  actions := []
  kills := []

variable (s : Kernel)

/-- `monitor_list`. -/
def list : List MonitorEntry :=
  s.kept ++ s.todo

/-- What `get_process_rss_mib` can find : a process that has exited has no memory left. -/
def Finds (pid : ℤ) : RssLookup → Prop
  | .noTask => s.holder pid = none
  | .noMm => (s.holder pid).isSome = true
  | .pages _ => ∃ p ∈ s.holder pid, p.alive = true

instance (pid : ℤ) (found : RssLookup) : Decidable (s.Finds pid found) := by
  unfold Finds
  split <;> infer_instance

/-- The state after an ioctl. -/
def ioctl (cmd : ℕ) (reqArg : Option MonitorRequest) (pidArg : Option ℤ) (kmalloc : Bool) :
    Kernel :=
  { s with
    kept := (monitorIoctl cmd reqArg pidArg kmalloc s.kept).2
    owner :=
      if cmd = REGISTER_CONTAINER ∧ (monitorIoctl cmd reqArg pidArg kmalloc s.kept).1 = 0 then
        match reqArg with
        | some req => Function.update s.owner req.pid ((s.holder req.pid).map Task.id)
        | none => s.owner
      else s.owner }

/-- The pass deletes the entry it is at. -/
def delete (todo : List MonitorEntry) : Kernel :=
  { s with pc := .processExists, todo := todo }

/-- The pass goes on to the next entry. -/
def advance (entry : MonitorEntry) (todo : List MonitorEntry) : Kernel :=
  { s with pc := .processExists, kept := s.kept ++ [entry], todo := todo }

/-- What the branch for the soft limit prints. -/
def warning (entry : MonitorEntry) (rssMib : UInt64) : List MonitorAction :=
  if !entry.softWarned && decide (rssMib > entry.softLimit) then
    [.softWarning entry.pid rssMib entry.softLimit]
  else []

/-- The entry after the branch for the soft limit. -/
def warned (entry : MonitorEntry) (rssMib : UInt64) : MonitorEntry :=
  { entry with softWarned :=
      entry.softWarned || (!entry.softWarned && decide (rssMib > entry.softLimit)) }

/-- The branch for the soft limit. -/
def warn (entry : MonitorEntry) (rssMib : UInt64) : Kernel :=
  { s with actions := s.actions ++ warning entry rssMib }

/-- `kill_process_by_pid`. -/
def killProcessByPid (pid : ℤ) : Kernel :=
  match s.holder pid with
  | some p => { s with
      actions := s.actions ++ [.sigkill pid]
      kills := s.kills ++ [⟨pid, p.id, s.owner pid⟩] }
  | none => s

/-- One step. -/
def step (s : Kernel) : KernelEvent → Option Kernel
  | .ioctl cmd reqArg pidArg kmalloc =>
    if s.pc = .sleeping then some (s.ioctl cmd reqArg pidArg kmalloc) else none
  | .lock =>
    if s.pc = .sleeping then some { s with pc := .processExists, kept := [], todo := s.list }
    else none
  | .processExists =>
    match s.pc, s.todo with
    | .processExists, entry :: todo =>
      some (if (s.holder entry.pid).isSome then { s with pc := .rss } else s.delete todo)
    | _, _ => none
  | .rss found =>
    match s.pc, s.todo with
    | .rss, entry :: todo =>
      if s.Finds entry.pid found then
        let (ret, rssMib) := getProcessRssMib found
        if ret ≠ 0 then some (s.delete todo)
        else if rssMib > entry.hardLimit then
          some { s.warn entry rssMib with pc := .kill, todo := warned entry rssMib :: todo }
        else some ((s.warn entry rssMib).advance (warned entry rssMib) todo)
      else none
    | _, _ => none
  | .kill =>
    match s.pc, s.todo with
    | .kill, entry :: todo => some ((s.killProcessByPid entry.pid).advance entry todo)
    | _, _ => none
  | .unlock =>
    match s.pc, s.todo with
    | .processExists, [] => some { s with pc := .sleeping }
    | _, _ => none
  | .spawn pid =>
    if 0 < pid ∧ s.holder pid = none then
      some { s with
        holder := Function.update s.holder pid (some ⟨s.processes, true⟩)
        processes := s.processes + 1 }
    else none
  | .exit pid =>
    match s.holder pid with
    | some ⟨id, true⟩ => some { s with holder := Function.update s.holder pid (some ⟨id, false⟩) }
    | _ => none
  | .wait pid =>
    match s.holder pid with
    | some ⟨_, false⟩ => some { s with holder := Function.update s.holder pid none }
    | _ => none

/-- Everything that an event can do. -/
inductive Effect (s : Kernel) : KernelEvent → Kernel → Prop
  | ioctl (cmd : ℕ) (reqArg : Option MonitorRequest) (pidArg : Option ℤ) (kmalloc : Bool) :
      s.pc = .sleeping → Effect s (.ioctl cmd reqArg pidArg kmalloc)
        (s.ioctl cmd reqArg pidArg kmalloc)
  | lock : s.pc = .sleeping →
      Effect s .lock { s with pc := .processExists, kept := [], todo := s.list }
  | present (entry : MonitorEntry) (todo : List MonitorEntry) : s.pc = .processExists →
      s.todo = entry :: todo → (s.holder entry.pid).isSome = true →
      Effect s .processExists { s with pc := .rss }
  | stale (entry : MonitorEntry) (todo : List MonitorEntry) : s.pc = .processExists →
      s.todo = entry :: todo → s.holder entry.pid = none →
      Effect s .processExists (s.delete todo)
  | noRss (entry : MonitorEntry) (todo : List MonitorEntry) (found : RssLookup) : s.pc = .rss →
      s.todo = entry :: todo → s.Finds entry.pid found → (getProcessRssMib found).1 ≠ 0 →
      Effect s (.rss found) (s.delete todo)
  | aboveHard (entry : MonitorEntry) (todo : List MonitorEntry) (found : RssLookup) : s.pc = .rss →
      s.todo = entry :: todo → s.Finds entry.pid found → (getProcessRssMib found).1 = 0 →
      (getProcessRssMib found).2 > entry.hardLimit →
      Effect s (.rss found) { s.warn entry (getProcessRssMib found).2 with
        pc := .kill, todo := warned entry (getProcessRssMib found).2 :: todo }
  | belowHard (entry : MonitorEntry) (todo : List MonitorEntry) (found : RssLookup) : s.pc = .rss →
      s.todo = entry :: todo → s.Finds entry.pid found → (getProcessRssMib found).1 = 0 →
      ¬(getProcessRssMib found).2 > entry.hardLimit →
      Effect s (.rss found) ((s.warn entry (getProcessRssMib found).2).advance
        (warned entry (getProcessRssMib found).2) todo)
  | kill (entry : MonitorEntry) (todo : List MonitorEntry) : s.pc = .kill →
      s.todo = entry :: todo → Effect s .kill ((s.killProcessByPid entry.pid).advance entry todo)
  | unlock : s.pc = .processExists → s.todo = [] → Effect s .unlock { s with pc := .sleeping }
  | spawn (pid : ℤ) : s.holder pid = none → Effect s (.spawn pid) { s with
        holder := Function.update s.holder pid (some ⟨s.processes, true⟩)
        processes := s.processes + 1 }
  | exit (pid : ℤ) (id : ℕ) : s.holder pid = some ⟨id, true⟩ →
      Effect s (.exit pid) { s with holder := Function.update s.holder pid (some ⟨id, false⟩) }
  | wait (pid : ℤ) : Effect s (.wait pid) { s with holder := Function.update s.holder pid none }

variable {s} {s' : Kernel} {e : KernelEvent}

theorem step_effect (hs : step s e = some s') : Effect s e s' := by
  cases e with
  | ioctl cmd reqArg pidArg kmalloc =>
    simp only [step] at hs
    split_ifs at hs with hpc
    cases hs
    exact .ioctl cmd reqArg pidArg kmalloc hpc
  | lock =>
    simp only [step] at hs
    split_ifs at hs with hpc
    cases hs
    exact .lock hpc
  | processExists =>
    simp only [step] at hs
    split at hs
    · rename_i entry todo hpc htodo
      split_ifs at hs with hsome <;> cases hs
      · exact .present entry todo hpc htodo hsome
      · exact .stale entry todo hpc htodo (Option.not_isSome_iff_eq_none.mp hsome)
    · cases hs
  | rss found =>
    simp only [step] at hs
    split at hs
    · rename_i entry todo hpc htodo
      split_ifs at hs with hfinds hret hover <;> cases hs
      · exact .noRss entry todo found hpc htodo hfinds hret
      · exact .aboveHard entry todo found hpc htodo hfinds (not_not.mp hret) hover
      · exact .belowHard entry todo found hpc htodo hfinds (not_not.mp hret) hover
    · cases hs
  | kill =>
    simp only [step] at hs
    split at hs
    · rename_i entry todo hpc htodo
      cases hs
      exact .kill entry todo hpc htodo
    · cases hs
  | unlock =>
    simp only [step] at hs
    split at hs
    · rename_i hpc htodo
      cases hs
      exact .unlock hpc htodo
    · cases hs
  | spawn pid =>
    simp only [step] at hs
    split_ifs at hs with hfree
    cases hs
    exact .spawn pid hfree.2
  | exit pid =>
    simp only [step] at hs
    split at hs
    · rename_i id hp
      cases hs
      exact .exit pid id hp
    · cases hs
  | wait pid =>
    simp only [step] at hs
    split at hs
    · cases hs
      exact .wait pid
    · cases hs

/-! ## A pass as one step -/

/-- The visit of an entry whose process is found with its memory. -/
theorem monitorVisit_found {entry : MonitorEntry} {found : RssLookup} (killFinds : Bool)
    (hret : (getProcessRssMib found).1 = 0) :
    monitorVisit entry ⟨true, found, killFinds⟩ =
      (some (warned entry (getProcessRssMib found).2),
        warning entry (getProcessRssMib found).2 ++
          if decide ((getProcessRssMib found).2 > entry.hardLimit) && killFinds then
            [.sigkill entry.pid]
          else []) := by
  simp [monitorVisit, hret, warned, warning]

/-- A pass over `l` is under way : it has visited the entries `visited` and found `obs`. -/
inductive InPass (l : List MonitorEntry) (acts : List MonitorAction) (s : Kernel) : Prop
  | next (visited : List MonitorEntry) (obs : ℤ → Observation) :
      s.pc = .processExists ∨ s.pc = .rss → l = visited ++ s.todo →
      s.kept = (monitorThreadPass obs visited).1 →
      s.actions = acts ++ (monitorThreadPass obs visited).2 → InPass l acts s
  | kill (visited : List MonitorEntry) (obs : ℤ → Observation) (entry : MonitorEntry)
      (todo : List MonitorEntry) (found : RssLookup) : s.pc = .kill →
      l = visited ++ entry :: todo → (getProcessRssMib found).1 = 0 →
      (getProcessRssMib found).2 > entry.hardLimit →
      s.todo = warned entry (getProcessRssMib found).2 :: todo →
      s.kept = (monitorThreadPass obs visited).1 →
      s.actions = acts ++ (monitorThreadPass obs visited).2 ++
        warning entry (getProcessRssMib found).2 → InPass l acts s

/-- The pass is done with an entry, of which the visit leaves what has been kept. -/
theorem InPass.visit {l visited todo : List MonitorEntry} {acts : List MonitorAction}
    {entry : MonitorEntry} (obs : ℤ → Observation) (o : Observation)
    (hl : (l.map MonitorEntry.pid).Nodup) (heq : l = visited ++ entry :: todo)
    (hpc : s.pc = .processExists) (htodo : s.todo = todo)
    (hkept : s.kept = (monitorThreadPass obs visited).1 ++ (monitorVisit entry o).1.toList)
    (hacts : s.actions =
      acts ++ ((monitorThreadPass obs visited).2 ++ (monitorVisit entry o).2)) :
    InPass l acts s := by
  have hnew : entry.pid ∉ visited.map MonitorEntry.pid := by
    rw [heq, List.map_append, List.map_cons] at hl
    exact fun hmem => (List.nodup_append.mp hl).2.2 _ hmem _ List.mem_cons_self rfl
  have hsnoc := Monitor.monitorThreadPass_snoc hnew obs o
  refine .next (visited ++ [entry]) (Function.update obs entry.pid o) (Or.inl hpc) ?_ ?_ ?_
  · rw [heq, htodo]
    simp
  · rw [hkept, hsnoc]
  · rw [hacts, hsnoc]

/-- Between two entries of a pass. -/
theorem InPass.of_ne_kill {l : List MonitorEntry} {acts : List MonitorAction} (hp : InPass l acts s)
    (hne : s.pc ≠ .kill) : ∃ visited obs, l = visited ++ s.todo ∧
      s.kept = (monitorThreadPass obs visited).1 ∧
        s.actions = acts ++ (monitorThreadPass obs visited).2 := by
  cases hp with
  | next visited obs _ hl hkept hacts => exact ⟨visited, obs, hl, hkept, hacts⟩
  | kill visited obs entry todo found hpc => exact absurd hpc hne

theorem InPass.ne_sleeping {l : List MonitorEntry} {acts : List MonitorAction}
    (hp : InPass l acts s) : s.pc ≠ .sleeping := by
  cases hp with
  | next visited obs hpc => rcases hpc with hpc | hpc <;> simp [hpc]
  | kill visited obs entry todo found hpc => simp [hpc]

/-- A pass under way goes on, or ends as one pass over its list. -/
theorem InPass.step {l : List MonitorEntry} {acts : List MonitorAction} (hp : InPass l acts s)
    (hl : (l.map MonitorEntry.pid).Nodup) (hs : Effect s e s') :
    InPass l acts s' ∨ s'.pc = .sleeping ∧ s'.todo = [] ∧
      ∃ obs, s'.kept = (monitorThreadPass obs l).1 ∧
        s'.actions = acts ++ (monitorThreadPass obs l).2 := by
  cases hs with
  | ioctl _ _ _ _ hpc | lock hpc => exact absurd hpc hp.ne_sleeping
  | present entry todo hpc htodo =>
    obtain ⟨visited, obs, heq, hkept, hacts⟩ := hp.of_ne_kill (by simp [hpc])
    exact Or.inl (.next visited obs (Or.inr rfl) heq hkept hacts)
  | stale entry todo hpc htodo =>
    obtain ⟨visited, obs, heq, hkept, hacts⟩ := hp.of_ne_kill (by simp [hpc])
    refine Or.inl (InPass.visit obs ⟨false, .noTask, false⟩ hl (htodo ▸ heq) rfl rfl ?_ ?_)
    · simp [delete, monitorVisit, hkept]
    · simp [delete, monitorVisit, hacts]
  | noRss entry todo found hpc htodo hfinds hret =>
    obtain ⟨visited, obs, heq, hkept, hacts⟩ := hp.of_ne_kill (by simp [hpc])
    refine Or.inl (InPass.visit obs ⟨true, found, false⟩ hl (htodo ▸ heq) rfl rfl ?_ ?_)
    · simp [delete, monitorVisit, hkept, hret]
    · simp [delete, monitorVisit, hacts, hret]
  | aboveHard entry todo found hpc htodo hfinds hret hover =>
    obtain ⟨visited, obs, heq, hkept, hacts⟩ := hp.of_ne_kill (by simp [hpc])
    refine Or.inl (.kill visited obs entry todo found rfl (htodo ▸ heq) hret hover rfl hkept ?_)
    simp [warn, hacts]
  | belowHard entry todo found hpc htodo hfinds hret hunder =>
    obtain ⟨visited, obs, heq, hkept, hacts⟩ := hp.of_ne_kill (by simp [hpc])
    refine Or.inl (InPass.visit obs ⟨true, found, false⟩ hl (htodo ▸ heq) rfl rfl ?_ ?_)
    · simp [advance, warn, monitorVisit_found false hret, hkept]
    · simp [advance, warn, monitorVisit_found false hret, hacts]
  | kill entry todo hpc htodo =>
    cases hp with
    | next _ _ hpc' => rcases hpc' with hpc' | hpc' <;> simp [hpc] at hpc'
    | kill visited obs entry' todo' found _ heq hret hover htodo' hkept hacts =>
      obtain ⟨rfl, rfl⟩ := List.cons.inj (htodo.symm.trans htodo')
      refine Or.inl (InPass.visit obs ⟨true, found, (s.holder entry'.pid).isSome⟩ hl heq rfl rfl
        ?_ ?_)
      · rw [monitorVisit_found _ hret]
        unfold killProcessByPid
        split <;> simp [advance, hkept]
      · rw [monitorVisit_found _ hret]
        unfold killProcessByPid
        split <;> simp_all [advance, warned]
  | unlock hpc htodo =>
    obtain ⟨visited, obs, heq, hkept, hacts⟩ := hp.of_ne_kill (by simp [hpc])
    rw [htodo, List.append_nil] at heq
    subst heq
    exact Or.inr ⟨rfl, htodo, obs, hkept, hacts⟩
  | spawn | exit | wait =>
    refine Or.inl ?_
    cases hp with
    | next visited obs hpc heq hkept hacts => exact .next visited obs hpc heq hkept hacts
    | kill visited obs entry todo found hpc heq hret hover htodo hkept hacts =>
      exact .kill visited obs entry todo found hpc heq hret hover htodo hkept hacts

/-- Outside a pass the list is one that the monitor can reach; a pass began with such a list. -/
def Refines (s : Kernel) : Prop :=
  s.pc = .sleeping ∧ s.todo = [] ∧ Monitor.Reachable s.kept ∨
    ∃ l acts, Monitor.Reachable l ∧ InPass l acts s

theorem Refines.step (hr : Refines s) (hs : Effect s e s') : Refines s' := by
  rcases hr with ⟨hpc, htodo, hl⟩ | ⟨l, acts, hl, hp⟩
  · cases hs with
    | ioctl cmd reqArg pidArg kmalloc =>
      exact Or.inl ⟨hpc, htodo, hl.tail (.ioctl cmd reqArg pidArg kmalloc) trivial rfl⟩
    | lock =>
      refine Or.inr ⟨s.kept, s.actions, hl, .next [] (fun _ => ⟨false, .noTask, false⟩)
        (Or.inl rfl) ?_ rfl ?_⟩
      · simp [list, htodo]
      · simp [monitorThreadPass]
    | spawn | exit | wait => exact Or.inl ⟨hpc, htodo, hl⟩
    | present _ _ hpc' | stale _ _ hpc' | noRss _ _ _ hpc' | aboveHard _ _ _ hpc'
    | belowHard _ _ _ hpc'
    | kill _ _ hpc' | unlock hpc' =>
      rw [hpc] at hpc'
      cases hpc'
  · rcases hp.step hl.wf.nodup hs with hp' | ⟨hpc, htodo, obs, hkept, -⟩
    · exact Or.inr ⟨l, acts, hl, hp'⟩
    · refine Or.inl ⟨hpc, htodo, ?_⟩
      rw [hkept]
      exact hl.tail (.pass obs) trivial rfl

theorem Refines.of_run {C : Kernel → KernelEvent → Prop}
    (hr : Transition.Run Kernel.step C init s) : Refines s :=
  hr.invariant (Or.inl ⟨rfl, rfl, .refl⟩) fun _ _ _ h _ hs => h.step (step_effect hs)

/-- Between two passes the list is one that ioctls and passes reach, each as one step. -/
theorem pass_refines {C : Kernel → KernelEvent → Prop} (hr : Transition.Run step C init s)
    (hpc : s.pc = .sleeping) : Monitor.Reachable s.list := by
  rcases Refines.of_run hr with ⟨-, htodo, hl⟩ | ⟨l, acts, -, hp⟩
  · rwa [list, htodo, List.append_nil]
  · exact absurd hpc hp.ne_sleeping

end Kernel

end Jackfruit
