import Jackfruit.Host

/-!
# What registering does to the monitor

A start registers the pid of its own child (`Carried`). In the map that the monitor's list stands
for, REGISTER writes the limits of one pid or nothing, UNREGISTER erases one pid, and a pass of
the monitor keeps the limits of a pid that it finds with its memory.
-/

set_option linter.unusedSectionVars false

namespace Jackfruit

/-- The pid that a start is about to register. -/
def Pc.carried : Pc → Option ℤ
  | .createProducer _ pid | .register _ pid => some pid
  | _ => none

namespace Engine

variable {s s' : Engine} {e : Event} {h : ℕ} {pid : ℤ}

/-- The pid that a start registers is the one of its child. -/
def Carried (s : Engine) : Prop :=
  ∀ h pid, (s.handler h).pc.carried = some pid → ∃ c, s.child h = some c ∧ c.pid = pid

theorem carried_of_reserved {pc : Pc} {i : Slot} (hi : pc.reserved = some i) :
    pc.carried = none := by
  cases pc with
  | createProducer | register => cases hi
  | _ => rfl

theorem HandlerMove.carried {hd hd' : Handler} (hm : HandlerMove hd hd') :
    hd'.pc.carried = none := by
  cases hm with
  | syscall pc hpc =>
    obtain ⟨i, hi⟩ := hpc.exists_reserved
    exact carried_of_reserved hi
  | _ => rfl

theorem HandlerStep.carried {hd : Handler} (hs : HandlerStep s e h hd)
    (hp : hd.pc.carried = some pid) :
    (s.handler h).pc.carried = some pid ∨ ∃ idx, (s.handler h).pc = .publish idx pid := by
  cases hs with
  | same => exact Or.inl hp
  | move hd hm =>
    rw [hm.carried] at hp
    cases hp
  | recv req =>
    simp only [dispatch] at hp
    split_ifs at hp <;> cases hp
  | publish idx p hpc =>
    obtain rfl := Option.some.inj hp
    exact Or.inr ⟨idx, hpc⟩
  | createProducer idx p hpc =>
    rw [hpc]
    exact Or.inl hp
  | register idx p resp =>
    simp only at hp
    split_ifs at hp <;> cases hp
  | _ => cases hp

theorem Carried.of_run {C : Engine → Event → Prop} (hr : Transition.Run Engine.step C init s) :
    Carried s := by
  refine hr.invariant_of_reached (fun h pid hp => by cases hp) ?_
  intro t e u ht ca _ hs h pid hp
  have w := Wf.of_run ht
  have heff := step_effect hs
  obtain ⟨c, hc, hcp⟩ : ∃ c, t.child h = some c ∧ c.pid = pid := by
    rcases (step_handler heff h).carried hp with hp₀ | ⟨idx, hpc⟩
    · exact ca h pid hp₀
    · exact w.inFlight h pid (by rw [hpc]; rfl)
  obtain ⟨c', hc', hp', -⟩ := w.child_step heff hc
  exact ⟨c', hc', hp'.trans hcp⟩

/-- A child that is alive after a step is new, or was there and alive before. -/
theorem ChildStep.alive {c : Child} (hs : ChildStep s e h (some c)) (hc : c.life = .alive) :
    s.child h = some c ∨ ∃ i, (s.handler h).pc = .clone i := by
  generalize ho : some c = o at hs
  cases hs with
  | same => exact Or.inl rfl
  | clone i pid he hpc => exact Or.inr ⟨i, hpc⟩
  | exit | waitpid | reap =>
    obtain rfl := Option.some.inj ho
    cases hc

end Engine

namespace Monitor

variable {l : List MonitorEntry} {req : MonitorRequest} {kmalloc : Bool} {pid q : ℤ}

/-- REGISTER of a request. -/
abbrev register (req : MonitorRequest) (kmalloc : Bool) (l : List MonitorEntry) :
    ℤ × List MonitorEntry :=
  monitorIoctl REGISTER_CONTAINER (some req) none kmalloc l

/-- UNREGISTER of a pid. -/
abbrev unregister (pid : ℤ) (l : List MonitorEntry) : ℤ × List MonitorEntry :=
  monitorIoctl UNREGISTER_CONTAINER none (some pid) false l

theorem register_fails (h0 : (register req kmalloc l).1 ≠ 0) : (register req kmalloc l).2 = l :=
  ((registerContainer_refines req kmalloc rfl).1 h0).2

theorem limits_register (h0 : (register req kmalloc l).1 = 0) :
    limits (register req kmalloc l).2 =
      (limits l).insert req.pid ⟨req.softLimit, req.hardLimit, false⟩ :=
  ((registerContainer_refines req kmalloc rfl).2 h0).1

/-- With memory to allocate, REGISTER fails only for a bad pid or a hard limit of `0`. -/
theorem register_succeeds (hpid : 0 < req.pid) (hhard : req.hardLimit ≠ 0) :
    (register req true l).1 = 0 := by
  change (registerContainer req true l).1 = 0
  rw [registerContainer, if_neg (not_le.mpr hpid), if_neg hhard, if_pos rfl]
  split_ifs <;> rfl

/-- REGISTER of a pid that is not listed fails without memory or with a hard limit of `0`. -/
theorem register_refused (hnone : (limits l).lookup req.pid = none)
    (href : kmalloc = false ∨ req.hardLimit = 0) : (register req kmalloc l).1 ≠ 0 := by
  rw [Finmap.lookup_eq_none, limits, KeyedList.mem_toMap] at hnone
  change (registerContainer req kmalloc l).1 ≠ 0
  unfold registerContainer
  split_ifs with hpid hhard hfind hk
  · exact (by decide : -EINVAL ≠ 0)
  · exact (by decide : -EINVAL ≠ 0)
  · exact absurd (isSome_findEntryLocked.mp hfind) hnone
  · simp [hk, hhard] at href
  · exact (by decide : -ENOMEM ≠ 0)

theorem lookup_register_of_ne (hne : q ≠ req.pid) :
    (limits (register req kmalloc l).2).lookup q = (limits l).lookup q := by
  by_cases h0 : (register req kmalloc l).1 = 0
  · rw [limits_register h0, Finmap.lookup_insert_of_ne _ hne]
  · rw [register_fails h0]

theorem lookup_unregister (hl : Wf l) (pid q : ℤ) :
    (limits (unregister pid l).2).lookup q = if q = pid then none else (limits l).lookup q := by
  have href : IoctlRefines UNREGISTER_CONTAINER none (some pid) l (unregister pid l).1
      (unregister pid l).2 := monitorIoctl_refines hl _ _ _ false rfl
  obtain ⟨hfail, -, -, hunreg⟩ := href
  obtain ⟨hmem, hok⟩ := hunreg pid rfl rfl
  by_cases h0 : (unregister pid l).1 = 0
  · rw [(hok h0).1]
    split_ifs with hq
    · rw [hq, Finmap.lookup_erase]
    · rw [Finmap.lookup_erase_ne hq]
  · rw [(hfail h0).2]
    split_ifs with hq
    · rw [hq, Finmap.lookup_eq_none]
      exact mt hmem.mpr h0
    · rfl

/-- What a visit leaves of the limits of a process that it finds. -/
theorem visitLimits_found {obs : Observation} (htask : obs.hasTask = true)
    (hrss : (getProcessRssMib obs.rss).1 = 0) (lim : Limits) :
    ∃ warned, visitLimits obs lim = some { lim with softWarned := warned } := by
  unfold visitLimits
  rw [if_neg (by simp [htask])]
  cases hobs : obs.rss with
  | pages rss => exact ⟨_, rfl⟩
  | noTask | noMm => simp [hobs, getProcessRssMib, ESRCH] at hrss

/-- A visit that does not find the process, or not its memory, leaves nothing. -/
theorem visitLimits_missed {obs : Observation}
    (h : ¬(obs.hasTask = true ∧ (getProcessRssMib obs.rss).1 = 0)) (lim : Limits) :
    visitLimits obs lim = none := by
  unfold visitLimits
  cases htask : obs.hasTask with
  | false => rfl
  | true =>
    cases hobs : obs.rss with
    | pages rss => simp [htask, hobs, getProcessRssMib] at h
    | noTask | noMm => rfl

/-- No entry has a pid that is not in the map. -/
theorem not_listed_of_lookup (h : (limits l).lookup pid = none) : ∀ entry ∈ l, entry.pid ≠ pid := by
  rw [Finmap.lookup_eq_none, limits, KeyedList.mem_toMap] at h
  exact fun entry hmem heq => h (List.mem_map.mpr ⟨entry, hmem, heq⟩)

end Monitor

/-- An ioctl that reaches the monitor. -/
def HostEvent.reaches : HostEvent → Bool
  | .register _ reach _ | .unregister reach => reach
  | _ => false

/-- A pass that looks at the pid finds the process, and its memory. -/
def HostEvent.Finds (pid : ℤ) : HostEvent → Prop
  | .pass obs => (obs pid).hasTask = true ∧ (getProcessRssMib (obs pid).rss).1 = 0
  | _ => True

instance (pid : ℤ) (e : HostEvent) : Decidable (e.Finds pid) := by
  rcases e <;> dsimp only [HostEvent.Finds] <;> infer_instance

namespace Host

variable {s s' : Host} {e : HostEvent}

/-- What REGISTER is given by the start of `h`. -/
abbrev request (s : Host) (h : ℕ) (pid : ℤ) : MonitorRequest :=
  registerRequest pid (s.engine.req h).softMib (s.engine.req h).hardMib

/-- Everything that an event can do to the monitor. -/
inductive MonitorStep (s : Host) (e : HostEvent) : List MonitorEntry → Prop
  | same : e.reaches = false → MonitorStep s e s.monitor
  | register (h : ℕ) (kmalloc : Bool) (idx : Slot) (pid : ℤ) : e = .register h true kmalloc →
      (s.engine.handler h).pc = .register idx pid →
      MonitorStep s e (Monitor.register (s.request h pid) kmalloc s.monitor).2
  | unregister (pid : ℤ) : e = .unregister true → s.unregister = some pid →
      MonitorStep s e (Monitor.unregister pid s.monitor).2
  | pass (obs : ℤ → Observation) : e = .pass obs →
      MonitorStep s e (monitorThreadPass obs s.monitor).1

/-- Everything a step does to the monitor. -/
theorem step_monitor (hs : Effect s e s') : MonitorStep s e s'.monitor := by
  cases hs with
  | register h reach kmalloc idx pid engine hpc =>
    cases reach with
    | false => exact .same rfl
    | true => exact .register h kmalloc idx pid rfl hpc
  | unregister reach pid hpid =>
    cases reach with
    | false => exact .same rfl
    | true => exact .unregister pid rfl hpid
  | pass obs => exact .pass obs rfl
  | engine | sweepKill | spawn | die => exact .same rfl

/-- A start registers the pid. -/
def Reregisters (pid : ℤ) (s : Host) : HostEvent → Prop
  | .register g true kmalloc => (s.engine.handler g).pc.carried = some pid ∧
      (Monitor.register (s.request g pid) kmalloc s.monitor).1 = 0
  | _ => False

instance (pid : ℤ) (s : Host) (e : HostEvent) : Decidable (Reregisters pid s e) := by
  rcases e <;> (try casesm* Bool) <;> dsimp only [Reregisters] <;> infer_instance

/-- A step that leaves the pid to its first registration : no start registers it again, and a pass
finds it. -/
def Undisturbed (pid : ℤ) (s : Host) (e : HostEvent) : Prop :=
  ¬Reregisters pid s e ∧ e.Finds pid

instance (pid : ℤ) (s : Host) (e : HostEvent) : Decidable (Undisturbed pid s e) :=
  inferInstanceAs (Decidable (_ ∧ _))

end Host

end Jackfruit
