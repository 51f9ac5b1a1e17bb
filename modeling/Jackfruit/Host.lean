import Jackfruit.Monitor
import Jackfruit.Stopping

/-!
# The supervisor on its host

The supervisor's threads together with the kernel's monitor and with all other processes, which
take pids too. Three calls are steps of their own here : the signals that the pass of
`stop_all_live_containers` sends one after the other, the ioctl of
`register_container_with_kernel`, and the one of `unregister_container_from_kernel`. The first and
the last are made with `containers_mutex` held, so meanwhile no other section runs.

An ioctl reaches the monitor unless the device cannot be opened, and what it does there is
`monitorIoctl`. What a pass of the monitor finds out about a pid is arbitrary : also a child that is
alive may have no memory left to look at, when its main thread has exited and another one goes on.

`stopping` are the handlers that have been at the section of `stop_container_by_id`. No step reads
it.
-/

set_option linter.unusedSectionVars false

namespace Jackfruit

/-- The supervisor and its host. -/
structure Host where
  engine : Engine
  /-- The pids of processes that are not children of the supervisor. -/
  others : List ℤ
  /-- The signals that `stop_all_live_containers` still has to send. -/
  sweep : List SigTerm
  monitor : List MonitorEntry
  /-- The pid that the reaper is about to UNREGISTER. -/
  unregister : Option ℤ
  stopping : List ℕ

/-- What happens next. -/
inductive HostEvent
  /-- A step of the supervisor that is none of the following. -/
  | engine (e : Event)
  /-- The next `kill` of `stop_all_live_containers`. -/
  | sweepKill
  /-- `register_container_with_kernel`, and the rest of `start_container_internal`. -/
  | register (h : ℕ) (reach kmalloc : Bool)
  /-- `unregister_container_from_kernel`. -/
  | unregister (reach : Bool)
  /-- A pass of `monitor_thread_fn`. -/
  | pass (obs : ℤ → Observation)
  /-- Another process begins. -/
  | spawn (pid : ℤ)
  /-- Another process ends and has been waited for. -/
  | die (pid : ℤ)

/-- The step of the supervisor in an event. -/
def HostEvent.inner : HostEvent → Option Event
  | .engine e => some e
  | .register h _ _ => some (.register h)
  | _ => none

/-- The pid that a new child gets. -/
def Event.newPid : Event → Option ℤ
  | .clone _ (.ok pid) => some pid
  | _ => none

/-- The pid that a new process gets. -/
def HostEvent.newPid : HostEvent → Option ℤ
  | .engine e => e.newPid
  | .spawn pid => some pid
  | _ => none

theorem HostEvent.newPid_of_inner {e : HostEvent} {e' : Event} (hin : e.inner = some e') :
    e.newPid = e'.newPid := by
  cases e with
  | engine e =>
    obtain rfl := Option.some.inj hin
    rfl
  | register h reach kmalloc =>
    obtain rfl := Option.some.inj hin
    rfl
  | _ => cases hin

/-- The request that `register_container_with_kernel` hands to the ioctl. -/
def registerRequest (pid softMib hardMib : ℤ) : MonitorRequest :=
  ⟨pid, UInt64.ofInt softMib, UInt64.ofInt hardMib⟩

theorem Engine.pidFree_of_clone {s s' : Engine} {h : ℕ} {pid : ℤ}
    (hs : s.step (.clone h (.ok pid)) = some s') : s.PidFree pid := by
  replace hs := (Engine.step_next hs).2
  simp only [Engine.next, Engine.startStep] at hs
  split at hs
  · cases ‹Except.ok pid = Except.error _›
  · rename_i heq
    obtain rfl := Except.ok.inj heq
    exact (Option.ite_none_right_eq_some.mp hs).1
  · cases hs

namespace Host

/-- `run_supervisor` at its accept loop, with an empty monitor. -/
def init (others : List ℤ) : Host where
  engine := Engine.init
  others := others
  sweep := []
  monitor := []
  unregister := none
  stopping := []

variable (s : Host)

/-- The main thread or the reaper holds `containers_mutex` over a call. -/
def Locked : Prop :=
  s.sweep ≠ [] ∨ s.unregister ≠ none

instance : Decidable s.Locked :=
  inferInstanceAs (Decidable (_ ∨ _))

/-- The thread of the event has to wait, or is at a call that is an event of its own. -/
def Blocked : Event → Prop
  | .reserve _ _ | .publish _ | .rollback _ | .runEnter _ | .stopEnter _ | .read _ _ | .stopAll
  | .reap => s.Locked
  | .logShutdown => s.sweep ≠ []
  | .waitpid _ | .reaperExit => s.unregister ≠ none
  | .clone _ (.ok pid) => pid ∈ s.others
  | .register _ => True
  | _ => False

instance (e : Event) : Decidable (s.Blocked e) := by
  rcases e <;> (try casesm* Except _ _) <;> dsimp only [Blocked] <;> infer_instance

/-- The pid of the child in the reaper's hands, if a slot records it. -/
def found : Option ℤ :=
  match s.engine.reaper with
  | .holding h => (s.engine.child h).bind fun c =>
    (findContainerByPid s.engine.table c.pid).map fun _ => c.pid
  | _ => none

/-- The state after a step of the supervisor. -/
def moved (e : Event) (engine : Engine) : Host :=
  { s with
    engine := engine
    sweep := match e with
      | .stopAll => (liveSlots s.engine.table).map fun i => ⟨i, (s.engine.table i).pid⟩
      | _ => s.sweep
    unregister := match e with
      | .reap => s.found
      | _ => s.unregister
    stopping := match e with
      | .stopEnter h => h :: s.stopping
      | _ => s.stopping }

/-- The state after REGISTER has reached the monitor for `pid`. -/
def registered (h : ℕ) (kmalloc : Bool) (pid : ℤ) : Host :=
  { s with
    monitor := (monitorIoctl REGISTER_CONTAINER
      (some (registerRequest pid (s.engine.req h).softMib (s.engine.req h).hardMib)) none kmalloc
      s.monitor).2 }

/-- The state after UNREGISTER has reached the monitor for `pid`. -/
def unregistered (pid : ℤ) : Host :=
  { s with monitor := (monitorIoctl UNREGISTER_CONTAINER none (some pid) false s.monitor).2 }

/-- One step. -/
def step (s : Host) : HostEvent → Option Host
  | .engine e => if s.Blocked e then none else (s.engine.step e).map (s.moved e)
  | .sweepKill =>
    match s.sweep with
    | [] => none
    | _ :: sweep => some { s with sweep := sweep }
  | .register h reach kmalloc =>
    match (s.engine.handler h).pc with
    | .register _ pid => (s.engine.step (.register h)).map fun engine =>
      { (if reach then s.registered h kmalloc pid else s) with engine := engine }
    | _ => none
  | .unregister reach =>
    match s.unregister with
    | some pid => some { (if reach then s.unregistered pid else s) with unregister := none }
    | none => none
  | .pass obs => some { s with monitor := (monitorThreadPass obs s.monitor).1 }
  | .spawn pid =>
    if s.engine.PidFree pid ∧ pid ∉ s.others then some { s with others := pid :: s.others }
    else none
  | .die pid => if pid ∈ s.others then some { s with others := s.others.erase pid } else none

/-- Everything that an event can do. -/
inductive Effect (s : Host) : HostEvent → Host → Prop
  | engine (e : Event) (engine : Engine) : ¬s.Blocked e → s.engine.step e = some engine →
      Effect s (.engine e) (s.moved e engine)
  | sweepKill (k : SigTerm) (sweep : List SigTerm) : s.sweep = k :: sweep →
      Effect s .sweepKill { s with sweep := sweep }
  | register (h : ℕ) (reach kmalloc : Bool) (idx : Slot) (pid : ℤ) (engine : Engine) :
      (s.engine.handler h).pc = .register idx pid → s.engine.step (.register h) = some engine →
      Effect s (.register h reach kmalloc)
        { (if reach then s.registered h kmalloc pid else s) with engine := engine }
  | unregister (reach : Bool) (pid : ℤ) : s.unregister = some pid →
      Effect s (.unregister reach)
        { (if reach then s.unregistered pid else s) with unregister := none }
  | pass (obs : ℤ → Observation) :
      Effect s (.pass obs) { s with monitor := (monitorThreadPass obs s.monitor).1 }
  | spawn (pid : ℤ) : s.engine.PidFree pid → Effect s (.spawn pid)
      { s with others := pid :: s.others }
  | die (pid : ℤ) : Effect s (.die pid) { s with others := s.others.erase pid }

variable {s} {s' : Host} {e : HostEvent}

theorem step_effect (hs : step s e = some s') : Effect s e s' := by
  cases e with
  | engine e =>
    simp only [step] at hs
    split_ifs at hs with hb
    obtain ⟨engine, he, rfl⟩ := Option.map_eq_some_iff.mp hs
    exact .engine e engine hb he
  | sweepKill =>
    simp only [step] at hs
    split at hs
    · cases hs
    · rename_i k sweep hsweep
      cases hs
      exact .sweepKill k sweep hsweep
  | register h reach kmalloc =>
    simp only [step] at hs
    split at hs
    · rename_i idx pid hpc
      obtain ⟨engine, he, rfl⟩ := Option.map_eq_some_iff.mp hs
      exact .register h reach kmalloc idx pid engine hpc he
    · cases hs
  | unregister reach =>
    simp only [step] at hs
    split at hs
    · rename_i pid hpid
      cases hs
      exact .unregister reach pid hpid
    · cases hs
  | pass obs =>
    cases hs
    exact .pass obs
  | spawn pid =>
    simp only [step] at hs
    split_ifs at hs with hfree
    cases hs
    exact .spawn pid hfree.1
  | die pid =>
    simp only [step] at hs
    split_ifs at hs
    cases hs
    exact .die pid

/-! ## The parts run by their own rules -/

/-- What a step does to the supervisor. -/
theorem Effect.engine_step (hs : Effect s e s') :
    s'.engine = s.engine ∨ ∃ e', e.inner = some e' ∧ s.engine.step e' = some s'.engine := by
  cases hs with
  | engine e engine hb he => exact Or.inr ⟨e, rfl, he⟩
  | register h reach kmalloc idx pid engine hpc he => exact Or.inr ⟨_, rfl, he⟩
  | unregister reach pid => exact Or.inl (by cases reach <;> rfl)
  | sweepKill | pass | spawn | die => exact Or.inl rfl

/-- The supervisor runs by its own rules, under every condition that its events meet. -/
theorem engine_run_of {C : Host → HostEvent → Prop} {D : Engine → Event → Prop} {others : List ℤ}
    (hr : Transition.Run step C (init others) s)
    (hD : ∀ t e e', C t e → e.inner = some e' → D t.engine e') :
    Transition.Run Engine.step D Engine.init s.engine := by
  refine hr.map Host.engine fun t e u _ hc hs => ?_
  rcases (step_effect hs).engine_step with heq | ⟨e', hin, he⟩
  · exact Or.inl heq
  · exact Or.inr ⟨e', hD t e e' hc hin, he⟩

theorem engine_run {C : Host → HostEvent → Prop} {others : List ℤ}
    (hr : Transition.Run step C (init others) s) : s.engine.Reachable :=
  engine_run_of hr fun _ _ _ _ _ => trivial

/-- A settled slot stays with its owner and keeps what it records. -/
theorem Effect.settled_step {i : Slot} {h : ℕ} (hs : Effect s e s') (w : s.engine.Wf)
    (hi : s.engine.Settled i h) :
    s'.engine.Settled i h ∧ Engine.Kept (s.engine.table i) (s'.engine.table i) := by
  rcases hs.engine_step with heq | ⟨e', -, he⟩
  · rw [heq]
    exact ⟨hi, .refl _⟩
  · exact w.settled_step (Engine.step_effect he) hi

/-- What a step does to the monitor. -/
theorem Effect.monitor_step (hs : Effect s e s') :
    s'.monitor = s.monitor ∨ ∃ e', Monitor.step s.monitor e' = some s'.monitor := by
  cases hs with
  | register h reach kmalloc idx pid engine hpc he =>
    cases reach with
    | false => exact Or.inl rfl
    | true => exact Or.inr ⟨.ioctl _ _ _ _, rfl⟩
  | unregister reach pid =>
    cases reach with
    | false => exact Or.inl rfl
    | true => exact Or.inr ⟨.ioctl _ _ _ _, rfl⟩
  | pass obs => exact Or.inr ⟨.pass obs, rfl⟩
  | engine | sweepKill | spawn | die => exact Or.inl rfl

theorem monitor_run {C : Host → HostEvent → Prop} {others : List ℤ}
    (hr : Transition.Run step C (init others) s) : Monitor.Reachable s.monitor := by
  refine hr.map Host.monitor fun t e u _ _ hs => ?_
  rcases (step_effect hs).monitor_step with heq | ⟨e', he⟩
  · exact Or.inl heq
  · exact Or.inr ⟨e', trivial, he⟩

/-! ## Who holds a pid -/

variable {g h : ℕ} {pid : ℤ}

/-- A new process gets a positive pid that no child still has. -/
theorem Effect.pidFree (hs : Effect s e s') (hnew : e.newPid = some pid) :
    s.engine.PidFree pid := by
  cases hs with
  | engine e engine hb he =>
    cases e with
    | clone h res =>
      cases res with
      | ok p =>
        obtain rfl := Option.some.inj hnew
        exact Engine.pidFree_of_clone he
      | error text => cases hnew
    | _ => cases hnew
  | spawn p hfree =>
    obtain rfl := Option.some.inj hnew
    exact hfree
  | _ => cases hnew

/-- Nobody but the child of `h` holds the pid. -/
def HeldOnlyBy (s : Host) (pid : ℤ) (h : ℕ) : Prop :=
  (∀ g c, s.engine.child g = some c → c.Unreaped → c.pid = pid → g = h) ∧ pid ∉ s.others

/-- A pid stays so until a new process gets it. -/
theorem HeldOnlyBy.step (ho : s.HeldOnlyBy pid h) (hs : Effect s e s')
    (hne : e.newPid ≠ some pid) : s'.HeldOnlyBy pid h := by
  refine ⟨fun g c hc hun hp => ?_, ?_⟩
  · rcases hs.engine_step with heq | ⟨e', hin, he⟩
    · exact ho.1 g c (heq ▸ hc) hun hp
    · have hstep := Engine.step_child (Engine.step_effect he) g
      rw [hc] at hstep
      rcases hstep.unreaped hun with rfl | ⟨c₀, hc₀, hun₀, hp₀⟩
      · exact absurd ((HostEvent.newPid_of_inner hin).trans (hp ▸ rfl)) hne
      · exact ho.1 g c₀ hc₀ hun₀ (hp₀.symm.trans hp)
  · cases hs with
    | spawn p hfree =>
      refine fun hmem => ?_
      rcases List.mem_cons.mp hmem with rfl | hmem
      · exact hne rfl
      · exact ho.2 hmem
    | die p => exact fun hmem => ho.2 (List.mem_of_mem_erase hmem)
    | register h reach kmalloc | unregister reach => cases reach <;> exact ho.2
    | engine | sweepKill | pass => exact ho.2

/-- A new child's pid is held by nobody else. -/
theorem heldOnlyBy_of_clone (hs : Effect s e s') (hin : e.inner = some (.clone h (.ok pid)))
    (hcloned : ∀ g c, s.engine.child g = some c → g ∈ s.engine.cloned)
    (he : s.engine.step (.clone h (.ok pid)) = some s'.engine) : s'.HeldOnlyBy pid h := by
  have hfree := Engine.pidFree_of_clone he
  refine ⟨fun g c hc hun hp => ?_, ?_⟩
  · have hstep := Engine.step_child (Engine.step_effect he) g
    rw [hc] at hstep
    rcases hstep.unreaped hun with heq | ⟨c₀, hc₀, hun₀, hp₀⟩
    · exact (Event.clone.inj heq).1.symm
    · exact absurd (hp₀.symm.trans hp) (hfree.2 g (hcloned g c₀ hc₀) c₀ hc₀ hun₀)
  · cases hs with
    | engine e engine hb he =>
      obtain rfl := Option.some.inj hin
      exact hb
    | _ => cases hin

/-- Until a child has been waited for, nobody else holds its pid. -/
theorem heldOnlyBy_of_run {C : Host → HostEvent → Prop} {others : List ℤ} {c : Child}
    (hr : Transition.Run step C (init others) s) (hc : s.engine.child h = some c)
    (hun : c.Unreaped) : s.HeldOnlyBy c.pid h := by
  revert h c
  refine hr.invariant_of_reached (I := fun t => ∀ {h c}, t.engine.child h = some c →
    c.Unreaped → t.HeldOnlyBy c.pid h) (fun hc => by simp [init, Engine.init] at hc) ?_
  intro t e u ht ih _ hs h c hc hun
  have heff := step_effect hs
  have hcloned (g : ℕ) (c : Child) : t.engine.child g = some c → g ∈ t.engine.cloned :=
    Engine.cloned_of_child (engine_run ht)
  -- A pid that is still held goes to no new process.
  have hold {c₀ : Child} (hc₀ : t.engine.child h = some c₀) (hun₀ : c₀.Unreaped) :
      u.HeldOnlyBy c₀.pid h :=
    (ih hc₀ hun₀).step heff fun hnew => (heff.pidFree hnew).2 h (hcloned h c₀ hc₀) c₀ hc₀ hun₀ rfl
  rcases heff.engine_step with heq | ⟨e', hin, he⟩
  · exact hold (heq ▸ hc) hun
  · have hstep := Engine.step_child (Engine.step_effect he) h
    rw [hc] at hstep
    rcases hstep.unreaped hun with rfl | ⟨c₀, hc₀, hun₀, hp⟩
    · exact heldOnlyBy_of_clone heff hin hcloned he
    · rw [hp]
      exact hold hc₀ hun₀

/-- A start request in which every call succeeds, up to its REGISTER. -/
def playPublished (h : ℕ) (id : String) (pid : ℤ) : List HostEvent :=
  (Engine.playClone h REQ_START id pid ++ [Event.mallocArg h true, .publish h,
    .createProducer h true]).map .engine

/-- A stop request that has its target. -/
def playStopEnter (h : ℕ) (id : String) : List HostEvent :=
  [Event.loopTest, .accept h, .recv h ⟨REQ_STOP, cstr id, [], [], 40, 64, 0⟩,
    .stopEnter h].map .engine

/-- The child of `h` exits, and the reaper waits for it. -/
def playExit (h : ℕ) : List HostEvent :=
  [Event.exit h 0, .waitpid h].map .engine

end Host

end Jackfruit
