import Jackfruit.Host
import Jackfruit.Reaping

/-!
# Whom a stop signal hits

`stop_container_by_id` and `stop_all_live_containers` take a pid from a live slot and signal it
later. A pid is free again when the reaper has waited for its child : from then until the reaper
has updated the table, and until a stop that has read the pid has made its `kill`, a new process
with this pid is hit (`stop_hits_stranger`). As long as the kernel gives no new process a pid that
a live slot records, that a start has not published yet or that a stop is about to signal, whoever
holds the pid of a signal is the child of the slot.
-/

set_option linter.unusedSectionVars false

namespace Jackfruit

/-- The pid that a stop request is about to signal. -/
def Pc.target : Pc → Option ℤ
  | .stopKill _ pid => some pid
  | _ => none

/-- A start has a pid in flight that it had before, or has just got from `clone`. -/
theorem Engine.Wf.inFlight_step {s s' : Engine} {e : Event} {h : ℕ} {pid : ℤ} (w : s.Wf)
    (hs : Engine.Effect s e s') (hp : (s'.handler h).pc.inFlight = some pid) :
    (s.handler h).pc.inFlight = some pid ∨ e = .clone h (.ok pid) := by
  have key {g : ℕ} {hd : Handler} (hnone : hd.pc.inFlight = none)
      (hu : (Function.update s.handler g hd h).pc.inFlight = some pid) :
      (s.handler h).pc.inFlight = some pid := by
    rcases eq_or_ne h g with rfl | hgh
    · rw [Function.update_self, hnone] at hu
      cases hu
    · rwa [Function.update_of_ne hgh] at hu
  rcases w.frame hs with hf | ⟨g, now, j, -, -, -, rfl⟩ | ⟨g, j, p, rfl, -, -, rfl⟩ |
    ⟨g, j, text, -, -, rfl⟩ | ⟨g, j, p, -, -, rfl⟩
  · exact Or.inl ((hf.pc h).inFlight pid hp)
  · exact Or.inl (key rfl hp)
  · rcases eq_or_ne h g with rfl | hgh
    · obtain rfl : p = pid := by simpa [forked, setPc, setHandler, Pc.inFlight] using hp
      exact Or.inr rfl
    · refine Or.inl ?_
      simpa [forked, setPc, setHandler, setChild, hgh] using hp
  · exact Or.inl (key rfl hp)
  · exact Or.inl (key rfl hp)

namespace Host

variable {s s' : Host} {e : HostEvent} {i : Slot} {g h : ℕ} {pid : ℤ}

/-- No live slot, no start in flight and no signal to be sent has this pid. -/
def Unused (s : Host) (pid : ℤ) : Prop :=
  (∀ i, (s.engine.table i).Live → (s.engine.table i).pid ≠ pid) ∧
    (∀ h ∈ s.engine.cloned, (s.engine.handler h).pc.inFlight ≠ some pid) ∧
    (∀ h ∈ s.stopping, (s.engine.handler h).pc.target ≠ some pid) ∧
    ∀ k ∈ s.sweep, k.pid ≠ pid

instance (s : Host) (pid : ℤ) : Decidable (s.Unused pid) :=
  inferInstanceAs (Decidable (_ ∧ _))

/-- A new process gets a pid that the supervisor does not use. -/
def NewPidUnused (s : Host) (e : HostEvent) : Prop :=
  ∀ pid ∈ e.newPid, s.Unused pid

instance (s : Host) (e : HostEvent) : Decidable (s.NewPidUnused e) :=
  inferInstanceAs (Decidable (∀ pid ∈ e.newPid, s.Unused pid))

/-- The pid is not positive, or it is recorded in the slot that belongs to the only child that can
hold it. -/
def Aimed (s : Host) (i : Slot) (pid : ℤ) : Prop :=
  0 < pid → ∃ h, s.engine.Settled i h ∧ (s.engine.table i).pid = pid ∧ s.HeldOnlyBy pid h

theorem Aimed.step (ha : s.Aimed i pid) (w : s.engine.Wf) (hs : Effect s e s')
    (hne : e.newPid ≠ some pid) : s'.Aimed i pid := by
  intro hpos
  obtain ⟨h, hset, hp, hheld⟩ := ha hpos
  obtain ⟨hset', hkept⟩ := hs.settled_step w hset
  exact ⟨h, hset', hkept.pid.trans hp, hheld.step hs hne⟩

/-- The pids that the supervisor uses are held by its children only. -/
structure Guarded (s : Host) : Prop where
  live : ∀ i h, s.engine.Settled i h → isLiveState (s.engine.table i).state = true →
    s.HeldOnlyBy (s.engine.table i).pid h
  inFlight : ∀ h pid, (s.engine.handler h).pc.inFlight = some pid → s.HeldOnlyBy pid h
  target : ∀ g i pid, (s.engine.handler g).pc = .stopKill i pid → s.Aimed i pid
  sweep : ∀ k ∈ s.sweep, s.Aimed k.slot k.pid

/-- The pid of a live slot can be signalled. -/
theorem Guarded.aimed (d : Guarded s) (w : s.engine.Wf) (hi : (s.engine.table i).Live) :
    s.Aimed i (s.engine.table i).pid := by
  intro hpos
  obtain ⟨h, ho⟩ := (w.used_iff i).mp hi.1
  have hset : s.engine.Settled i h := ⟨ho, w.state_ne_starting hi.1 hpos⟩
  exact ⟨h, hset, rfl, d.live i h hset hi.2⟩

/-- A pid that the supervisor uses goes to no new process. -/
theorem NewPidUnused.ne (hc : s.NewPidUnused e) (hu : ¬s.Unused pid) : e.newPid ≠ some pid :=
  fun heq => hu (hc pid heq)

/-- The handlers that are about to signal are listed. -/
def StoppingListed (s : Host) : Prop :=
  ∀ g i pid, (s.engine.handler g).pc = .stopKill i pid → g ∈ s.stopping

theorem StoppingListed.step (l : StoppingListed s) (hs : Effect s e s') : StoppingListed s' := by
  intro g i pid hpc
  have hkept (hmem : g ∈ s.stopping) : g ∈ s'.stopping := by
    cases hs with
    | engine e engine hb he =>
      dsimp only [moved]
      split
      · exact List.mem_cons_of_mem _ hmem
      · exact hmem
    | register h reach kmalloc | unregister reach => cases reach <;> exact hmem
    | sweepKill | pass | spawn | die => exact hmem
  rcases hs.engine_step with heq | ⟨e', hin, he⟩
  · exact hkept (l g i pid (heq ▸ hpc))
  · rcases Engine.step_stopKill (Engine.step_effect he) hpc with hpc₀ | ⟨rfl, -⟩
    · exact hkept (l g i pid hpc₀)
    · cases hs with
      | engine e engine hb he =>
        obtain rfl := Option.some.inj hin
        exact List.mem_cons_self
      | _ => cases hin

theorem StoppingListed.of_run {C : Host → HostEvent → Prop} {others : List ℤ}
    (hr : Transition.Run Host.step C (init others) s) : StoppingListed s := by
  refine hr.invariant (fun g i pid hpc => ?_) fun _ _ _ l _ hs => l.step (step_effect hs)
  simp [init, Engine.init, Handler.init] at hpc

theorem Guarded.live_step (d : Guarded s) (w : s.engine.Wf) (hs : Effect s e s')
    (hc : s.NewPidUnused e) (hi : s'.engine.Settled i h)
    (hlive : isLiveState (s'.engine.table i).state = true) :
    s'.HeldOnlyBy (s'.engine.table i).pid h := by
  have hold (hi : s.engine.Settled i h) (hlive : isLiveState (s.engine.table i).state = true) :
      s'.HeldOnlyBy (s.engine.table i).pid h := by
    refine (d.live i h hi hlive).step hs (hc.ne fun hu => ?_)
    exact hu.1 i ⟨w.used_of_settled hi, hlive⟩ rfl
  rcases hs.engine_step with heq | ⟨e', hin, he⟩
  · rw [heq] at hi hlive ⊢
    exact hold hi hlive
  · have heff := Engine.step_effect he
    rcases w.settled_new heff hi with hi₀ | ⟨pid, rfl, hpc, heq⟩
    · have hrun : (s'.engine.table i).state = .running := by
        rcases ((w.step heff).of_settled hi).1 with hrun | hfin
        · exact hrun
        · exact absurd hfin (not_final_of_isLiveState hlive)
      rw [(w.settled_step heff hi₀).2.pid]
      exact hold hi₀ (by rw [w.running_of_step heff hi₀ hrun]; rfl)
    · have hslot : (s'.engine.table i).pid = pid := by
        rw [heq]
        simp [Engine.published, Engine.setPc, Engine.setHandler, Engine.setSlot, Container.publish]
      rw [hslot]
      refine (d.inFlight h pid (by rw [hpc]; rfl)).step hs ?_
      simp [HostEvent.newPid_of_inner hin, Event.newPid]

theorem Guarded.inFlight_step (d : Guarded s) (w : s.engine.Wf)
    (hcloned : ∀ g c, s.engine.child g = some c → g ∈ s.engine.cloned) (hs : Effect s e s')
    (hc : s.NewPidUnused e) (hp : (s'.engine.handler h).pc.inFlight = some pid) :
    s'.HeldOnlyBy pid h := by
  have hold (hp : (s.engine.handler h).pc.inFlight = some pid) : s'.HeldOnlyBy pid h := by
    obtain ⟨c, hchild, -⟩ := w.inFlight h pid hp
    exact (d.inFlight h pid hp).step hs (hc.ne fun hu => hu.2.1 h (hcloned h c hchild) hp)
  rcases hs.engine_step with heq | ⟨e', hin, he⟩
  · exact hold (heq ▸ hp)
  · rcases w.inFlight_step (Engine.step_effect he) hp with hp₀ | rfl
    · exact hold hp₀
    · exact heldOnlyBy_of_clone hs hin hcloned he

theorem Guarded.target_step (d : Guarded s) (w : s.engine.Wf) (l : StoppingListed s)
    (hs : Effect s e s') (hc : s.NewPidUnused e)
    (hpc : (s'.engine.handler g).pc = .stopKill i pid) : s'.Aimed i pid := by
  have hold (hpc : (s.engine.handler g).pc = .stopKill i pid) : s'.Aimed i pid := by
    refine (d.target g i pid hpc).step w hs (hc.ne fun hu => ?_)
    exact hu.2.2.1 g (l g i pid hpc) (by rw [hpc]; rfl)
  rcases hs.engine_step with heq | ⟨e', hin, he⟩
  · exact hold (heq ▸ hpc)
  · rcases Engine.step_stopKill (Engine.step_effect he) hpc with
      hpc₀ | ⟨rfl, -, hfind, hlive, rfl⟩
    · exact hold hpc₀
    · refine (d.aimed w ⟨(findContainerByIdLocked_spec hfind).1, hlive⟩).step w hs ?_
      simp [HostEvent.newPid_of_inner hin, Event.newPid]

theorem Guarded.sweep_step (d : Guarded s) (w : s.engine.Wf) (hs : Effect s e s')
    (hc : s.NewPidUnused e) {k : SigTerm} (hk : k ∈ s'.sweep) : s'.Aimed k.slot k.pid := by
  have hold (hk : k ∈ s.sweep) : s'.Aimed k.slot k.pid :=
    (d.sweep k hk).step w hs (hc.ne fun hu => hu.2.2.2 k hk rfl)
  cases hs with
  | engine e engine hb he =>
    dsimp only [moved] at hk
    split at hk
    · obtain ⟨j, hj, rfl⟩ := List.mem_map.mp hk
      refine (d.aimed w (mem_liveSlots.mp hj)).step w (.engine _ _ hb he) ?_
      simp [HostEvent.newPid, Event.newPid]
    · exact hold hk
  | sweepKill k' sweep hsweep => exact hold (hsweep ▸ List.mem_cons_of_mem _ hk)
  | register h reach kmalloc | unregister reach => cases reach <;> exact hold hk
  | pass | spawn | die => exact hold hk

theorem Guarded.of_run {others : List ℤ}
    (hr : Transition.Run Host.step NewPidUnused (init others) s) : Guarded s := by
  refine hr.invariant_of_reached ⟨?_, ?_, ?_, ?_⟩ ?_
  · exact fun i h hi => by simp [Engine.Settled, init, Engine.init] at hi
  · exact fun h pid hp => by simp [init, Engine.init, Handler.init, Pc.inFlight] at hp
  · exact fun g i pid hpc => by simp [init, Engine.init, Handler.init] at hpc
  · exact fun k hk => by simp [init] at hk
  · intro t e u ht d hc hs
    have hre := engine_run ht
    have w := Engine.Wf.of_run hre
    have heff := step_effect hs
    have hcloned : ∀ g c, t.engine.child g = some c → g ∈ t.engine.cloned :=
      fun g c hchild => Engine.cloned_of_child hre hchild
    exact ⟨fun i h => d.live_step w heff hc, fun h pid => d.inFlight_step w hcloned heff hc,
      fun g i pid => d.target_step w (.of_run ht) heff hc, fun k => d.sweep_step w heff hc⟩

/-- A signal to a positive pid goes to the child of the slot, or to nobody : the pid is held by
this child until it has been waited for, and then by no process. -/
def HitsNoStranger (s : Host) (i : Slot) (pid : ℤ) : Prop :=
  0 < pid → ∃ h c, s.engine.owner i = some h ∧ s.engine.child h = some c ∧ c.pid = pid ∧
    (c.Unreaped ∨
      (∀ g c', s.engine.child g = some c' → c'.Unreaped → c'.pid ≠ pid) ∧ pid ∉ s.others)

theorem Aimed.hitsNoStranger (ha : s.Aimed i pid) (w : s.engine.Wf) : s.HitsNoStranger i pid := by
  intro hpos
  obtain ⟨h, hset, hp, hheld⟩ := ha hpos
  obtain ⟨-, c, hchild, hcp⟩ := w.of_settled hset
  refine ⟨h, c, hset.1, hchild, hcp.trans hp, ?_⟩
  by_cases hun : c.Unreaped
  · exact Or.inl hun
  · refine Or.inr ⟨fun g c' hc' hun' hp' => hun ?_, hheld.2⟩
    obtain rfl := hheld.1 g c' hc' hun' hp'
    obtain rfl := Option.some.inj (hchild.symm.trans hc')
    exact hun'

/-- If no new process gets a pid that a live slot records, that a start has in flight or that a
stop is about to signal, then every `kill` of a stop request and every `kill` of the shutdown's
pass with a positive pid goes to the child of the slot it is for, or to no process at all. -/
theorem stop_hits_own_child {others : List ℤ}
    (hr : Transition.Run step NewPidUnused (init others) s) :
    (∀ h err s', step s (.engine (.stopKill h err)) = some s' → ∃ i pid,
        (s.engine.handler h).pc = .stopKill i pid ∧ s.HitsNoStranger i pid) ∧
      ∀ s', step s .sweepKill = some s' → ∃ k, s.sweep.head? = some k ∧
        s.HitsNoStranger k.slot k.pid := by
  have d := Guarded.of_run hr
  have w := Engine.Wf.of_run (engine_run hr)
  refine ⟨fun h err s' hs => ?_, fun s' hs => ?_⟩
  · obtain ⟨i, pid, hpc⟩ : ∃ i pid, (s.engine.handler h).pc = .stopKill i pid := by
      cases step_effect hs with
      | engine _ engine hb he =>
        replace he := (Engine.step_next he).2
        simp only [Engine.next, Engine.handlerStep] at he
        split at he
        · exact ⟨_, _, by assumption⟩
        · cases he
    exact ⟨i, pid, hpc, (d.target h i pid hpc).hitsNoStranger w⟩
  · cases step_effect hs with
    | sweepKill k sweep hsweep =>
      exact ⟨k, by rw [hsweep]; rfl, (d.sweep k (by simp [hsweep])).hitsNoStranger w⟩

/-- A container is started, and a stop request is about to signal it. -/
theorem stop_hits_own_child_one : ∃ s s' : Host,
    step s (.engine (.stopKill 1 none)) = some s' ∧ s.HitsNoStranger 0 7 := by
  obtain ⟨s, hr, hpc, hs⟩ := Transition.exists_run_of_exec step NewPidUnused (init [1])
    (playPublished 0 "a" 7 ++ [.register 0 true true, .spawn 8] ++ playStopEnter 1 "a")
    (fun s => (s.engine.handler 1).pc = .stopKill 0 7 ∧
      (step s (.engine (.stopKill 1 none))).isSome = true) (by decide)
  obtain ⟨s', hs'⟩ := Option.isSome_iff_exists.mp hs
  obtain ⟨i, pid, hpc', hhits⟩ := (stop_hits_own_child hr).1 1 none s' hs'
  obtain ⟨rfl, rfl⟩ := Pc.stopKill.inj (hpc.symm.trans hpc')
  exact ⟨s, s', hs', hhits⟩

theorem not_hitsNoStranger (hpos : 0 < pid) (ho : s.engine.owner i = some h) {status : ℕ}
    (hchild : s.engine.child h = some ⟨pid, .reaped status⟩) (hother : pid ∈ s.others) :
    ¬s.HitsNoStranger i pid := by
  intro hhits
  obtain ⟨g, c, hg, hc, -, hun | ⟨-, hno⟩⟩ := hhits hpos
  · obtain rfl : h = g := Option.some.inj (ho.symm.trans hg)
    obtain rfl := Option.some.inj (hchild.symm.trans hc)
    exact hun
  · exact hno hother

/-- Both windows. A stop request has read the pid of a slot, the child exits and is waited for, a
new process gets the pid, and the stop signals it. And the reaper has waited for a child and not
yet updated the table, a new process gets the pid, and the pass of the shutdown signals it. -/
theorem stop_hits_stranger :
    (∃ s s' : Host, Transition.Run step Transition.Always (init []) s ∧
      (s.engine.handler 1).pc = .stopKill 0 7 ∧ step s (.engine (.stopKill 1 none)) = some s' ∧
      ¬s.HitsNoStranger 0 7) ∧
    ∃ s s' : Host, Transition.Run step Transition.Always (init []) s ∧
      s.sweep = [⟨0, 7⟩] ∧ step s .sweepKill = some s' ∧ ¬s.HitsNoStranger 0 7 := by
  constructor
  · obtain ⟨s, hr, hpc, ho, hchild, hother, hs⟩ := Transition.exists_run_of_exec step
      Transition.Always (init [])
      (playPublished 0 "a" 7 ++ [.register 0 true true] ++ playStopEnter 1 "a" ++ playExit 0 ++
        [.spawn 7])
      (fun s => (s.engine.handler 1).pc = .stopKill 0 7 ∧ s.engine.owner 0 = some 0 ∧
        s.engine.child 0 = some ⟨7, .reaped 0⟩ ∧ 7 ∈ s.others ∧
        (step s (.engine (.stopKill 1 none))).isSome = true) (by decide)
    obtain ⟨s', hs'⟩ := Option.isSome_iff_exists.mp hs
    exact ⟨s, s', hr, hpc, hs', not_hitsNoStranger (by decide) ho hchild hother⟩
  · obtain ⟨s, hr, hsweep, ho, hchild, hother, hs⟩ := Transition.exists_run_of_exec step
      Transition.Always (init [])
      (playPublished 0 "a" 7 ++ [.register 0 true true] ++ playExit 0 ++
        [.spawn 7, .engine .signal, .engine .loopTest, .engine .stopAll])
      (fun s => s.sweep = [⟨0, 7⟩] ∧ s.engine.owner 0 = some 0 ∧
        s.engine.child 0 = some ⟨7, .reaped 0⟩ ∧ 7 ∈ s.others ∧
        (step s .sweepKill).isSome = true) (by decide)
    obtain ⟨s', hs'⟩ := Option.isSome_iff_exists.mp hs
    exact ⟨s, s', hr, hsweep, hs', not_hitsNoStranger (by decide) ho hchild hother⟩

end Host

end Jackfruit
