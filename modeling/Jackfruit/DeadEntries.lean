import Jackfruit.Reaping
import Jackfruit.Registration

/-!
# Entries of containers that have ended

The reaper unregisters the pid of a container that has ended, with `containers_mutex` held. Its
start registers the pid after it has released the mutex, so the child may have been recorded and
unregistered by then. The reaper's UNREGISTER fails, and the entry that REGISTER makes afterwards
stays until a pass of the monitor finds no process (`dead_entry_left`).

As long as no REGISTER comes so late, and no pid is reissued, no entry is left once the reaper is
done with a container (`dead_entries_removed`).
-/

set_option linter.unusedSectionVars false

namespace Jackfruit

/-- The reaper has recorded its end in a slot. -/
def Child.Recorded (c : Child) : Prop :=
  match c.life with
  | .handled _ (some _) => True
  | _ => False

instance : (c : Child) → Decidable c.Recorded
  | ⟨_, .handled _ (some _)⟩ => inferInstanceAs (Decidable True)
  | ⟨_, .handled _ none⟩ | ⟨_, .alive⟩ | ⟨_, .zombie _⟩ | ⟨_, .reaped _⟩ =>
    inferInstanceAs (Decidable False)

theorem Child.Recorded.handled {c : Child} (h : c.Recorded) : c.Handled := by
  obtain ⟨pid, life⟩ := c
  cases life with
  | handled => trivial
  | alive | zombie | reaped => exact absurd h id

namespace Engine

variable {s s' : Engine} {e : Event} {i : Slot} {g h : ℕ} {pid : ℤ}

/-- `clone` hands out no pid that a child has had before. -/
def NoReuse (s : Engine) : Event → Prop
  | .clone _ (.ok pid) => ∀ h ∈ s.cloned, ∀ c ∈ s.child h, c.pid ≠ pid
  | _ => True

instance (s : Engine) (e : Event) : Decidable (NoReuse s e) := by
  rcases e <;> (try casesm* Except _ _) <;> dsimp only [NoReuse] <;> infer_instance

/-- No two children have had the same pid. -/
def DistinctPids (s : Engine) : Prop :=
  ∀ g h c c', s.child g = some c → s.child h = some c' → c.pid = c'.pid → g = h

theorem DistinctPids.of_run (hr : Transition.Run Engine.step NoReuse init s) : DistinctPids s := by
  refine hr.invariant_of_reached (fun g h c c' hc => by simp [init] at hc) ?_
  intro t e u ht d hnew hs g h c c' hc hc' hp
  have hstep (k : ℕ) := step_child (step_effect hs) k
  have hg := hstep g
  have hh := hstep h
  rw [hc] at hg
  rw [hc'] at hh
  have old {k : ℕ} {c₀ : Child} (hc₀ : t.child k = some c₀) (he : NoReuse t e) {j : ℕ}
      (hclone : e = .clone j (.ok c₀.pid)) : False := by
    subst hclone
    exact he k (cloned_of_child ht hc₀) c₀ hc₀ rfl
  rcases hg.pid_cases with ⟨c₀, hc₀, hp₀⟩ | he <;> rcases hh.pid_cases with ⟨c₁, hc₁, hp₁⟩ | he'
  · exact d g h c₀ c₁ hc₀ hc₁ (by rw [hp₀, hp₁, hp])
  · exact (old hc₀ hnew (by rw [hp₀, hp, he'])).elim
  · exact (old hc₁ hnew (by rw [hp₁, ← hp, he])).elim
  · exact (Event.clone.inj (he.symm.trans he')).1

/-- The slot that records the pid of a child is the one of its own start. -/
theorem DistinctPids.settled {c : Child} (d : DistinctPids s) (w : Wf s)
    (hu : (s.table i).used = true) (hc : s.child h = some c) (hp : (s.table i).pid = c.pid) :
    s.Settled i h := by
  have hpos := w.child_pos h c hc
  obtain ⟨g, ho⟩ := (w.used_iff i).mp hu
  have hset : s.Settled i g := ⟨ho, w.state_ne_starting hu (hp ▸ hpos)⟩
  obtain ⟨-, c', hc', hp'⟩ := w.of_settled hset
  obtain rfl : g = h := d g h c' c hc' hc (hp'.trans hp)
  exact hset

theorem DistinctPids.publishFirst (d : DistinctPids s) (w : Wf s) (e : Event) :
    PublishFirst s e := by
  unfold PublishFirst
  split
  · rename_i h
    split
    · rename_i idx pid hpc
      intro j hu hp
      obtain ⟨c, hc, hcp⟩ := w.inFlight h pid (by rw [hpc]; rfl)
      have hset := d.settled w hu hc (hp.trans hcp.symm)
      exact absurd hset ((w.of_reserved (by rw [hpc]; rfl)).2.2 j)
    · trivial
  · trivial

theorem DistinctPids.reapPublished (d : DistinctPids s) (w : Wf s) (e : Event) :
    ReapPublished s e := by
  unfold ReapPublished
  split
  · split
    · rename_i h _
      intro hno c hc
      by_contra hne
      obtain ⟨j, hfind⟩ := Option.ne_none_iff_exists'.mp hne
      obtain ⟨hu, hp⟩ := findContainerByPid_spec hfind
      exact hno j (d.settled w hu hc hp)
    · trivial
  · trivial

/-- If no pid is reused, every final slot holds the end of its own child. -/
theorem Recorded.of_noReuse (hr : Transition.Run Engine.step NoReuse init s) : Recorded s := by
  refine Recorded.of_run (C := fun s e => PublishFirst s e ∧ ReapPublished s e)
    (hr.map id fun t e u ht _ hs => ?_) fun _ _ h => h
  have w := Wf.of_run ht
  have d := DistinctPids.of_run ht
  exact Or.inr ⟨e, ⟨d.publishFirst w e, d.reapPublished w e⟩, hs⟩

end Engine

namespace Host

variable {s s' : Host} {e : HostEvent} {i : Slot} {g h : ℕ} {pid : ℤ}

/-- No pid is reissued to a child. -/
def NoReuse (s : Host) (e : HostEvent) : Prop :=
  ∀ e' ∈ e.inner, s.engine.NoReuse e'

/-- The ioctl of an event reaches the monitor. -/
def IoctlReaches : HostEvent → Prop
  | .register _ reach _ | .unregister reach => reach = true
  | _ => True

/-- The reaper is done with the child of `h`, its UNREGISTER included. -/
def Done (s : Host) (h : ℕ) : Prop :=
  ∃ c ∈ s.engine.child h, c.Recorded ∧ s.unregister ≠ some c.pid

/-- A start registers its child before the reaper is done with it, or with a hard limit of `0` or
without memory for an entry. -/
def RegistersFirst (s : Host) : HostEvent → Prop
  | .register h true kmalloc =>
    s.Done h → kmalloc = false ∨ UInt64.ofInt (s.engine.req h).hardMib = 0
  | _ => True

/-- No pid is reissued, the ioctls reach the monitor, and REGISTER comes in time. -/
def RegistersInTime (s : Host) (e : HostEvent) : Prop :=
  NoReuse s e ∧ IoctlReaches e ∧ RegistersFirst s e

instance (s : Host) (e : HostEvent) : Decidable (NoReuse s e) :=
  inferInstanceAs (Decidable (∀ e' ∈ e.inner, _))

instance (e : HostEvent) : Decidable (IoctlReaches e) := by
  unfold IoctlReaches
  split <;> infer_instance

instance (s : Host) (h : ℕ) : Decidable (s.Done h) :=
  inferInstanceAs (Decidable (∃ c ∈ s.engine.child h, _))

instance (s : Host) (e : HostEvent) : Decidable (RegistersFirst s e) := by
  unfold RegistersFirst
  split <;> infer_instance

instance (s : Host) (e : HostEvent) : Decidable (RegistersInTime s e) :=
  inferInstanceAs (Decidable (_ ∧ _))

/-- A child whose end is recorded is the one that the reaper is about to unregister, or its end was
recorded before. -/
theorem Effect.recorded_step {c : Child} (hs : Effect s e s') (hc : s'.engine.child h = some c)
    (hrec : c.Recorded) (hun : s'.unregister ≠ some c.pid) :
    s.engine.child h = some c ∧ (s.unregister ≠ some c.pid ∨ ∃ reach, e = .unregister reach) := by
  cases hs with
  | engine e engine hb he =>
    rcases Engine.step_handled (Engine.step_effect he) hc hrec.handled with
      hold | ⟨pid, status, rfl, hr, hreaped, heq⟩
    · refine ⟨hold, Or.inl fun heq => ?_⟩
      dsimp only [moved] at hun
      split at hun
      · exact hb (Or.inr (by simp [heq]))
      · exact hun heq
    · exfalso
      change engine = _ at heq
      subst heq
      change Function.update s.engine.child h _ h = some c at hc
      rw [Function.update_self] at hc
      obtain rfl := Option.some.inj hc
      change s.found ≠ some pid at hun
      simp only [found, hr, hreaped, Option.bind_some] at hun
      cases hfind : findContainerByPid s.engine.table pid with
      | none => simp [Child.Recorded, hfind] at hrec
      | some j => simp [hfind] at hun
  | register g reach kmalloc idx pid engine hpc he =>
    rcases Engine.step_handled (Engine.step_effect he) hc hrec.handled with hold | ⟨_, _, heq, -⟩
    · refine ⟨hold, Or.inl ?_⟩
      cases reach <;> exact hun
    · cases heq
  | unregister reach pid =>
    refine ⟨?_, Or.inr ⟨reach, rfl⟩⟩
    cases reach <;> exact hc
  | sweepKill | pass | spawn | die => exact ⟨hc, Or.inl hun⟩

/-- No pid of a child that the reaper is done with is listed. -/
def Cleared (s : Host) : Prop :=
  ∀ h c, s.engine.child h = some c → c.Recorded → s.unregister ≠ some c.pid →
    (Monitor.limits s.monitor).lookup c.pid = none

theorem Cleared.step (cl : Cleared s) (d : s.engine.DistinctPids) (ca : s.engine.Carried)
    (hl : Monitor.Wf s.monitor) (hs : Effect s e s') (hreach : IoctlReaches e)
    (hfirst : RegistersFirst s e) : Cleared s' := by
  intro h c hc hrec hun
  obtain ⟨hold, hpend⟩ := hs.recorded_step hc hrec hun
  have hstep := step_monitor hs
  generalize s'.monitor = m at hstep ⊢
  cases hstep with
  | same he =>
    refine cl h c hold hrec ?_
    rcases hpend with hne | ⟨reach, rfl⟩
    · exact hne
    · exact absurd (he.symm.trans hreach) Bool.false_ne_true
  | register g kmalloc idx pid he hpc =>
    have hne : s.unregister ≠ some c.pid := by
      rcases hpend with hne | ⟨reach, rfl⟩
      · exact hne
      · cases he
    have hnone := cl h c hold hrec hne
    by_cases hp : c.pid = pid
    · -- The pid registered now is the one of `c`, so this is the start of `h` itself.
      obtain ⟨c', hc', hp'⟩ := ca g pid (by rw [hpc]; rfl)
      obtain rfl := d h g c c' hold hc' (hp.trans hp'.symm)
      subst he
      rw [hp] at hnone ⊢
      rwa [Monitor.register_fails (Monitor.register_refused hnone (hfirst ⟨c, hold, hrec, hne⟩))]
    · rwa [Monitor.lookup_register_of_ne hp]
  | unregister pid he hpid =>
    rw [Monitor.lookup_unregister hl]
    split_ifs with hp
    · rfl
    · exact cl h c hold hrec fun heq => hp (Option.some.inj (heq.symm.trans hpid))
  | pass obs he =>
    have hne : s.unregister ≠ some c.pid := by
      rcases hpend with hne | ⟨reach, rfl⟩
      · exact hne
      · cases he
    rw [Monitor.lookup_monitorThreadPass hl.nodup, cl h c hold hrec hne, Option.bind_none]

theorem engine_run_noReuse {others : List ℤ}
    (hr : Transition.Run step RegistersInTime (init others) s) :
    Transition.Run Engine.step Engine.NoReuse Engine.init s.engine :=
  engine_run_of hr fun _ _ _ hc hin => hc.1 _ hin

theorem Cleared.of_run {others : List ℤ}
    (hr : Transition.Run Host.step RegistersInTime (init others) s) : Cleared s := by
  refine hr.invariant_of_reached (fun h c hc => by simp [init, Engine.init] at hc) ?_
  intro t e u ht cl hc hs
  have hre := engine_run_noReuse ht
  exact cl.step (.of_run hre) (.of_run hre) (monitor_run ht).wf (step_effect hs) hc.2.1 hc.2.2

/-- If no pid is reissued, every ioctl reaches the monitor and no start registers a pid after the
reaper is done with it, then the monitor has no entry for the pid of a final slot once the reaper
is done with it, whatever the passes of the monitor do. -/
theorem dead_entries_removed {others : List ℤ}
    (hr : Transition.Run step RegistersInTime (init others) s)
    (hu : (s.engine.table i).used = true) (hfin : (s.engine.table i).state.Final)
    (hdone : s.unregister ≠ some (s.engine.table i).pid) :
    ∀ entry ∈ s.monitor, entry.pid ≠ (s.engine.table i).pid := by
  have hre := engine_run_noReuse hr
  have w := Engine.Wf.of_run hre
  obtain ⟨h, hset⟩ := w.settled_of_final hu hfin
  obtain ⟨pid, status, hchild, -⟩ := Engine.Recorded.of_noReuse hre i h hset hfin
  obtain ⟨-, c, hc, hp⟩ := w.of_settled hset
  obtain rfl := Option.some.inj (hchild.symm.trans hc)
  have hnone := Cleared.of_run hr h _ hchild trivial (hp ▸ hdone)
  exact hp ▸ Monitor.not_listed_of_lookup hnone

/-- Two containers, of which the first has ended. -/
theorem dead_entries_removed_two : ∃ s : Host, s.monitor = [⟨8, 40, 64, false⟩] ∧
    ∀ entry ∈ s.monitor, entry.pid ≠ 7 := by
  obtain ⟨s, hr, hu, hst, hpid, hun, hm⟩ := Transition.exists_run_of_exec step RegistersInTime
    (init []) (playPublished 0 "a" 7 ++ [.register 0 true true] ++ playPublished 1 "b" 8 ++
      [.register 1 true true] ++ playExit 0 ++ [.engine .reap, .unregister true])
    (fun s => (s.engine.table 0).used = true ∧ (s.engine.table 0).state = .exited ∧
      (s.engine.table 0).pid = 7 ∧ s.unregister = none ∧ s.monitor = [⟨8, 40, 64, false⟩])
    (by decide)
  have hremoved := dead_entries_removed hr hu (by simp [hst, ContainerState.Final]) (by simp [hun])
  exact ⟨s, hm, hpid ▸ hremoved⟩

/-- The child exits and is recorded and unregistered before its start registers it. No pid is
reissued and every ioctl reaches the monitor, and the entry is left. -/
theorem dead_entry_left : ∃ s : Host,
    Transition.Run step (fun s e => NoReuse s e ∧ IoctlReaches e) (init []) s ∧
      s.engine.started 0 = some 0 ∧ (s.engine.table 0).used = true ∧
        (s.engine.table 0).state = .exited ∧ s.unregister = none ∧
          s.monitor = [⟨(s.engine.table 0).pid, 40, 64, false⟩] := by
  exact Transition.exists_run_of_exec step (fun s e => NoReuse s e ∧ IoctlReaches e) (init [])
    (playPublished 0 "a" 7 ++ playExit 0 ++
      [.engine .reap, .unregister true, .register 0 true true])
    (fun s => s.engine.started 0 = some 0 ∧ (s.engine.table 0).used = true ∧
      (s.engine.table 0).state = .exited ∧ s.unregister = none ∧
        s.monitor = [⟨(s.engine.table 0).pid, 40, 64, false⟩]) (by decide)

end Host

end Jackfruit
