import Jackfruit.LifeCycle

/-!
# The targets of SIGTERM

`stop_container_by_id` and `stop_all_live_containers` signal the pid that a live slot records.
STARTING is a live state, but a slot in it records `-1`, and `kill(-1, SIGTERM)` signals every
process it may (`stop_of_starting_slot`). As long as no stop meets a STARTING slot, every signal
goes to the child of the slot's owner.
-/

set_option linter.unusedSectionVars false

namespace Jackfruit

namespace Engine

variable {s s' : Engine} {e : Event} {i : Slot} {h : ℕ} {pid : ℤ}

/-- A stop request finds no STARTING slot, and the shutdown meets none. -/
def StopPublished (s : Engine) : Event → Prop
  | .stopEnter h => ∀ i, findContainerByIdLocked s.table (s.req h).id = some i →
      (s.table i).state ≠ .starting
  | .stopAll => ∀ i, (s.table i).used = true → (s.table i).state ≠ .starting
  | _ => True

instance (s : Engine) (e : Event) : Decidable (StopPublished s e) := by
  unfold StopPublished
  split <;> infer_instance

/-- The slot is settled and records this pid. -/
def Denotes (s : Engine) (i : Slot) (pid : ℤ) : Prop :=
  (∃ h, s.Settled i h) ∧ (s.table i).pid = pid

theorem Wf.denotes_step (w : Wf s) (hs : Effect s e s') (hi : s.Denotes i pid) :
    s'.Denotes i pid := by
  obtain ⟨⟨h, hset⟩, hp⟩ := hi
  obtain ⟨hset', hkept⟩ := w.settled_step hs hset
  exact ⟨⟨h, hset'⟩, hkept.pid.trans hp⟩

theorem Wf.denotes_of_used (w : Wf s) (hu : (s.table i).used = true)
    (hst : (s.table i).state ≠ .starting) : s.Denotes i (s.table i).pid := by
  obtain ⟨h, ho⟩ := (w.used_iff i).mp hu
  exact ⟨⟨h, ho, hst⟩, rfl⟩

/-- The pid of a settled slot is the positive pid that `clone` gave its owner. -/
theorem Wf.child_of_denotes (w : Wf s) (hi : s.Denotes i pid) :
    ∃ h c, s.owner i = some h ∧ s.child h = some c ∧ c.pid = pid ∧ 0 < pid := by
  obtain ⟨⟨h, hset⟩, hp⟩ := hi
  obtain ⟨-, c, hc, hcp⟩ := w.of_settled hset
  exact ⟨h, c, hset.1, hc, hcp.trans hp, hp ▸ hcp ▸ w.child_pos h c hc⟩

/-- A handler that is about to signal took its target from a live slot. -/
theorem step_stopKill (hs : Effect s e s') (hpc : (s'.handler h).pc = .stopKill i pid) :
    (s.handler h).pc = .stopKill i pid ∨
      e = .stopEnter h ∧ (s.handler h).pc = .stop ∧
        findContainerByIdLocked s.table (s.req h).id = some i ∧
        isLiveState (s.table i).state = true ∧ pid = (s.table i).pid := by
  have hstep := step_handler hs h
  generalize s'.handler h = hd at hpc hstep
  cases hstep with
  | same => exact Or.inl hpc
  | move hd hm =>
    cases hm with
    | syscall pc hm =>
      obtain ⟨j, hj⟩ := hm.exists_reserved
      obtain rfl : pc = .stopKill i pid := hpc
      cases hj
    | _ => cases hpc
  | recv req =>
    simp only [dispatch] at hpc
    split_ifs at hpc
  | register idx p resp =>
    simp only at hpc
    split_ifs at hpc
  | stopEnter idx he hpc₀ hfind hlive =>
    obtain ⟨rfl, rfl⟩ := Pc.stopKill.inj hpc
    exact Or.inr ⟨he, hpc₀, hfind, hlive, rfl⟩
  | _ => cases hpc

/-- Every signal is sent by a handler at its `kill` or by the shutdown to a live slot. -/
theorem step_sigterms (hs : Effect s e s') {k : SigTerm} (hk : k ∈ s'.sigterms) :
    k ∈ s.sigterms ∨ (∃ h, (s.handler h).pc = .stopKill k.slot k.pid) ∨
      e = .stopAll ∧ (s.table k.slot).used = true ∧ k.pid = (s.table k.slot).pid := by
  cases hs with
  | stopKill h err idx pid resp hpc =>
    rcases List.mem_append.mp hk with hk | hk
    · exact Or.inl hk
    · obtain rfl := List.mem_singleton.mp hk
      exact Or.inr (Or.inl ⟨h, hpc⟩)
  | stopAll =>
    rcases List.mem_append.mp hk with hk | hk
    · exact Or.inl hk
    · obtain ⟨j, hj, rfl⟩ := List.mem_map.mp hk
      exact Or.inr (Or.inr ⟨rfl, (mem_liveSlots.mp hj).1, rfl⟩)
  | _ => exact Or.inl hk

/-- The signals sent, and those about to be sent, go to settled slots. -/
structure Targeted (s : Engine) : Prop where
  next : ∀ h i pid, (s.handler h).pc = .stopKill i pid → s.Denotes i pid
  sent : ∀ k ∈ s.sigterms, s.Denotes k.slot k.pid

theorem Targeted.step (t : Targeted s) (w : Wf s) (hs : Effect s e s')
    (hc : StopPublished s e) : Targeted s' := by
  refine ⟨fun h i pid hpc => w.denotes_step hs ?_, fun k hk => w.denotes_step hs ?_⟩
  · rcases step_stopKill hs hpc with hpc | ⟨rfl, -, hfind, -, rfl⟩
    · exact t.next h i pid hpc
    · exact w.denotes_of_used (findContainerByIdLocked_spec hfind).1 (hc i hfind)
  · rcases step_sigterms hs hk with hk | ⟨h, hpc⟩ | ⟨rfl, hu, hp⟩
    · exact t.sent k hk
    · exact t.next h _ _ hpc
    · exact hp ▸ w.denotes_of_used hu (hc k.slot hu)

theorem Targeted.of_run (hr : Transition.Run Engine.step StopPublished init s) : Targeted s := by
  refine hr.invariant_of_reached ⟨fun h i pid hpc => ?_, fun k hk => ?_⟩
    fun _ _ _ ht t hc hs => t.step (Wf.of_run ht) (step_effect hs) hc
  · simp [init, Handler.init] at hpc
  · simp [init] at hk

/-- If no stop meets a STARTING slot, every SIGTERM for a slot goes to the positive pid that
`clone` returned for the child of that slot. -/
theorem sigterm_targets_child (hr : Transition.Run step StopPublished init s) :
    ∀ k ∈ s.sigterms, ∃ h c, s.owner k.slot = some h ∧ s.child h = some c ∧ c.pid = k.pid ∧
      0 < k.pid :=
  fun k hk => (Wf.of_run hr).child_of_denotes ((Targeted.of_run hr).sent k hk)

/-- A container is started and then stopped. -/
theorem sigterm_targets_child_one : ∃ s : Engine, s.sigterms = [⟨0, 7⟩] ∧
    ∃ h c, s.owner 0 = some h ∧ s.child h = some c ∧ c.pid = 7 ∧ (0 : ℤ) < 7 := by
  obtain ⟨s, hr, hs⟩ := Transition.exists_run_of_exec step StopPublished init
    (playClone 0 REQ_START "a" 7 ++ playPublish 0 ++
      [.loopTest, .accept 1, .recv 1 ⟨REQ_STOP, cstr "a", [], [], 40, 64, 0⟩, .stopEnter 1,
        .stopKill 1 none])
    (fun s => s.sigterms = [⟨0, 7⟩]) (by decide)
  exact ⟨s, hs, sigterm_targets_child hr ⟨0, 7⟩ (by simp [hs])⟩

/-- A stop request between the reservation and the publication of its container's slot. -/
theorem stop_of_starting_slot : ∃ s : Engine, s.Reachable ∧ ∃ k ∈ s.sigterms, k.pid = -1 := by
  obtain ⟨s, hr, hs⟩ := Transition.exists_run_of_exec step Transition.Always init
    ([.loopTest, .accept 0, .recv 0 ⟨REQ_START, cstr "a", cstr "a", cstr "true", 40, 64, 0⟩,
      .reserve 0 0, .loopTest, .accept 1, .recv 1 ⟨REQ_STOP, cstr "a", [], [], 40, 64, 0⟩,
      .stopEnter 1, .stopKill 1 none])
    (fun s => ∃ k ∈ s.sigterms, k.pid = -1) (by decide)
  exact ⟨s, hr, hs⟩

end Engine

end Jackfruit
