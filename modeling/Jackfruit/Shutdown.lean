import Jackfruit.Stopping

/-!
# Whom the shutdown reaches

The main thread goes once over the live slots before it calls `log_buffer_shutdown`. Handlers are
detached and go on : a child whose start has not published it at that moment, or that is cloned
afterwards, gets no signal (`shutdown_misses_child`), and the reaper, which the main thread joins,
waits for it. If every child that has not been waited for is published in a live slot when the
pass comes, or has been signalled before, and no start clones after the pass, then every child is
signalled.
-/

set_option linter.unusedSectionVars false

namespace Jackfruit

namespace Engine

variable {s s' : Engine} {e : Event} {h : ℕ} {c : Child}

/-- A SIGTERM has been sent to the pid of the child `c` of `h`, for the slot that the start of `h`
has published. -/
def Signalled (s : Engine) (h : ℕ) (c : Child) : Prop :=
  ∃ k ∈ s.sigterms, s.Settled k.slot h ∧ k.pid = c.pid

instance (s : Engine) (h : ℕ) (c : Child) : Decidable (s.Signalled h c) :=
  inferInstanceAs (Decidable (∃ k ∈ s.sigterms, _))

/-- When the shutdown goes over the slots, every child that has not been waited for is in a live
slot that its start has published, or has been signalled; no start clones between this pass and
`log_buffer_shutdown`. -/
def StartsDone (s : Engine) : Event → Prop
  | .stopAll => ∀ h ∈ s.cloned, ∀ c ∈ s.child h, c.Unreaped →
      s.Signalled h c ∨ ∃ i, s.Settled i h ∧ isLiveState (s.table i).state = true
  | .clone _ (.ok _) => s.main ≠ .logShutdown
  | _ => True

instance (s : Engine) (e : Event) : Decidable (StartsDone s e) := by
  rcases e <;> (try casesm* Except _ _) <;> dsimp only [StartsDone] <;> infer_instance

/-- No signal is forgotten. -/
theorem sigterms_kept (hs : Effect s e s') {k : SigTerm} (hk : k ∈ s.sigterms) :
    k ∈ s'.sigterms := by
  cases hs with
  | stopKill | stopAll => exact List.mem_append_left _ hk
  | _ => exact hk

/-- A child that has been signalled stays so. -/
theorem Signalled.step {c' : Child} (hsig : s.Signalled h c) (w : Wf s) (hs : Effect s e s')
    (hp : c'.pid = c.pid) : s'.Signalled h c' := by
  obtain ⟨k, hk, hset, hpid⟩ := hsig
  exact ⟨k, sigterms_kept hs hk, (w.settled_step hs hset).1, hpid.trans hp.symm⟩

/-- The main thread comes to `log_buffer_shutdown` from its pass over the slots. -/
theorem step_logShutdown (hs : Effect s e s') (hm : s'.main = .logShutdown) :
    s.main = .logShutdown ∨ e = .stopAll := by
  cases hs with
  | control e running main hmove =>
    cases hmove with
    | signal => exact Or.inl hm
    | loopTest | acceptFail =>
      dsimp only at hm
      split_ifs at hm
    | _ => cases hm
  | handler e g hd main he hmain =>
    rcases hmain with rfl | ⟨-, rfl⟩
    · exact Or.inl hm
    · cases hm
  | stopAll => exact Or.inr rfl
  | _ => exact Or.inl hm

/-- From the pass on, every child that has not been waited for has been signalled. -/
def Reached (s : Engine) : Prop :=
  s.main = .logShutdown → ∀ h c, s.child h = some c → c.Unreaped → s.Signalled h c

/-- The pass signals every live slot. -/
theorem sigterms_of_stopAll (hs : Engine.step s .stopAll = some s') {i : Slot}
    (hu : (s.table i).used = true) (hlive : isLiveState (s.table i).state = true) :
    ⟨i, (s.table i).pid⟩ ∈ s'.sigterms := by
  replace hs := (step_next hs).2
  simp only [next, mainStep] at hs
  split_ifs at hs
  obtain rfl := Option.some.inj hs
  exact List.mem_append_right _ (List.mem_map_of_mem (mem_liveSlots.mpr ⟨hu, hlive⟩))

theorem Reached.step (r : Reached s) (w : Wf s) (hcloned : ∀ h c, s.child h = some c → h ∈ s.cloned)
    (hs : Engine.step s e = some s') (hc : StartsDone s e) : Reached s' := by
  intro hm h c hchild hun
  have heff := step_effect hs
  have hstep := step_child heff h
  rw [hchild] at hstep
  rcases step_logShutdown heff hm with hm₀ | rfl
  · rcases hstep.unreaped hun with rfl | ⟨c₀, hc₀, hun₀, hp⟩
    · exact absurd hm₀ hc
    · exact (r hm₀ h c₀ hc₀ hun₀).step w heff hp
  · rcases hstep.unreaped hun with he | ⟨c₀, hc₀, hun₀, hp⟩
    · cases he
    · rcases hc h (hcloned h c₀ hc₀) c₀ hc₀ hun₀ with hsig | ⟨i, hset, hlive⟩
      · exact hsig.step w heff hp
      · obtain ⟨-, c₁, hc₁, hpid⟩ := w.of_settled hset
        obtain rfl : c₀ = c₁ := Option.some.inj (hc₀.symm.trans hc₁)
        have hk := sigterms_of_stopAll hs (w.used_of_settled hset) hlive
        exact ⟨_, hk, (w.settled_step heff hset).1, hpid.symm.trans hp.symm⟩

/-- If every child that has not been waited for is published in a live slot or has been signalled
when the shutdown goes over the slots, and no start clones after that, then every child that has
not been waited for when the main thread calls `log_buffer_shutdown` has been sent SIGTERM by its
own pid, for the slot of its own start. -/
theorem shutdown_signals_children (hr : Transition.Run step StartsDone init s) :
    ∀ s', step s .logShutdown = some s' → ∀ h c, s.child h = some c → c.Unreaped →
      ∃ k ∈ s.sigterms, s.owner k.slot = some h ∧ k.pid = c.pid := by
  have hreached : Reached s := by
    refine hr.invariant_of_reached (fun hm => by simp [init] at hm) ?_
    intro t e u ht r hc hs
    exact r.step (Wf.of_run ht) (fun h c hchild => cloned_of_child ht hchild) hs hc
  intro s' hs h c hchild hun
  have hm : s.main = .logShutdown := by
    replace hs := (step_next hs).2
    simp only [next, mainStep] at hs
    split_ifs at hs with hm
    exact hm
  obtain ⟨k, hk, hset, hpid⟩ := hreached hm h c hchild hun
  exact ⟨k, hk, hset.1, hpid⟩

/-- A running container when SIGTERM comes to the supervisor. -/
theorem shutdown_signals_children_one : ∃ s : Engine, s.child 0 = some ⟨7, .alive⟩ ∧
    ∃ k ∈ s.sigterms, s.owner k.slot = some 0 ∧ k.pid = 7 := by
  obtain ⟨s, hr, hchild, hs⟩ := Transition.exists_run_of_exec step StartsDone init
    (playClone 0 REQ_START "a" 7 ++ playPublish 0 ++ [.signal, .loopTest, .stopAll])
    (fun s => s.child 0 = some ⟨7, .alive⟩ ∧ (step s .logShutdown).isSome = true) (by decide)
  obtain ⟨s', hs'⟩ := Option.isSome_iff_exists.mp hs
  exact ⟨s, hchild, shutdown_signals_children hr s' hs' 0 ⟨7, .alive⟩ hchild trivial⟩

/-- A handler that has been accepted before the signal reads its start request after the pass
over the slots. Its child is alive when the main thread calls `log_buffer_shutdown`, and no signal
has been sent. -/
theorem shutdown_misses_child : ∃ s s' : Engine, s.Reachable ∧ step s .logShutdown = some s' ∧
    s.child 0 = some ⟨7, .alive⟩ ∧ s.sigterms = [] := by
  obtain ⟨s, hr, hchild, hsig, hs⟩ := Transition.exists_run_of_exec step Transition.Always init
    [.loopTest, .accept 0, .signal, .loopTest, .stopAll,
      .recv 0 ⟨REQ_START, cstr "a", cstr "a", cstr "true", 40, 64, 0⟩, .reserve 0 0, .pipe 0 none,
      .mallocStack 0 true, .mallocChild 0 true, .clone 0 (.ok 7)]
    (fun s => s.child 0 = some ⟨7, .alive⟩ ∧ s.sigterms = [] ∧
      (step s .logShutdown).isSome = true) (by decide)
  obtain ⟨s', hs'⟩ := Option.isSome_iff_exists.mp hs
  exact ⟨s, s', hr, hs', hchild, hsig⟩

end Engine

end Jackfruit
