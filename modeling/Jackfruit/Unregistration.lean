import Jackfruit.Registration

/-!
# What the reaper has in its hands

Between `waitpid` and the end of UNREGISTER the reaper has a pid in its hands (`InHands`) that the
kernel may give to a new child. A child that is alive cannot come into its hands, so whether the
reaper will unregister the pid of such a child is known as soon as the child is there.
-/

set_option linter.unusedSectionVars false

namespace Jackfruit

namespace Engine

variable {s s' : Engine} {e : Event} {g : ℕ}

/-- The reaper holds a child only after it has waited for it. -/
theorem step_holding (hs : Effect s e s') (hg : s'.reaper = .holding g) :
    s.reaper = .holding g ∧ e ≠ .reap ∨
      ∃ pid status, s.child g = some ⟨pid, .zombie status⟩ ∧
        s'.child g = some ⟨pid, .reaped status⟩ := by
  cases hs with
  | waitpid h pid status hr hc =>
    obtain rfl := ReaperPc.holding.inj hg
    exact Or.inr ⟨pid, status, hc, Function.update_self ..⟩
  | reap | reaperExit => cases hg
  | control e running main hm => exact Or.inl ⟨hg, by rintro rfl; cases hm⟩
  | handler e h hd main he => exact Or.inl ⟨hg, he⟩
  | _ => exact Or.inl ⟨hg, nofun⟩

/-- The child that the reaper holds. -/
def Held (s : Engine) : Prop :=
  ∀ g, s.reaper = .holding g → ∃ pid status, s.child g = some ⟨pid, .reaped status⟩

theorem Held.of_run {C : Engine → Event → Prop} (hr : Transition.Run Engine.step C init s) :
    Held s := by
  refine hr.invariant_of_reached (fun g hg => by cases hg) ?_
  intro t e u ht held _ hs g hg
  have heff := step_effect hs
  rcases step_holding heff hg with ⟨hg₀, hne⟩ | ⟨pid, status, -, hc⟩
  · obtain ⟨pid, status, hc₀⟩ := held g hg₀
    have hstep := step_child heff g
    generalize u.child g = o at hstep ⊢
    cases hstep with
    | same => exact ⟨pid, status, hc₀⟩
    | clone i p he hpc =>
      rw [(Wf.of_run ht).unborn g (by rw [hpc]; rfl)] at hc₀
      cases hc₀
    | exit p st hc => cases hc₀.symm.trans hc
    | waitpid p st hr => cases hg₀.symm.trans hr
    | reap p st he => exact absurd he hne
  · exact ⟨pid, status, hc⟩

/-- The reaper's critical section can be run. -/
theorem step_reap {pid : ℤ} {status : ℕ} (hmain : s.main ≠ .returned) (hg : s.reaper = .holding g)
    (hc : s.child g = some ⟨pid, .reaped status⟩) :
    s.step .reap = some (s.recorded g pid status) := by
  simp only [step, if_neg hmain, next, reaperStep, hg, hc, recorded]

end Engine

namespace Host

variable {s s' : Host} {e : HostEvent} {g h : ℕ} {pid : ℤ}

/-- The reaper has waited for a child with this pid and has not unregistered it yet. -/
def InHands (s : Host) (pid : ℤ) : Prop :=
  s.unregister = some pid ∨
    ∃ g, s.engine.reaper = .holding g ∧ ∃ c, s.engine.child g = some c ∧ c.pid = pid

theorem inHands_of_found (h : s.found = some pid) : s.InHands pid := by
  unfold found at h
  split at h
  · rename_i g hg
    obtain ⟨c, hc, hp⟩ := Option.bind_eq_some_iff.mp h
    obtain ⟨-, -, rfl⟩ := Option.map_eq_some_iff.mp hp
    exact Or.inr ⟨g, hg, c, hc, rfl⟩
  · cases h

theorem Effect.unregister_step (hs : Effect s e s') (h' : s'.unregister = some pid) :
    s.unregister = some pid ∨ s.found = some pid := by
  cases hs with
  | engine e engine hb he =>
    dsimp only [moved] at h'
    split at h'
    · exact Or.inr h'
    · exact Or.inl h'
  | unregister => cases h'
  | register h reach kmalloc => exact Or.inl (by cases reach <;> exact h')
  | sweepKill | pass | spawn | die => exact Or.inl h'

/-- A pid comes into the reaper's hands when its child is waited for. -/
theorem Effect.inHands (hs : Effect s e s') (w : s.engine.Wf) (held : s.engine.Held)
    (h' : s'.InHands pid) : s.InHands pid ∨
      ∃ g c c', s.engine.child g = some c ∧ c.Unreaped ∧ c.pid = pid ∧
        s'.engine.child g = some c' ∧ ¬c'.Unreaped := by
  rcases h' with hun | ⟨g, hg, c, hc, rfl⟩
  · rcases hs.unregister_step hun with hun₀ | hfound
    · exact Or.inl (Or.inl hun₀)
    · exact Or.inl (inHands_of_found hfound)
  · rcases hs.engine_step with heq | ⟨e', -, he⟩
    · exact Or.inl (Or.inr ⟨g, heq ▸ hg, c, heq ▸ hc, rfl⟩)
    · have heff := Engine.step_effect he
      rcases Engine.step_holding heff hg with ⟨hg₀, -⟩ | ⟨pid, status, hc₀, hc'⟩
      · obtain ⟨pid, status, hc₀⟩ := held g hg₀
        obtain ⟨c', hc', hp, -⟩ := w.child_step heff hc₀
        obtain rfl := Option.some.inj (hc.symm.trans hc')
        exact Or.inl (Or.inr ⟨g, hg₀, _, hc₀, hp.symm⟩)
      · obtain rfl := Option.some.inj (hc.symm.trans hc')
        exact Or.inr ⟨g, _, _, hc₀, trivial, rfl, hc, id⟩

/-- The pid of a child that is alive comes into the reaper's hands no more. -/
theorem not_inHands_step {C : Host → HostEvent → Prop} {others : List ℤ} {c : Child}
    (hr : Transition.Run step C (init others) s) (hs : Effect s e s')
    (hc : s.engine.child h = some c) (hc' : s'.engine.child h = some c) (hun : c.Unreaped)
    (hno : ¬s.InHands c.pid) : ¬s'.InHands c.pid := by
  intro h'
  have hre := engine_run hr
  rcases hs.inHands (.of_run hre) (.of_run hre) h' with hin | ⟨g, c₀, c₁, hc₀, hun₀, hp, hc₁, hun₁⟩
  · exact hno hin
  · obtain rfl := (heldOnlyBy_of_run hr hc hun).1 g c₀ hc₀ hun₀ hp
    obtain rfl := Option.some.inj (hc'.symm.trans hc₁)
    exact hun₁ hun

/-! ## What is in hands will be unregistered -/

/-- The rest of the signals of `stop_all_live_containers` are sent. -/
theorem exists_swept (s : Host) (pid : ℤ) :
    ∃ s', Transition.Run step (Undisturbed pid) s s' ∧ s'.engine = s.engine ∧
      s'.sweep = [] := by
  induction hsweep : s.sweep generalizing s with
  | nil => exact ⟨s, .refl, rfl, hsweep⟩
  | cons k sweep ih =>
    obtain ⟨s', hr, heng, hnil⟩ := ih { s with sweep := sweep } rfl
    have hs : step s .sweepKill = some { s with sweep := sweep } := by simp only [step, hsweep]
    exact ⟨s', (Transition.Run.tail _ .refl ⟨id, trivial⟩ hs).trans hr, heng, hnil⟩

/-- The calls that `containers_mutex` is held for come to an end. -/
theorem exists_unlocked (s : Host) (pid : ℤ) :
    ∃ s', Transition.Run step (Undisturbed pid) s s' ∧ s'.engine = s.engine ∧
      ¬s'.Locked := by
  obtain ⟨t, hr, heng, hnil⟩ := exists_swept s pid
  cases hun : t.unregister with
  | none => exact ⟨t, hr, heng, by simp [Locked, hnil, hun]⟩
  | some p =>
    have hs : step t (.unregister true) = some { t.unregistered p with unregister := none } := by
      simp only [step, hun, if_true]
    exact ⟨_, hr.tail (.unregister true) ⟨id, trivial⟩ hs, heng,
      by simp [Locked, unregistered, hnil]⟩

theorem exists_removed (hl : Monitor.Wf s.monitor) (hun : s.unregister = some pid) :
    ∃ s', step s (.unregister true) = some s' ∧ s'.engine = s.engine ∧
      ∀ entry ∈ s'.monitor, entry.pid ≠ pid := by
  refine ⟨{ s.unregistered pid with unregister := none }, ?_, rfl, ?_⟩
  · simp only [step, hun, if_true]
  · refine Monitor.not_listed_of_lookup ?_
    exact (Monitor.lookup_unregister hl pid pid).trans (if_pos rfl)

/-- The reaper updates the table and is about to unregister the pid. -/
theorem exists_found {j : Slot} {status : ℕ} (hlock : ¬s.Locked)
    (hmain : s.engine.main ≠ .returned) (hg : s.engine.reaper = .holding g)
    (hc : s.engine.child g = some ⟨pid, .reaped status⟩)
    (hfind : findContainerByPid s.engine.table pid = some j) :
    ∃ s', step s (.engine .reap) = some s' ∧ s'.engine = s.engine.recorded g pid status ∧
      s'.unregister = some pid := by
  refine ⟨s.moved .reap (s.engine.recorded g pid status), ?_, rfl, ?_⟩
  · have hblocked : ¬s.Blocked .reap := hlock
    rw [step, if_neg hblocked, Engine.step_reap hmain hg hc, Option.map_some]
  · change s.found = some pid
    simp only [found, hg, hc, Option.bind_some, hfind, Option.map_some]

/-- If the pid of a published child that is alive is in the reaper's hands, the reaper can remove
the entry for it. -/
theorem exists_unregistered {C : Host → HostEvent → Prop} {others : List ℤ} {i : Slot} {c : Child}
    (hr : Transition.Run step C (init others) s) (hmain : s.engine.main ≠ .returned)
    (hset : s.engine.Settled i h) (hc : s.engine.child h = some c) (halive : c.life = .alive)
    (hin : s.InHands c.pid) :
    ∃ s', Transition.Run step (Undisturbed c.pid) s s' ∧
      s'.engine.child h = some c ∧ ∀ entry ∈ s'.monitor, entry.pid ≠ c.pid := by
  have hre := engine_run hr
  rcases hin with hun | ⟨g, hg, c₀, hc₀, hp⟩
  · obtain ⟨s', hs, heng, hno⟩ := exists_removed (monitor_run hr).wf hun
    exact ⟨s', .tail (.unregister true) .refl ⟨id, trivial⟩ hs, heng ▸ hc, hno⟩
  · obtain ⟨pid, status, hc₀'⟩ := Engine.Held.of_run hre g hg
    obtain rfl := Option.some.inj (hc₀.symm.trans hc₀')
    obtain rfl : pid = c.pid := hp
    have w := Engine.Wf.of_run hre
    obtain ⟨-, c₁, hc₁, hpid⟩ := w.of_settled hset
    obtain rfl := Option.some.inj (hc.symm.trans hc₁)
    obtain ⟨j, hfind⟩ := exists_findContainerByPid (w.used_of_settled hset) hpid.symm
    have hgh : h ≠ g := by
      rintro rfl
      rw [Option.some.inj (hc.symm.trans hc₀)] at halive
      cases halive
    obtain ⟨t, ht, heng, hlock⟩ := exists_unlocked s c.pid
    rw [← heng] at hmain hg hc₀ hfind hc
    obtain ⟨u, hs, hrec, hun⟩ := exists_found hlock hmain hg hc₀ hfind
    have hru := ht.tail (HostEvent.engine .reap) ⟨id, trivial⟩ hs
    obtain ⟨s', hs', heng', hno⟩ := exists_removed (monitor_run (hr.always.trans hru.always)).wf hun
    refine ⟨s', hru.tail (.unregister true) ⟨id, trivial⟩ hs', ?_, hno⟩
    rw [heng', hrec]
    exact (Function.update_of_ne hgh _ _).trans hc

end Host

end Jackfruit
