import Jackfruit.LogFlow

/-!
# Draining the log buffer

Once `log_buffer_shutdown` has set the flag, nothing joins the ring any more and every pop takes
one of the entries that are left. `LogState.Draining` says that what has been pushed is fixed, and
that the entries popped and those still stored are as many as they were; it is kept by every
effect. Nobody sleeps by then, so a pop either takes an entry or finds the ring drained and
returns `-1`. The loop of `log_consumer_main` ends with such a pop, and everything that was ever
pushed has been popped by then (`log_shutdown_drains`).
-/

set_option linter.unusedSectionVars false

namespace Jackfruit

/-- The flag is set, `pushed` is all that was ever pushed, and `n` entries have been popped or are
left. -/
structure LogState.Draining {P C : Type} (pushed : List LogEntry) (n : ℕ) (s : LogState P C) :
    Prop where
  shutdown : s.buf.shutdown = true
  pushed_eq : s.pushed = pushed
  left : s.popped.length + s.buf.count = n

theorem LogState.Draining.effect {P C : Type} [DecidableEq P] [DecidableEq C]
    {pushed : List LogEntry} {n : ℕ} {s s' : LogState P C} (d : s.Draining pushed n)
    (he : Effect s s') : s'.Draining pushed n := by
  cases he with
  | pushWait p hc hd => exact absurd (d.shutdown.symm.trans hd) (by simp)
  | pushStored p entry w hc hd => exact absurd (d.shutdown.symm.trans hd) (by simp)
  | popTaken c w hc =>
    refine ⟨d.shutdown, d.pushed_eq, ?_⟩
    have hleft := d.left
    show (s.popped ++ [s.buf.front]).length + (s.buf.count - 1) = n
    rw [List.length_append, List.length_singleton]
    omega
  | close => exact ⟨rfl, d.pushed_eq, d.left⟩
  | _ => exact ⟨d.shutdown, d.pushed_eq, d.left⟩

namespace LogSystem

variable {P C M : Type} [DecidableEq P] [DecidableEq C] [DecidableEq M] {s s' : LogSystem P C M}

/-- From the flag on the ring drains. -/
theorem draining_run (hd : s.buf.shutdown = true)
    (hr : Transition.Run step Transition.Always s s') :
    s'.Draining s.pushed (s.popped.length + s.buf.count) := by
  refine hr.invariant (I := fun t => t.Draining s.pushed (s.popped.length + s.buf.count))
    ⟨hd, rfl, rfl⟩ fun t e u d _ hs => ?_
  rcases step_effect hs with heq | heff
  · rwa [heq]
  · exact d.effect heff

/-- A drained ring stays drained. -/
theorem drained_run (hd : s.Drained) (hr : Transition.Run step Transition.Always s s') :
    s'.Drained :=
  hr.invariant (I := fun t => t.Drained) hd fun _ _ _ ht _ hs => drained_step ht hs

/-- With the flag set, a push that gets the mutex returns `-1`. -/
theorem pushEnter_refused {p : P} {w : Option C} (hd : s.buf.shutdown = true)
    (h : step s (.pushEnter p w) = some s') : s'.pushPc p = .unlock (-1) := by
  cases step_pushEnter h with
  | pushWait _ _ _ _ _ _ hd' => exact absurd (hd.symm.trans hd') (by simp)
  | pushRefused => exact Function.update_self _ _ _
  | pushStored _ _ _ _ _ _ hd' => exact absurd (hd.symm.trans hd') (by simp)

/-- From the moment the flag is set, no push is accepted, nobody sleeps on `not_empty`, and at
most the entries then in the ring are popped. A pop that returns `-1` leaves a ring that is shut
down and empty, and from then on the entries popped are the entries pushed, in order; so they are
when the consumer thread of the supervisor has left its loop. -/
theorem log_shutdown_drains (hs : Reachable s) :
    (s.buf.shutdown = true → s.buf.count ≤ LOG_BUFFER_CAPACITY ∧
        ∀ s', Transition.Run step Transition.Always s s' →
          s'.buf.shutdown = true ∧ s'.pushed = s.pushed ∧
          (∀ p w t, step s' (.pushEnter p w) = some t → t.pushPc p = .unlock (-1)) ∧
          s'.popped.length ≤ s.popped.length + s.buf.count ∧ s'.notEmpty.asleep = ∅) ∧
      (∀ c, s.popPc c = .unlock none → s.buf.shutdown = true ∧ s.buf.count = 0 ∧
        ∀ s', Transition.Run step Transition.Always s s' → s'.popped = s'.pushed) ∧
      ∀ (F : Type) [DecidableEq F] (resolve : CStr → F) (files : F → List UInt8) (t : Pipeline F),
        Transition.Run (Pipeline.step resolve) Transition.Always (Pipeline.init files) t →
          t.consumer = .finished → t.logs.Drained ∧ t.logs.popped = t.logs.pushed := by
  refine ⟨fun hd => ⟨hs.queue.wf.count_le, fun s' hr => ?_⟩, fun c hpc => ?_,
    fun F _ resolve files t hr hfin => Pipeline.consumer_finished hr hfin⟩
  · have d := draining_run hd hr
    have hs' : Reachable s' := Transition.Run.trans hs hr
    refine ⟨d.shutdown, d.pushed_eq, fun p w t ht => pushEnter_refused d.shutdown ht, ?_, ?_⟩
    · have hleft := d.left
      omega
    · exact (hs'.awake.shut d.shutdown).2
  · have hdrained := hs.drained c hpc
    refine ⟨hdrained.1, hdrained.2, fun s' hr => ?_⟩
    have hs' : Reachable s' := Transition.Run.trans hs hr
    exact hs'.popped_of_drained (drained_run hdrained hr)

/-- A producer pushes one entry, the flag is set, and the consumer pops until it gets `-1`. -/
theorem log_shutdown_drains_one : ∃ s : LogSystem Unit Unit Unit,
    s.popPc () = .unlock none ∧ s.pushed.length = 1 ∧ s.popped = s.pushed := by
  obtain ⟨s, hs, hpc, hp⟩ := Transition.exists_run_of_exec step Transition.Always
    (init : LogSystem Unit Unit Unit)
    [.pushCall () LogEntry.zero, .pushEnter () none, .pushReturn (), .closeCall (),
      .closeEnter (), .closeReturn (), .popCall (), .popEnter () none, .popReturn (),
      .popCall (), .popEnter () none]
    (fun s => s.popPc () = .unlock none ∧ s.pushed.length = 1) (by decide)
  exact ⟨s, hpc, hp, ((log_shutdown_drains hs).2.1 () hpc).2.2 s .refl⟩

end LogSystem

end Jackfruit
