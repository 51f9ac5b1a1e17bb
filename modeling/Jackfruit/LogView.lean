import Jackfruit.LogQueue

/-!
# The log buffer as its callers see it

A caller of the log buffer sees five things : the entry it has handed to a push that is not
through its section yet, the entry that a pop has taken out and not returned yet, the entries
pushed, the entries popped, and the shutdown flag. `LogView` is this view, and `ViewStep` what a
section can do to it : store a pending entry, refuse it after the shutdown, take an entry out, or
set the flag. Every step of the log system is one of these on its view, or the beginning or the
end of a call.
-/

set_option linter.unusedSectionVars false

namespace Jackfruit

/-- What the callers of a log buffer see. -/
@[ext]
structure LogView (P C : Type) where
  pending : P → Option LogEntry
  taken : C → Option LogEntry
  pushed : List LogEntry
  popped : List LogEntry
  shutdown : Bool

/-- What a section does to the view. -/
inductive ViewStep {P C : Type} [DecidableEq P] [DecidableEq C] (v : LogView P C) :
    LogView P C → Prop
  | same : ViewStep v v
  | stored (p : P) (entry : LogEntry) : v.pending p = some entry → v.shutdown = false →
      ViewStep v { v with
        pending := Function.update v.pending p none
        pushed := v.pushed ++ [entry] }
  | refused (p : P) : v.shutdown = true →
      ViewStep v { v with pending := Function.update v.pending p none }
  | took (c : C) (entry : LogEntry) : v.taken c = none →
      ViewStep v { v with
        taken := Function.update v.taken c (some entry)
        popped := v.popped ++ [entry] }

theorem ViewStep.of_eq {P C : Type} [DecidableEq P] [DecidableEq C] {v v' v'' : LogView P C}
    (h : ViewStep v v'') (heq : v' = v'') : ViewStep v v' :=
  heq ▸ h

/-- The sections of pushes and pops, and the spurious wake-ups. -/
def LogEvent.isSection {P C M : Type} : LogEvent P C M → Bool
  | .pushEnter _ _ | .popEnter _ _ | .wakeProducer _ | .wakeConsumer _ => true
  | _ => false

namespace LogSystem

variable {P C M : Type} [DecidableEq P] [DecidableEq C] [DecidableEq M]
  {s s' : LogSystem P C M} {p : P} {c : C}

/-- The entry of a call that has not left its section. -/
def pendingOf : CallPc LogEntry ℤ → Option LogEntry
  | .lock entry | .wait entry => some entry
  | _ => none

/-- The entry that a call has taken out. -/
def takenOf : CallPc Unit (Option LogEntry) → Option LogEntry
  | .unlock ret => ret
  | _ => none

/-- What the callers see. -/
def view (s : LogSystem P C M) : LogView P C where
  pending p := pendingOf (s.pushPc p)
  taken c := takenOf (s.popPc c)
  pushed := s.pushed
  popped := s.popped
  shutdown := s.buf.shutdown

theorem pendingOf_update (pc : CallPc LogEntry ℤ) :
    (fun q => pendingOf (Function.update s.pushPc p pc q)) =
      Function.update s.view.pending p (pendingOf pc) := by
  funext q
  rcases eq_or_ne q p with rfl | hq
  · simp
  · simp [hq, view]

theorem takenOf_update (pc : CallPc Unit (Option LogEntry)) :
    (fun d => takenOf (Function.update s.popPc c pc d)) =
      Function.update s.view.taken c (takenOf pc) := by
  funext d
  rcases eq_or_ne d c with rfl | hd
  · simp
  · simp [hd, view]

theorem pending_of_contends {entry : LogEntry}
    (h : contends s.pushPc s.notFull p = some entry) : s.view.pending p = some entry := by
  unfold contends at h
  change pendingOf (s.pushPc p) = some entry
  split at h
  · rename_i hpc
    simpa [hpc, pendingOf] using h
  · rename_i hpc
    split_ifs at h
    simpa [hpc, pendingOf] using h
  · cases h

theorem taken_of_contends (h : contends s.popPc s.notEmpty c = some ()) :
    s.view.taken c = none := by
  unfold contends at h
  change takenOf (s.popPc c) = none
  split at h
  · rename_i hpc
    rw [hpc]
    rfl
  · rename_i hpc
    rw [hpc]
    rfl
  · cases h

/-- A call that moves on with the same entry in its hands. -/
theorem view_pushPc {pc : CallPc LogEntry ℤ} (h : pendingOf pc = s.view.pending p) :
    (fun q => pendingOf (Function.update s.pushPc p pc q)) = s.view.pending :=
  (pendingOf_update pc).trans (Function.update_eq_self_iff.mpr h)

theorem view_popPc {pc : CallPc Unit (Option LogEntry)} (h : takenOf pc = s.view.taken c) :
    (fun d => takenOf (Function.update s.popPc c pc d)) = s.view.taken :=
  (takenOf_update pc).trans (Function.update_eq_self_iff.mpr h)

/-- A section is a step of the view. -/
theorem view_section {e : LogEvent P C M} (h : step s e = some s') (he : e.isSection = true) :
    ViewStep s.view s'.view := by
  cases step_cases h with
  | pushWait p w entry _ hentry =>
    have hp := pending_of_contends hentry
    exact ViewStep.same.of_eq (LogView.ext (view_pushPc hp.symm) rfl rfl rfl rfl)
  | pushRefused p w entry _ hentry hd =>
    exact (ViewStep.refused p hd).of_eq (LogView.ext (pendingOf_update _) rfl rfl rfl rfl)
  | pushStored p w entry _ hentry _ hd =>
    have hp := pending_of_contends hentry
    exact (ViewStep.stored p entry hp hd).of_eq
      (LogView.ext (pendingOf_update _) rfl rfl rfl rfl)
  | popWait c w _ hready =>
    have hc := taken_of_contends hready
    exact ViewStep.same.of_eq (LogView.ext rfl (view_popPc hc.symm) rfl rfl rfl)
  | popDrained c w _ hready =>
    have hc := taken_of_contends hready
    exact ViewStep.same.of_eq (LogView.ext rfl (view_popPc hc.symm) rfl rfl rfl)
  | popTaken c w _ hready =>
    have hc := taken_of_contends hready
    exact (ViewStep.took c s.buf.front hc).of_eq
      (LogView.ext rfl (takenOf_update _) rfl rfl rfl)
  | wakeProducer | wakeConsumer => exact .same
  | _ => cases he

/-- The beginning of a push. -/
theorem view_pushCall {entry : LogEntry} (h : step s (.pushCall p entry) = some s') :
    s.pushPc p = .idle ∧
      s'.view = { s.view with pending := Function.update s.view.pending p (some entry) } := by
  cases step_cases h with
  | pushCall p entry hpc => exact ⟨hpc, LogView.ext (pendingOf_update _) rfl rfl rfl rfl⟩

/-- The end of a push. -/
theorem view_pushReturn (h : step s (.pushReturn p) = some s') : s'.view = s.view := by
  cases step_cases h with
  | pushReturn p ret hpc =>
    have hp : s.view.pending p = none := by simp [view, hpc, pendingOf]
    exact LogView.ext (view_pushPc hp.symm) rfl rfl rfl rfl

/-- The beginning of a pop. -/
theorem view_popCall (h : step s (.popCall c) = some s') : s'.view = s.view := by
  cases step_cases h with
  | popCall c hpc =>
    have hc : s.view.taken c = none := by simp [view, hpc, takenOf]
    exact LogView.ext rfl (view_popPc hc.symm) rfl rfl rfl

/-- The end of a pop, which hands over what it took. -/
theorem view_popReturn (h : step s (.popReturn c) = some s') :
    ∃ ret, s.popPc c = .unlock ret ∧ s.view.taken c = ret ∧
      s'.view = { s.view with taken := Function.update s.view.taken c none } := by
  cases step_cases h with
  | popReturn c ret hpc =>
    refine ⟨ret, hpc, by simp [view, hpc, takenOf], ?_⟩
    exact LogView.ext rfl (takenOf_update _) rfl rfl rfl

/-- The section of `log_buffer_shutdown`. -/
theorem view_closeEnter {m : M} (h : step s (.closeEnter m) = some s') :
    s'.view = { s.view with shutdown := true } := by
  cases step_cases h with
  | closeEnter => rfl

/-- The calls to `log_buffer_shutdown` do not show outside their section. -/
theorem view_close {m : M} {e : LogEvent P C M} (he : e = .closeCall m ∨ e = .closeReturn m)
    (h : step s e = some s') : s'.view = s.view := by
  rcases he with rfl | rfl
  all_goals
    cases step_cases h
    rfl

/-- A pop begins with its call only. -/
theorem popPc_idle {e : LogEvent P C M} (h : step s e = some s') (he : e ≠ .popCall c)
    (hpc : s.popPc c = .idle) : s'.popPc c = .idle := by
  have key {d : C} {pc : CallPc Unit (Option LogEntry)} (hd : s.popPc d ≠ .idle) :
      Function.update s.popPc d pc c = .idle := by
    have hcd : c ≠ d := by
      rintro rfl
      exact hd hpc
    rwa [Function.update_of_ne hcd]
  have hready {d : C} (hd : contends s.popPc s.notEmpty d = some ()) : s.popPc d ≠ .idle := by
    intro hidle
    simp [contends, hidle] at hd
  cases step_cases h with
  | popCall d =>
    have hcd : c ≠ d := by
      rintro rfl
      exact he rfl
    exact (Function.update_of_ne hcd _ _).trans hpc
  | popWait d w _ hd | popDrained d w _ hd | popTaken d w _ hd => exact key (hready hd)
  | popReturn d ret hd => exact key (by simp [hd])
  | _ => exact hpc

/-! ## A pop that finds nothing -/

end LogSystem

/-- The shutdown is set and the ring is empty. -/
def LogState.Drained {P C : Type} (s : LogState P C) : Prop :=
  s.buf.shutdown = true ∧ s.buf.count = 0

/-- A drained ring stays drained. -/
theorem LogState.Drained.effect {P C : Type} [DecidableEq P] [DecidableEq C] {s s' : LogState P C}
    (hd : s.Drained) (he : Effect s s') : s'.Drained := by
  cases he with
  | pushStored p entry w hc hshut => simp [hd.1] at hshut
  | popTaken c w hc => exact absurd hd.2 hc
  | close => exact ⟨rfl, hd.2⟩
  | _ => exact hd

namespace LogSystem

variable {P C M : Type} [DecidableEq P] [DecidableEq C] [DecidableEq M]
  {s s' : LogSystem P C M} {p : P} {c : C}

theorem drained_step {e : LogEvent P C M} (hd : s.Drained) (h : step s e = some s') :
    s'.Drained := by
  rcases step_effect h with heq | heff
  · rwa [heq]
  · exact hd.effect heff

/-- A pop returns nothing only if the ring is drained. -/
theorem Reachable.drained (hs : Reachable s) (c : C) (hpc : s.popPc c = .unlock none) :
    s.Drained := by
  revert c
  refine Transition.Run.invariant (I := fun t => ∀ c, t.popPc c = .unlock none → t.Drained) hs
    (fun c hc => by simp [init] at hc) ?_
  intro t e u ht _ h c hc
  by_cases hold : t.popPc c = .unlock none
  · exact drained_step (ht c hold) h
  · -- Only the section of this pop can have made it return nothing.
    have key {d : C} {pc : CallPc Unit (Option LogEntry)}
        (hu : Function.update t.popPc d pc c = .unlock none) : pc = .unlock none := by
      rcases eq_or_ne c d with rfl | hcd
      · rwa [Function.update_self] at hu
      · rw [Function.update_of_ne hcd] at hu
        exact absurd hu hold
    cases step_cases h with
    | popDrained d w _ _ hcount hshut => exact ⟨hshut, hcount⟩
    | popWait | popTaken | popCall | popReturn => cases key hc
    | _ => exact absurd hc hold

/-- In a drained ring everything that was pushed has been popped. -/
theorem Reachable.popped_of_drained (hs : Reachable s) (hd : s.Drained) : s.popped = s.pushed := by
  have hq := hs.queue.content
  have hempty : s.buf.contents LOG_BUFFER_CAPACITY = [] := by
    rw [← List.length_eq_zero_iff, RingBuffer.length_contents]
    exact hd.2
  rwa [hempty, List.append_nil] at hq

end LogSystem

end Jackfruit
