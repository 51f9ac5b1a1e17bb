import Mathlib.Data.List.Induction
import Mathlib.Tactic.SplitIfs

/-!
# Runs of an event-driven machine

A machine is a partial step function `step : S → E → Option S` : `none` means that the
event cannot happen in that state. `Run step C s t` says that `t` is reached from `s` by
steps that all meet `C`, a condition on the state before the step and the event. With
`C` always true these are all runs; an assumption on the environment, or the condition
under which a property holds, is a smaller `C`.

`exec` plays a list of events and checks `C` at each of them, so that a concrete run is
a computation (`run_of_exec`).
-/

namespace Transition

variable {S E : Type*}

/-- `t` is reached from `s` by steps that all meet `C`. -/
inductive Run (step : S → E → Option S) (C : S → E → Prop) (s : S) : S → Prop
  | refl : Run step C s s
  | tail {t u : S} (e : E) : Run step C s t → C t e → step t e = some u → Run step C s u

/-- No condition on the steps. -/
def Always (_ : S) (_ : E) : Prop :=
  True

instance (s : S) (e : E) : Decidable (Always s e) :=
  inferInstanceAs (Decidable True)

variable {step : S → E → Option S} {C D : S → E → Prop} {s t u : S}

namespace Run

/-- What holds at the start and is kept by every step that meets `C` holds after every run. -/
theorem invariant {I : S → Prop} (h : Run step C s t) (h0 : I s)
    (hstep : ∀ t e u, I t → C t e → step t e = some u → I u) : I t := by
  induction h with
  | refl => exact h0
  | tail e _ hc hs ih => exact hstep _ e _ ih hc hs

/-- The step case may also use that the state before it was reached. -/
theorem invariant_of_reached {I : S → Prop} (h : Run step C s t) (h0 : I s)
    (hstep : ∀ t e u, Run step C s t → I t → C t e → step t e = some u → I u) : I t := by
  induction h with
  | refl => exact h0
  | tail e hr hc hs ih => exact hstep _ e _ hr ih hc hs

theorem mono (h : Run step C s t) (hCD : ∀ t e, C t e → D t e) : Run step D s t := by
  induction h with
  | refl => exact .refl
  | tail e _ hc hs ih => exact .tail e ih (hCD _ _ hc) hs

/-- Every run is a run without condition. -/
theorem always (h : Run step C s t) : Run step Always s t :=
  h.mono fun _ _ _ => trivial

theorem trans (h : Run step C s t) (h' : Run step C t u) : Run step C s u := by
  induction h' with
  | refl => exact h
  | tail e _ hc hs ih => exact .tail e ih hc hs

/-- A projection that sends every step to a step or to no change sends runs to runs. -/
theorem map {S' E' : Type*} {step' : S' → E' → Option S'} {D : S' → E' → Prop} (f : S → S')
    (hf : ∀ t e u, Run step C s t → C t e → step t e = some u →
      f u = f t ∨ ∃ e', D (f t) e' ∧ step' (f t) e' = some (f u))
    (h : Run step C s t) : Run step' D (f s) (f t) := by
  induction h with
  | refl => exact .refl
  | tail e hr hc hs ih =>
    rcases hf _ e _ hr hc hs with heq | ⟨e', hd, hs'⟩
    · rwa [heq]
    · exact .tail e' ih hd hs'

end Run

/-- Play the events in order; stop at one that cannot happen or does not meet `C`. -/
def exec (step : S → E → Option S) (C : S → E → Prop) [∀ s e, Decidable (C s e)] :
    S → List E → Option S
  | s, [] => some s
  | s, e :: es => if C s e then (step s e).bind fun t => exec step C t es else none

theorem run_of_exec [∀ s e, Decidable (C s e)] :
    ∀ {es : List E} {s t : S}, exec step C s es = some t → Run step C s t
  | [], s, t, h => by
    obtain rfl : s = t := by simpa [exec] using h
    exact .refl
  | e :: es, s, t, h => by
    unfold exec at h
    split_ifs at h with hc
    obtain ⟨u, hs, hu⟩ := Option.bind_eq_some_iff.mp h
    exact (Run.tail e .refl hc hs).trans (run_of_exec hu)

theorem exec_append [∀ s e, Decidable (C s e)] (es₁ es₂ : List E) (s : S) :
    exec step C s (es₁ ++ es₂) = (exec step C s es₁).bind fun t => exec step C t es₂ := by
  induction es₁ generalizing s with
  | nil => rfl
  | cons e es₁ ih =>
    rw [List.cons_append, exec, exec]
    split_ifs
    · rw [Option.bind_assoc]
      exact congrArg _ (funext ih)
    · rfl

/-- The last event of a play. -/
theorem exec_concat [∀ s e, Decidable (C s e)] {es : List E} {e : E}
    (h : exec step C s (es ++ [e]) = some u) :
    ∃ t, exec step C s es = some t ∧ C t e ∧ step t e = some u := by
  rw [exec_append] at h
  obtain ⟨t, ht, h⟩ := Option.bind_eq_some_iff.mp h
  rw [exec] at h
  split_ifs at h with hc
  obtain ⟨v, hv, h⟩ := Option.bind_eq_some_iff.mp h
  exact ⟨t, ht, hc, hv.trans h⟩

/-- An invariant of the events played so far and the state they lead to. -/
theorem exec_invariant [∀ s e, Decidable (C s e)] {I : List E → S → Prop} (h0 : I [] s)
    (hstep : ∀ es t e u, exec step C s es = some t → I es t → C t e → step t e = some u →
      I (es ++ [e]) u) {es : List E} (h : exec step C s es = some t) : I es t := by
  induction es using List.reverseRecOn generalizing t with
  | nil => exact Option.some.inj h ▸ h0
  | append_singleton es e ih =>
    obtain ⟨u, hu, hc, hs⟩ := exec_concat h
    exact hstep es u e t hu (ih hu) hc hs

/-- A play that succeeds with a checked property gives a run to a state with the property. -/
theorem exists_run_of_exec (step : S → E → Option S) (C : S → E → Prop)
    [∀ s e, Decidable (C s e)] (s : S) (es : List E) (p : S → Prop) [DecidablePred p]
    (h : (exec step C s es).any (fun t => decide (p t)) = true) :
    ∃ t, Run step C s t ∧ p t := by
  obtain ⟨t, ht, hp⟩ := (Option.any_eq_true _ _).mp h
  exact ⟨t, run_of_exec ht, of_decide_eq_true hp⟩

end Transition
