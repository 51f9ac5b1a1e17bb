import Jackfruit.Progress

/-!
# Machines with peers

Some events of a machine send to a peer, and a peer may go away at any time. A send to a peer that
has gone kills the machine : it takes no step any more. As long as no step sends to a peer that has
gone (`Sparing`) the machine runs as it would without peers : its runs and schedules are those of
the machine alone (`inner_run`, `exec_project`), and the machine's own schedules are its schedules
(`exec_inner`).
-/

set_option linter.unusedSectionVars false

namespace Transition

/-- A machine with the peers that have gone. -/
structure WithPeers (S ι : Type*) where
  inner : S
  gone : ι → Bool
  killed : Bool

/-- What happens next. -/
inductive PeerEvent (E ι : Type*)
  /-- A step of the machine. -/
  | inner (e : E)
  /-- A peer goes away. -/
  | leave (i : ι)

/-- The step of the machine in an event. -/
def PeerEvent.inner? {E ι : Type*} : PeerEvent E ι → Option E
  | .inner e => some e
  | .leave _ => none

namespace WithPeers

variable {S E ι : Type*} [DecidableEq ι]

/-- The machine before any peer has gone. -/
def init (s : S) : WithPeers S ι :=
  ⟨s, fun _ => false, false⟩

/-- One step, where `target` is the peer that an event sends to. -/
def step (step : S → E → Option S) (target : E → Option ι) (s : WithPeers S ι) :
    PeerEvent E ι → Option (WithPeers S ι)
  | .inner e =>
    if s.killed then none
    else (step s.inner e).map fun t =>
      if (target e).any s.gone then { s with killed := true } else { s with inner := t }
  | .leave i => some { s with gone := Function.update s.gone i true }

/-- A step of the machine that meets `C` and sends to nobody who has gone. -/
def Sparing (target : E → Option ι) (C : S → E → Prop) (s : WithPeers S ι) :
    PeerEvent E ι → Prop
  | .inner e => (target e).any s.gone = false ∧ C s.inner e
  | .leave _ => True

instance (target : E → Option ι) (C : S → E → Prop) [∀ s e, Decidable (C s e)]
    (s : WithPeers S ι) (e : PeerEvent E ι) : Decidable (Sparing target C s e) := by
  cases e <;> dsimp only [Sparing] <;> infer_instance

variable {step₀ : S → E → Option S} {target : E → Option ι} {C : S → E → Prop}
  {s t : WithPeers S ι} {e : E} {s₀ t₀ : S}

theorem step_inner (halive : s.killed = false) (hsafe : (target e).any s.gone = false) :
    step step₀ target s (.inner e) = (step₀ s.inner e).map fun t => { s with inner := t } := by
  simp [step, halive, hsafe]

/-- A step of the machine that sends to nobody who has gone. -/
theorem inner_step (hs : step step₀ target s (.inner e) = some t)
    (hsafe : (target e).any s.gone = false) :
    s.killed = false ∧ step₀ s.inner e = some t.inner ∧ t.killed = false := by
  cases halive : s.killed with
  | true => simp [step, halive] at hs
  | false =>
    rw [step_inner halive hsafe] at hs
    obtain ⟨t, ht, rfl⟩ := Option.map_eq_some_iff.mp hs
    exact ⟨rfl, ht, halive⟩

/-- The machine runs as it does alone, and is alive. -/
theorem inner_run (hr : Run (step step₀ target) (Sparing target C) (init s₀) s) :
    Run step₀ C s₀ s.inner ∧ s.killed = false := by
  induction hr with
  | refl => exact ⟨.refl, rfl⟩
  | tail e _ hc hs ih =>
    cases e with
    | leave i =>
      cases hs
      exact ih
    | inner e =>
      obtain ⟨-, hstep, halive⟩ := inner_step hs hc.1
      exact ⟨.tail e ih.1 hc.2 hstep, halive⟩

/-- A step that can be taken alone can be taken by a machine that is alive. -/
theorem isSome_step (halive : s.killed = false) (hs : (step₀ s.inner e).isSome = true) :
    (step step₀ target s (.inner e)).isSome = true := by
  simpa [step, halive] using hs

variable [∀ s e, Decidable (C s e)] {es : List (PeerEvent E ι)} {es₀ : List E}

/-- The steps of the machine in a schedule are a schedule of it alone. -/
theorem exec_project (h : exec (step step₀ target) (Sparing target C) s es = some t) :
    exec step₀ C s.inner (es.filterMap PeerEvent.inner?) = some t.inner := by
  induction es generalizing s with
  | nil =>
    obtain rfl : s = t := by simpa [exec] using h
    rfl
  | cons e es ih =>
    obtain ⟨hc, u, hu, hrest⟩ := exec_cons.mp h
    have hproject := ih hrest
    cases e with
    | leave i =>
      cases hu
      exact hproject
    | inner e => exact exec_cons.mpr ⟨hc.2, u.inner, (inner_step hu hc.1).2.1, hproject⟩

/-- A schedule of the machine alone that sends to nobody who has gone. -/
theorem exec_inner (halive : s.killed = false) (hsafe : ∀ e ∈ es₀, (target e).any s.gone = false)
    (h : exec step₀ C s.inner es₀ = some t₀) :
    exec (step step₀ target) (Sparing target C) s (es₀.map .inner) =
      some { s with inner := t₀ } := by
  induction es₀ generalizing s with
  | nil =>
    obtain rfl : s.inner = t₀ := by simpa [exec] using h
    rfl
  | cons e es ih =>
    obtain ⟨hc, u, hu, h⟩ := exec_cons.mp h
    obtain ⟨he, hes⟩ := List.forall_mem_cons.mp hsafe
    refine exec_cons.mpr ⟨⟨he, hc⟩, { s with inner := u }, ?_, ih halive hes h⟩
    rw [step_inner halive he, hu, Option.map_some]

end WithPeers

end Transition
