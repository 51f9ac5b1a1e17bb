import Jackfruit.Stopping

/-!
# A stop that is refused

`stop_container_by_id` refuses an id that is unknown or not running before it touches the table.
If its `kill` fails it answers `ok=0` too, but by then it has set `stop_requested` and let go of
the mutex, and it does not take the flag back. A container that ended by itself is then recorded
as STOPPED (`refused_stop_recorded`).
-/

set_option linter.unusedSectionVars false

namespace Jackfruit

namespace Engine

variable {s s₁ s₂ s₃ : Engine} {h : ℕ} {err : Option CStr}

/-- The stop request of `h`, from `s` through its section to `s₁` and from `s₂` through its `kill`
to `s₃`, has no effect if it is refused : the table is as it was, and so is what the reaper makes
of any wait status. -/
def RefusedWithoutEffect (s s₁ s₂ s₃ : Engine) (h : ℕ) : Prop :=
  (s₃.handler h).resp.ok = false →
    s₁.table = s.table ∧ s₃.table = s₂.table ∧
      ∀ i status, reapState (s₁.table i).stopRequested status =
        reapState (s.table i).stopRequested status

/-- A stop request that gets the mutex is refused and changes no slot, or has found a live slot
and is about to signal its pid. -/
theorem stopEnter_cases (hs : step s (.stopEnter h) = some s₁) :
    (s₁.handler h).pc = .send ∧ (s₁.handler h).resp.ok = false ∧ s₁.table = s.table ∨
      ∃ i, findContainerByIdLocked s.table (s.req h).id = some i ∧
        isLiveState (s.table i).state = true ∧
        (s₁.handler h).pc = .stopKill i (s.table i).pid ∧
        s₁.table = Function.update s.table i (s.table i).requestStop := by
  replace hs := (step_next hs).2
  simp only [next, handlerStep] at hs
  split at hs
  · obtain rfl := Option.some.inj hs
    exact Or.inl ⟨by simp [respond, setHandler], by simp [respond, setHandler, setResponse], rfl⟩
  · rename_i i hpc hfind
    split_ifs at hs with hlive
    · obtain rfl := Option.some.inj hs
      exact Or.inr ⟨i, hfind, hlive, by simp [setPc, setHandler], rfl⟩
    · obtain rfl := Option.some.inj hs
      exact Or.inl ⟨by simp [respond, setHandler], by simp [respond, setHandler, setResponse], rfl⟩
  · cases hs

/-- The `kill` of a stop request changes no slot, and its result is the answer. -/
theorem stopKill_spec (hs : step s (.stopKill h err) = some s₁) :
    (s₁.handler h).resp.ok = err.isNone ∧ s₁.table = s.table := by
  replace hs := (step_next hs).2
  simp only [next, handlerStep] at hs
  split at hs
  · obtain rfl := Option.some.inj hs
    refine ⟨?_, rfl⟩
    cases err <;> simp [respond, setHandler, setResponse]
  · cases hs

theorem requestStop_eq_iff {c : Container} : c.requestStop = c ↔ c.stopRequested = true := by
  refine ⟨fun heq => ?_, fun hstop => ?_⟩
  · rw [← heq]
    rfl
  · cases c
    obtain rfl : _ = true := hstop
    rfl

/-- Every stop request is refused at once, with the table as it was, or comes to its `kill`; and
then, whatever the other threads do in between, it has no effect if refused exactly when its
`kill` succeeds or a stop had already been requested for the slot. -/
theorem refused_stop_iff (hs : step s (.stopEnter h) = some s₁) :
    (s₁.handler h).pc = .send ∧ (s₁.handler h).resp.ok = false ∧ s₁.table = s.table ∨
      ∃ i, findContainerByIdLocked s.table (s.req h).id = some i ∧
        (s₁.handler h).pc = .stopKill i (s.table i).pid ∧
        ∀ s₂ s₃ err, Transition.Run step Transition.Always s₁ s₂ →
          step s₂ (.stopKill h err) = some s₃ →
            (RefusedWithoutEffect s s₁ s₂ s₃ h ↔
              err = none ∨ (s.table i).stopRequested = true) := by
  refine (stopEnter_cases hs).imp_right ?_
  rintro ⟨i, hfind, -, hpc, htable⟩
  refine ⟨i, hfind, hpc, fun s₂ s₃ err _ hkill => ?_⟩
  obtain ⟨hok, hsame⟩ := stopKill_spec hkill
  have hkept : s₁.table = s.table ↔ (s.table i).stopRequested = true := by
    rw [htable, Function.update_eq_self_iff, requestStop_eq_iff]
  cases err with
  | none => simp [RefusedWithoutEffect, hok]
  | some text =>
    simp only [reduceCtorEq, false_or]
    refine ⟨fun hno => hkept.mp (hno hok).1, fun hstop _ => ?_⟩
    have heq := hkept.mpr hstop
    exact ⟨heq, hsame, fun j status => by rw [heq]⟩

/-- A stop request up to its critical section. -/
def playStop (h : ℕ) (id : String) : List Event :=
  [.loopTest, .accept h, .recv h ⟨REQ_STOP, cstr id, [], [], 40, 64, 0⟩]

/-- A second stop request for a container, whose `kill` fails because the child has been waited
for. -/
theorem refused_stop_iff_again : ∃ s s₁ s₂ : Engine, (s.table 0).stopRequested = true ∧
    (s₂.handler 2).resp.ok = false ∧ RefusedWithoutEffect s s₁ s₁ s₂ 2 := by
  obtain ⟨s, -, hstop, hs⟩ := Transition.exists_run_of_exec step Transition.Always init
    (playClone 0 REQ_START "a" 7 ++ playPublish 0 ++ playStop 1 "a" ++
      [.stopEnter 1, .stopKill 1 none, .exit 0 15, .waitpid 0] ++ playStop 2 "a")
    (fun s => (s.table 0).stopRequested = true ∧
      (((step s (.stopEnter 2)).bind fun s₁ => (step s₁ (.stopKill 2 (some []))).map
        fun s₂ => ((s₁.handler 2).pc, s₂)).any fun p =>
          p.1 = .stopKill 0 7 ∧ (p.2.handler 2).resp.ok = false) = true) (by decide)
  obtain ⟨⟨pc, s₂⟩, hp, hok⟩ := (Option.any_eq_true _ _).mp hs
  obtain ⟨s₁, hs₁, hmap⟩ := Option.bind_eq_some_iff.mp hp
  obtain ⟨t, hs₂, heq⟩ := Option.map_eq_some_iff.mp hmap
  obtain ⟨rfl, rfl⟩ := Prod.mk.inj heq
  obtain ⟨hpc, hresp⟩ := of_decide_eq_true hok
  rcases refused_stop_iff hs₁ with ⟨hsend, -⟩ | ⟨i, -, hpc', hiff⟩
  · exact absurd (hpc.symm.trans hsend) (by simp)
  · obtain ⟨rfl, -⟩ := Pc.stopKill.inj (hpc.symm.trans hpc')
    exact ⟨s, s₁, t, hstop, hresp, (hiff s₁ t (some []) .refl hs₂).mpr (Or.inr hstop)⟩

/-- A container exits by itself, and the reaper has waited for it; a stop request comes, its
`kill` fails and it answers `ok=0`. The reaper records STOPPED, and without the request it would
have recorded EXITED. -/
theorem refused_stop_recorded : ∃ s s₁ s₂ s₃ t : Engine, s.Reachable ∧
    step s (.stopEnter 1) = some s₁ ∧ step s₁ (.stopKill 1 (some [])) = some s₂ ∧
      (s₂.handler 1).resp.ok = false ∧ s₁.table ≠ s.table ∧
      step s₂ .reap = some s₃ ∧ (s₃.table 0).state = .stopped ∧
      step s .reap = some t ∧ (t.table 0).state = .exited := by
  obtain ⟨s, hr, hs⟩ := Transition.exists_run_of_exec step Transition.Always init
    (playClone 0 REQ_START "a" 7 ++ playPublish 0 ++ [.exit 0 0, .waitpid 0] ++ playStop 1 "a")
    (fun s => ((step s (.stopEnter 1)).any fun s₁ =>
      (step s₁ (.stopKill 1 (some []))).any fun s₂ => (step s₂ .reap).any fun s₃ =>
        (step s .reap).any fun t => (s₂.handler 1).resp.ok = false ∧
          (s₁.table 0).stopRequested ≠ (s.table 0).stopRequested ∧
          (s₃.table 0).state = .stopped ∧ (t.table 0).state = .exited) = true) (by decide)
  obtain ⟨s₁, hs₁, hs⟩ := (Option.any_eq_true _ _).mp hs
  obtain ⟨s₂, hs₂, hs⟩ := (Option.any_eq_true _ _).mp hs
  obtain ⟨s₃, hs₃, hs⟩ := (Option.any_eq_true _ _).mp hs
  obtain ⟨t, ht, hs⟩ := (Option.any_eq_true _ _).mp hs
  obtain ⟨hok, hflag, hstopped, hexited⟩ := of_decide_eq_true hs
  refine ⟨s, s₁, s₂, s₃, t, hr, hs₁, hs₂, hok, fun heq => hflag ?_, hs₃, hstopped, ht, hexited⟩
  rw [heq]

end Engine

end Jackfruit
