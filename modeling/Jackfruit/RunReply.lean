import Jackfruit.Reaping

/-!
# What a run request answers

A run handler waits on its slot's `state_cv` while the slot is live, and answers with the record
it finds there. `Answered` says that this record is the one of its own container, and
`awake_of_final` that nobody sleeps on a final slot.

The record can be another child's : a pid that the reaper holds may be given to the child of a
run request before the reaper has looked for its slot (`run_reports_other_end`).
-/

set_option linter.unusedSectionVars false

namespace Jackfruit

/-- The end of `main` in a client that has its reply. -/
def clientMain (req : Request) (resp : Response) : ℤ :=
  if resp.ok = false then 1
  else if req.type = REQ_RUN ∧ resp.exitCode ≥ 0 then resp.exitCode
  else 0

/-- The exit status of a process whose `main` returns `ret`. -/
def exitStatus (ret : ℤ) : ℤ :=
  ret % 256

theorem reapExitCode_bounds {status : ℕ} (h : (wifexited status || wifsignaled status) = true) :
    0 ≤ reapExitCode status ∧ reapExitCode status < 256 := by
  unfold reapExitCode wexitstatus wtermsig
  unfold wifexited wifsignaled at *
  split_ifs with hexit hsig
  · omega
  · simp only [Bool.and_eq_true, decide_eq_true_eq] at hsig
    omega
  · simp_all

/-- The exit code of a child that has ended. -/
theorem reapExitCode_cases {status : ℕ} (h : (wifexited status || wifsignaled status) = true) :
    wifexited status = true ∧ reapExitCode status = wexitstatus status ∨
      wifsignaled status = true ∧ reapExitCode status = 128 + wtermsig status := by
  rw [reapExitCode]
  split_ifs with hexit hsig
  · exact Or.inl ⟨hexit, rfl⟩
  · exact Or.inr ⟨hsig, rfl⟩
  · simp [hexit, hsig] at h

/-- Has its response, or never had a request. -/
def Pc.Answered (pc : Pc) : Prop :=
  pc = .send ∨ pc = .closed

/-- At work on another request than a start or a run. -/
def Pc.Other (pc : Pc) : Prop :=
  pc = .read ∨ pc = .stop ∨ ∃ i pid, pc = .stopKill i pid

namespace Engine

variable {s s' : Engine} {e : Event} {i j : Slot} {g h : ℕ} {pid : ℤ}

/-! ## No missed wake-up -/

/-- Whoever sleeps on a slot sleeps on a live one. -/
def SleepersLive (s : Engine) : Prop :=
  ∀ i h, h ∈ (s.table i).stateCv.asleep → isLiveState (s.table i).state = true

theorem SlotStep.sleepers {c : Container} (hs : SlotStep s e i c)
    (hi : ∀ h, h ∈ (s.table i).stateCv.asleep → isLiveState (s.table i).state = true)
    (hh : h ∈ c.stateCv.asleep) : isLiveState c.state = true := by
  cases hs with
  | waiters cv hcv => exact (hcv h hh).elim (hi h) id
  | reserve | publish => rfl
  | reap => simp [Container.reap] at hh
  | same | stop | release => exact hi h hh

/-- In every reachable state nobody is asleep on a slot whose state is final. -/
theorem awake_of_final {C : Engine → Event → Prop} (hr : Transition.Run Engine.step C init s)
    (hfin : (s.table i).state.Final) : (s.table i).stateCv.asleep = ∅ := by
  have hlive : SleepersLive s := by
    refine hr.invariant (fun i h hh => by simp [init, initContainers, Container.init] at hh) ?_
    exact fun t e u ht _ hs i h hh => (step_slot (step_effect hs) i).sleepers (ht i) hh
  refine Finset.eq_empty_of_forall_notMem fun h hh => ?_
  exact not_final_of_isLiveState (hlive i h hh) hfin

/-! ## The answer -/

/-- The wait statuses are of exits and deaths by signal. -/
def StatusOk (s : Engine) : Prop :=
  ∀ h c status, s.child h = some c → c.life.status = some status →
    (wifexited status || wifsignaled status) = true

theorem StatusOk.of_run {C : Engine → Event → Prop} (hr : Transition.Run Engine.step C init s) :
    StatusOk s := by
  refine hr.invariant (fun h c status hc => by simp [init] at hc) ?_
  intro t e u ok _ hs h c status hc hst
  have hstep := step_child (step_effect hs) h
  rw [hc] at hstep
  generalize ho : some c = o at hstep
  cases hstep with
  | same => exact ok h c status ho.symm hst
  | clone =>
    obtain rfl := Option.some.inj ho
    cases hst
  | exit pid st _ hok =>
    obtain rfl := Option.some.inj ho
    exact Option.some.inj hst ▸ hok
  | waitpid pid st _ hc₀ | reap pid st _ _ hc₀ =>
    obtain rfl := Option.some.inj ho
    exact ok h _ status hc₀ hst

/-- What the handlers know about their requests and responses. -/
structure Replies (s : Engine) : Prop where
  early : ∀ h, (s.handler h).pc = .absent ∨ (s.handler h).pc = .recv →
    (s.handler h).resp.ok = false
  other : ∀ h, Pc.Other (s.handler h).pc → (s.req h).type ≠ REQ_RUN
  answered : ∀ h, Pc.Answered (s.handler h).pc → (s.req h).type = REQ_RUN →
    (s.handler h).resp.ok = true →
      ∃ i, s.Settled i h ∧ (s.table i).state.Final ∧
        (s.handler h).resp = runResponse (s.req h) (s.table i)

theorem dispatch_other {req : Request} (h : Pc.Other (dispatch req)) : req.type ≠ REQ_RUN := by
  intro htype
  simp [dispatch, htype, REQ_START, REQ_RUN, Pc.Other] at h

theorem HandlerStep.early {hd : Handler} (hs : HandlerStep s e h hd) (p : Replies s)
    (hpc : hd.pc = .absent ∨ hd.pc = .recv) : hd.resp.ok = false := by
  cases hs with
  | same => exact p.early h hpc
  | move hd hm =>
    cases hm with
    | accept hpc₀ => exact p.early h (Or.inl hpc₀)
    | syscall pc hm =>
      obtain ⟨j, hj⟩ := hm.exists_reserved
      rcases hpc with rfl | rfl <;> cases hj
    | _ => simp at hpc
  | recv req resp he hpc₀ hok => exact hok
  | register =>
    simp only at hpc
    split_ifs at hpc <;> simp at hpc
  | _ => simp at hpc

theorem HandlerStep.other {hd : Handler} (hs : HandlerStep s e h hd) (p : Replies s)
    (hpc : Pc.Other hd.pc) : hd.req.type ≠ REQ_RUN := by
  cases hs with
  | same => exact p.other h hpc
  | move hd hm =>
    cases hm with
    | syscall pc hm =>
      obtain ⟨j, hj⟩ := hm.exists_reserved
      rcases hpc with rfl | rfl | ⟨i, pid, rfl⟩ <;> cases hj
    | _ => simp [Pc.Other] at hpc
  | recv req resp => exact dispatch_other hpc
  | register =>
    simp only at hpc
    split_ifs at hpc <;> simp [Pc.Other] at hpc
  | stopEnter idx he hpc₀ => exact p.other h (Or.inr (Or.inl hpc₀))
  | _ => simp [Pc.Other] at hpc

/-- A handler with a response to a run request got it before this step, or from the record of
its final slot. -/
theorem HandlerStep.answered {hd : Handler} (hs : HandlerStep s e h hd) (p : Replies s) (w : Wf s)
    (hpc : Pc.Answered hd.pc) (htype : hd.req.type = REQ_RUN) (hok : hd.resp.ok = true) :
    ∃ i, s.Settled i h ∧ (s.table i).state.Final ∧
      hd.resp = runResponse hd.req (s.table i) := by
  cases hs with
  | same => exact p.answered h hpc htype hok
  | move hd hm =>
    cases hm with
    | accept => simp [Pc.Answered] at hpc
    | hangup hpc₀ => simp [p.early h (Or.inr hpc₀)] at hok
    | syscall pc hm =>
      obtain ⟨j, hj⟩ := hm.exists_reserved
      rcases hpc with rfl | rfl <;> cases hj
    | refused => simp [setResponse] at hok
    | read resp hpc₀ => exact absurd htype (p.other h (Or.inl hpc₀))
    | send hpc₀ => exact p.answered h (Or.inl hpc₀) htype hok
  | recv req resp he hpc₀ hfalse => simp [hfalse] at hok
  | rollback => simp [setResponse] at hok
  | register idx pid resp hpc₀ =>
    simp only at hpc htype
    rw [if_pos htype] at hpc
    simp [Pc.Answered] at hpc
  | runDone idx hready hlive =>
    have hi : s.Settled idx h := w.published h idx (by
      rcases runReady_spec hready with hpc₀ | hpc₀ <;> rw [hpc₀] <;> rfl)
    refine ⟨idx, hi, ?_, rfl⟩
    rcases (w.of_settled hi).1 with hrun | hfin
    · simp [hrun, isLiveState] at hlive
    · exact hfin
  | stopKill idx pid resp hpc₀ =>
    exact absurd htype (p.other h (Or.inr (Or.inr ⟨idx, pid, hpc₀⟩)))
  | _ => simp [Pc.Answered] at hpc

theorem Replies.step (p : Replies s) (w : Wf s) (f : FirstOfPid s) (r : Recorded s)
    (hs : Effect s e s') (hc : ReapPublished s e) : Replies s' := by
  refine ⟨fun h => (step_handler hs h).early p, fun h => (step_handler hs h).other p,
    fun h hpc htype hok => ?_⟩
  obtain ⟨i, hi, hfin, hresp⟩ := (step_handler hs h).answered p w hpc htype hok
  obtain ⟨hst, hexit⟩ := r.final_step w f hs hc hi hfin
  refine ⟨i, (w.settled_step hs hi).1, hst ▸ hfin, ?_⟩
  rw [hresp, runResponse, runResponse, hst, hexit]

/-- The published pids are found first, and the reaper handles no other child with one. -/
def ReapFound (s : Engine) (e : Event) : Prop :=
  PublishFirst s e ∧ ReapPublished s e

instance (s : Engine) (e : Event) : Decidable (ReapFound s e) :=
  inferInstanceAs (Decidable (_ ∧ _))

theorem Replies.of_run (hr : Transition.Run Engine.step ReapFound init s) : Replies s := by
  refine hr.invariant_of_reached ⟨fun _ _ => rfl, fun h hpc => ?_, fun h hpc => ?_⟩ ?_
  · simp [init, Handler.init, Pc.Other] at hpc
  · simp [init, Handler.init, Pc.Answered] at hpc
  · intro t e u ht p hc hs
    have f := FirstOfPid.of_run ht fun _ _ h => h.1
    exact p.step (Wf.of_run ht) f (Recorded.of_run ht fun _ _ h => h) (step_effect hs) hc.2

/-- If the published pids are found first, and the reaper handles no other child with one, then a
run request that is answered with `ok` is answered after the reaper handled the child that this
request cloned, with the exit code and state of that child's wait status, and the client exits
with this code. Nobody is ever asleep on the condition variable of a final slot. -/
theorem run_reports_own_end (hr : Transition.Run step ReapFound init s) :
    (∀ h, (s.req h).type = REQ_RUN → (s.handler h).resp.ok = true →
        (s.handler h).pc = .send ∨ (s.handler h).pc = .closed →
        ∃ i pid status, s.owner i = some h ∧
          s.child h = some ⟨pid, .handled status (some (i, (s.table i).state))⟩ ∧
          (wifexited status = true ∧ (s.handler h).resp.exitCode = wexitstatus status ∨
            wifsignaled status = true ∧ (s.handler h).resp.exitCode = 128 + wtermsig status) ∧
          (s.handler h).resp = runResponse (s.req h) (s.table i) ∧
          exitStatus (clientMain (s.req h) (s.handler h).resp) = (s.handler h).resp.exitCode) ∧
      ∀ i, (s.table i).state.Final → (s.table i).stateCv.asleep = ∅ := by
  refine ⟨fun h htype hok hpc => ?_, fun i => awake_of_final hr⟩
  obtain ⟨i, hi, hfin, hresp⟩ := (Replies.of_run hr).answered h hpc htype hok
  obtain ⟨pid, status, hchild, hcode⟩ := Recorded.of_run hr (fun _ _ h => h) i h hi hfin
  have hst := StatusOk.of_run hr h _ status hchild rfl
  have hexit : (s.handler h).resp.exitCode = reapExitCode status := by
    rw [hresp]
    exact hcode
  refine ⟨i, pid, status, hi.1, hchild, ?_, hresp, ?_⟩
  · rw [hexit]
    exact reapExitCode_cases hst
  · obtain ⟨hlo, hhi⟩ := reapExitCode_bounds hst
    have hmain : clientMain (s.req h) (s.handler h).resp = reapExitCode status := by
      rw [clientMain, if_neg (by simp [hok]), hexit, if_pos ⟨htype, hlo⟩]
    rw [hmain, hexit, exitStatus, Int.emod_eq_of_lt hlo hhi]

/-- A run request whose container exits with status 3. -/
theorem run_reports_own_end_one : ∃ s : Engine, (s.handler 0).resp.exitCode = 3 ∧
    ∃ i pid status, s.owner i = some 0 ∧
      s.child 0 = some ⟨pid, .handled status (some (i, (s.table i).state))⟩ := by
  obtain ⟨s, hr, htype, hok, hpc, hcode⟩ := Transition.exists_run_of_exec step ReapFound init
    (playClone 0 REQ_RUN "a" 7 ++ playPublish 0 ++
      [.runEnter 0, .exit 0 768, .waitpid 0, .reap, .runEnter 0])
    (fun s => (s.req 0).type = REQ_RUN ∧ (s.handler 0).resp.ok = true ∧
      (s.handler 0).pc = .send ∧ (s.handler 0).resp.exitCode = 3) (by decide)
  obtain ⟨i, pid, status, ho, hchild, -⟩ := (run_reports_own_end hr).1 0 htype hok (Or.inl hpc)
  exact ⟨s, hcode, i, pid, status, ho, hchild⟩

/-- The reaper holds the child of a start that has not published its pid, and the pid goes to the
child of a run request, which is published first. No used slot records a pid that is reissued,
and the run request is answered while its child is alive. -/
theorem run_reports_other_end : ∃ s : Engine, Transition.Run step NoReissue init s ∧
    (s.req 1).type = REQ_RUN ∧ (s.handler 1).resp.ok = true ∧ (s.handler 1).pc = .send ∧
      s.child 1 = some ⟨7, .alive⟩ :=
  Transition.exists_run_of_exec step NoReissue init
    (playClone 0 REQ_START "a" 7 ++ [.exit 0 0, .waitpid 0] ++ playClone 1 REQ_RUN "b" 7 ++
      playPublish 1 ++ [.runEnter 1, .reap, .runEnter 1])
    (fun s => (s.req 1).type = REQ_RUN ∧ (s.handler 1).resp.ok = true ∧
      (s.handler 1).pc = .send ∧ s.child 1 = some ⟨7, .alive⟩) (by decide)

end Engine

end Jackfruit
