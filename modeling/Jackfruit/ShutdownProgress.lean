import Jackfruit.LogFlow
import Jackfruit.LogMutex
import Jackfruit.Peers
import Jackfruit.ShutdownWork
import Jackfruit.Unregistration
import Mathlib.Algebra.Group.Action.Defs
import Mathlib.Algebra.Order.BigOperators.Group.Finset

/-!
# The shutdown comes to its end

From the moment a SIGINT or a SIGTERM has been caught, `remaining` counts the steps that the main
thread, the reaper and the consumer have left, with the returns of the pushes that hold the mutex of
the log buffer and the ends of the children. Whatever the other threads do, these steps are at most
as many as that, but for three more for each container that a start still clones, ten for each
section of a push, and one for each spurious wake-up of the consumer. And until `run_supervisor` has
returned one of them can be taken, or the reaper waits for a child that is alive : no client, no
handler and no producer can hold the shutdown up, unless a handler sends to a client that has
closed, which kills the process (`shutdown_completes`).
-/

set_option linter.unusedSectionVars false

open Transition (PeerEvent WithPeers)

namespace Jackfruit

/-- The consumer's steps in and around its pop, from the mutex on. -/
def CallPc.popWork (cv : CondVar Unit) : CallPc Unit (Option LogEntry) → ℕ
  | .idle => 4
  | .lock _ => 3
  | .wait _ => if () ∈ cv.woken then 2 else 1
  | .unlock none => 0
  | .unlock (some _) => 7

/-- The consumer's steps outside of its pop. -/
def ConsumerPc.work : ConsumerPc → ℕ
  | .finished => 0
  | .pop => 5
  | .write _ _ => 6
  | .lookup _ => 7

/-- The return of a push that holds the mutex. -/
def lockWork : Option (LogThread ℕ Unit Unit) → ℕ
  | some (.producer _) => 1
  | _ => 0

/-- The steps on the log buffer that the shutdown takes. -/
def LogEvent.drains : LogEvent ℕ Unit Unit → Bool
  | .pushReturn _ | .popCall _ | .popEnter _ _ => true
  | _ => false

/-- What the other steps on the log buffer add. -/
def LogEvent.newWork : LogEvent ℕ Unit Unit → ℕ
  | .pushEnter _ _ => 10
  | .wakeConsumer _ | .closeEnter _ => 1
  | _ => 0

namespace CallPc

variable {cv : CondVar Unit}

@[simp] theorem popWork_idle : (idle : CallPc Unit (Option LogEntry)).popWork cv = 4 :=
  rfl

@[simp] theorem popWork_lock (a : Unit) :
    (lock a : CallPc Unit (Option LogEntry)).popWork cv = 3 :=
  rfl

@[simp] theorem popWork_drained : (unlock none : CallPc Unit (Option LogEntry)).popWork cv = 0 :=
  rfl

@[simp] theorem popWork_taken (entry : LogEntry) :
    (unlock (some entry) : CallPc Unit (Option LogEntry)).popWork cv = 7 :=
  rfl

theorem popWork_asleep (h : () ∉ cv.woken) (a : Unit) :
    (wait a : CallPc Unit (Option LogEntry)).popWork cv = 1 :=
  if_neg h

end CallPc

theorem CallPc.popWork_le (pc : CallPc Unit (Option LogEntry)) (cv cv' : CondVar Unit) :
    pc.popWork cv' ≤ pc.popWork cv + 1 := by
  cases pc with
  | wait a =>
    simp only [popWork]
    split_ifs <;> omega
  | unlock ret => cases ret <;> exact Nat.le_succ _
  | _ => exact Nat.le_succ _

namespace LogSystem

variable {s s' : LogSystem ℕ Unit Unit} {e : LogEvent ℕ Unit Unit}

/-- The steps until the ring is empty and the consumer about to leave its loop. -/
def popping (s : LogSystem ℕ Unit Unit) : ℕ :=
  8 * s.buf.count + (s.popPc ()).popWork s.notEmpty + lockWork s.mutex

/-- The steps of `log_buffer_shutdown` and of the join of the consumer. -/
def closing (s : LogSystem ℕ Unit Unit) : ℕ :=
  match s.closePc () with
  | .lock _ => 6
  | .unlock _ => 4
  | _ => if s.buf.shutdown then 3 else 7

theorem closing_bounds (s : LogSystem ℕ Unit Unit) : 1 < s.closing ∧ s.closing < 8 := by
  unfold closing
  split
  · omega
  · omega
  · split_ifs <;> omega

/-- A consumer that contends has work to do. -/
theorem popWork_of_contends {cv : CondVar Unit} {pc : Unit → CallPc Unit (Option LogEntry)}
    (h : contends pc cv () = some ()) : 2 ≤ (pc ()).popWork cv := by
  unfold contends at h
  split at h
  · rename_i a heq
    rw [heq]
    exact Nat.le_succ 2
  · rename_i a heq
    split_ifs at h with hw
    rw [heq, CallPc.popWork, if_pos hw]
  · cases h

theorem popping_step (hd : Held s) (hs : s.step e = some s') (he : e ≠ .popReturn ()) :
    s'.popping + e.drains.toNat ≤ s.popping + e.newWork := by
  cases step_cases hs with
  | pushRefused p w entry hnone =>
    simp only [popping, hnone, lockWork, LogEvent.drains, LogEvent.newWork, Bool.toNat_false]
    omega
  | pushStored p w entry hnone hready hc hshut hw =>
    have hle := (s.popPc ()).popWork_le s.notEmpty (s.notEmpty.signal w)
    simp only [popping, hnone, lockWork, LogEvent.drains, LogEvent.newWork, Bool.toNat_false,
      RingBuffer.push]
    omega
  | pushReturn p ret hpc =>
    have hlock := (hd.producer p).mp ⟨ret, hpc⟩
    simp only [popping, hlock, lockWork, LogEvent.drains, LogEvent.newWork, Bool.toNat_true]
    omega
  | popCall c hpc =>
    simp only [popping, hpc, Function.update_self, CallPc.popWork_idle, CallPc.popWork_lock,
      LogEvent.drains,
      LogEvent.newWork, Bool.toNat_true]
    omega
  | popWait c w hnone hready =>
    have hwork := popWork_of_contends hready
    have hasleep : () ∉ ((s.notEmpty.resume ()).wait ()).woken := by simp
    simp only [popping, Function.update_self, CallPc.popWork_asleep hasleep, LogEvent.drains,
      LogEvent.newWork, Bool.toNat_true]
    omega
  | popDrained c w hnone hready =>
    have hwork := popWork_of_contends hready
    simp only [popping, hnone, Function.update_self, CallPc.popWork_drained, lockWork,
      LogEvent.drains, LogEvent.newWork, Bool.toNat_true]
    omega
  | popTaken c w hnone hready hc hw =>
    have hwork := popWork_of_contends hready
    simp only [popping, hnone, Function.update_self, CallPc.popWork_taken, lockWork,
      LogEvent.drains, LogEvent.newWork, Bool.toNat_true, RingBuffer.pop]
    omega
  | popReturn c => exact absurd rfl he
  | closeEnter m hnone =>
    have hle := (s.popPc ()).popWork_le s.notEmpty s.notEmpty.broadcast
    simp only [popping, hnone, lockWork, LogEvent.drains, LogEvent.newWork, Bool.toNat_false,
      logBufferShutdown]
    omega
  | closeReturn m hpc =>
    simp only [popping, lockWork, LogEvent.drains, LogEvent.newWork, Bool.toNat_false]
    omega
  | wakeConsumer c hc =>
    have hle := (s.popPc ()).popWork_le s.notEmpty (s.notEmpty.wake c)
    simp only [popping, LogEvent.drains, LogEvent.newWork, Bool.toNat_false]
    omega
  | pushCall | pushWait | closeCall | wakeProducer => exact Nat.le_add_right _ _

/-- What the return of a pop adds in the consumer is counted there. -/
theorem popping_popReturn (hs : s.step (.popReturn ()) = some s') :
    s'.popping + (s.popPc ()).popWork s.notEmpty ≤ s.popping + 4 := by
  cases step_cases hs with
  | popReturn c ret' hpc' =>
    simp only [popping, Function.update_self, CallPc.popWork_idle, lockWork]
    omega

/-- Only `log_buffer_shutdown` itself moves its caller and changes what is left of it. -/
theorem closing_step (hs : s.step e = some s') (hcall : e ≠ .closeCall ())
    (henter : e ≠ .closeEnter ()) (hreturn : e ≠ .closeReturn ()) :
    s'.closePc = s.closePc ∧ s'.closing = s.closing := by
  cases step_cases hs with
  | closeCall => exact absurd rfl hcall
  | closeEnter => exact absurd rfl henter
  | closeReturn => exact absurd rfl hreturn
  | _ => exact ⟨rfl, rfl⟩

/-- The flag is set before `log_buffer_shutdown` returns. -/
theorem Reachable.shutdown_of_unlock (hs : Reachable s) (hpc : s.closePc () = .unlock ()) :
    s.buf.shutdown = true := by
  refine Transition.Run.invariant
    (I := fun t : LogSystem ℕ Unit Unit => t.closePc () = .unlock () → t.buf.shutdown = true)
    hs (fun h => by simp [init] at h) (fun t e u ih _ hstep h => ?_) hpc
  cases step_cases hstep with
  | closeCall => simp at h
  | closeEnter => rfl
  | closeReturn => simp at h
  | _ => exact ih h

end LogSystem

theorem LogEvent.ne_close {e : LogEvent ℕ Unit Unit} (he : e.isSection = true) :
    e ≠ .closeCall () ∧ e ≠ .closeEnter () ∧ e ≠ .closeReturn () ∧ e ≠ .popReturn () := by
  refine ⟨?_, ?_, ?_, ?_⟩ <;>
  · rintro rfl
    cases he

/-- The steps of the shutdown : those of the main thread, the reaper and the consumer, the return of
a push, which gives the mutex back, and the end of a child. -/
def PipelineEvent.isShutdown : PipelineEvent → Bool
  | .engine e => e.isMain || e.isEnd
  | .logs e => e.drains
  | .read _ _ | .readEnd _ => false
  | _ => true

/-- The handler to whose client a step sends. -/
def PipelineEvent.client : PipelineEvent → Option ℕ
  | .engine e => e.client
  | _ => none

/-- What a step of another thread adds to the shutdown. -/
def PipelineEvent.newWork : PipelineEvent → ℕ
  | .engine e => e.newWork
  | .logs e => e.newWork
  | _ => 0

/-- The main thread leaves the join of the consumer only by the join. -/
theorem Engine.joinConsumer_kept {s s' : Engine} {e : Event} (hs : s.step e = some s')
    (hm : s.main = .joinConsumer) (he : e ≠ .joinConsumer) : s'.main = .joinConsumer := by
  cases step_effect hs with
  | control e running main hmove =>
    cases hmove with
    | signal => exact hm
    | joinConsumer => exact absurd rfl he
    | loopTest h | acceptFail h | logShutdown h | joinReaper h => cases hm.symm.trans h
  | handler e h hd main _ hmain =>
    rcases hmain with rfl | ⟨hold, -⟩
    · exact hm
    · cases hm.symm.trans hold
  | stopAll h => cases hm.symm.trans h
  | _ => exact hm

namespace Pipeline

variable {F : Type} [DecidableEq F] {resolve : CStr → F} {files : F → List UInt8}
  {s s' : Pipeline F} {e : PipelineEvent}

theorem step_next (hs : step resolve s e = some s') :
    s.engine.main ≠ .returned ∧ s.next resolve e = some s' := by
  unfold step at hs
  split_ifs at hs with hm
  exact ⟨hm, hs⟩

/-- What each event does, with the guards that matter to the shutdown. -/
inductive Turn (s : Pipeline F) : PipelineEvent → Pipeline F → Prop
  | engine (e : Event) (engine : Engine) : s.engine.step e = some engine →
      (e = .joinConsumer → s.logs.closePc () = .idle) →
      Turn s (.engine e) { s with engine := engine }
  | logs (e : LogEvent ℕ Unit Unit) (logs : LogSystem ℕ Unit Unit) : s.logs.step e = some logs →
      e.isSection = true → Turn s (.logs e) { s with logs := logs }
  | read (h : ℕ) (chunk : List UInt8) (entry : LogEntry) (logs : LogSystem ℕ Unit Unit)
      (captured : ℕ → List UInt8) : s.logs.step (.pushCall h entry) = some logs →
      Turn s (.read h chunk) { s with logs := logs, captured := captured }
  | readEnd (h : ℕ) (finished : ℕ → Bool) : Turn s (.readEnd h) { s with finished := finished }
  | pushReturn (h : ℕ) (logs : LogSystem ℕ Unit Unit) (finished : ℕ → Bool) :
      s.logs.step (.pushReturn h) = some logs →
      Turn s (.pushReturn h) { s with logs := logs, finished := finished }
  | popCall (logs : LogSystem ℕ Unit Unit) : s.logs.step (.popCall ()) = some logs →
      Turn s .popCall { s with logs := logs }
  | popReturn (ret : Option LogEntry) (logs : LogSystem ℕ Unit Unit) :
      s.logs.popPc () = .unlock ret → s.logs.step (.popReturn ()) = some logs →
      Turn s .popReturn { s with
        logs := logs
        consumer := match ret with
          | some entry => .lookup entry
          | none => .finished }
  | lookup (entry : LogEntry) (consumer : ConsumerPc) : s.consumer = .lookup entry →
      consumer.work < 7 → Turn s .lookup { s with consumer := consumer }
  | append (path : CStr) (entry : LogEntry) (files : F → List UInt8) (appended : List LogEntry) :
      s.consumer = .write path entry →
      Turn s .append { s with files := files, consumer := .pop, appended := appended }
  | closeCall (logs : LogSystem ℕ Unit Unit) : s.engine.main = .joinConsumer →
      s.logs.buf.shutdown = false → s.logs.step (.closeCall ()) = some logs →
      Turn s .closeCall { s with logs := logs }
  | closeEnter (logs : LogSystem ℕ Unit Unit) : s.logs.step (.closeEnter ()) = some logs →
      Turn s .closeEnter { s with logs := logs }
  | closeReturn (logs : LogSystem ℕ Unit Unit) : s.logs.step (.closeReturn ()) = some logs →
      Turn s .closeReturn { s with logs := logs }

theorem step_turn (hs : step resolve s e = some s') : Turn s e s' := by
  replace hs := (step_next hs).2
  cases e with
  | engine e =>
    by_cases he : e = .joinConsumer
    · subst he
      obtain ⟨hc, hs⟩ := Option.ite_none_right_eq_some.mp hs
      obtain ⟨engine, heng, rfl⟩ := Option.map_eq_some_iff.mp hs
      exact .engine _ engine heng fun _ => hc.2
    · have hs' : (s.engine.step e).map (fun engine => { s with engine := engine }) = some s' := by
        cases e <;> first | exact hs | exact absurd rfl he
      obtain ⟨engine, heng, rfl⟩ := Option.map_eq_some_iff.mp hs'
      exact .engine e engine heng fun h => absurd h he
  | logs e =>
    obtain ⟨hsection, hs⟩ := Option.ite_none_right_eq_some.mp hs
    obtain ⟨logs, hlogs, rfl⟩ := Option.map_eq_some_iff.mp hs
    exact .logs e logs hlogs hsection
  | read h chunk =>
    simp only [next] at hs
    split at hs
    · obtain ⟨-, hs⟩ := Option.ite_none_right_eq_some.mp hs
      obtain ⟨logs, hlogs, rfl⟩ := Option.map_eq_some_iff.mp hs
      exact .read h chunk _ logs _ hlogs
    · cases hs
  | readEnd h =>
    obtain ⟨-, hs⟩ := Option.ite_none_right_eq_some.mp hs
    cases hs
    exact .readEnd h _
  | pushReturn h =>
    simp only [next] at hs
    split at hs
    · obtain ⟨logs, hlogs, rfl⟩ := Option.map_eq_some_iff.mp hs
      exact .pushReturn h logs _ hlogs
    · cases hs
  | popCall =>
    obtain ⟨-, hs⟩ := Option.ite_none_right_eq_some.mp hs
    obtain ⟨logs, hlogs, rfl⟩ := Option.map_eq_some_iff.mp hs
    exact .popCall logs hlogs
  | popReturn =>
    simp only [next] at hs
    split at hs
    · rename_i ret hpc
      obtain ⟨logs, hlogs, rfl⟩ := Option.map_eq_some_iff.mp hs
      exact .popReturn ret logs hpc hlogs
    · cases hs
  | lookup =>
    simp only [next] at hs
    split at hs
    · rename_i entry hc
      cases hs
      refine .lookup entry _ hc ?_
      split_ifs <;> simp [ConsumerPc.work]
    · cases hs
  | append =>
    simp only [next] at hs
    split at hs
    · rename_i path entry hc
      cases hs
      exact .append path entry _ _ hc
    · cases hs
  | closeCall =>
    obtain ⟨hc, hs⟩ := Option.ite_none_right_eq_some.mp hs
    obtain ⟨logs, hlogs, rfl⟩ := Option.map_eq_some_iff.mp hs
    exact .closeCall logs hc.1 hc.2 hlogs
  | closeEnter =>
    obtain ⟨logs, hlogs, rfl⟩ := Option.map_eq_some_iff.mp hs
    exact .closeEnter logs hlogs
  | closeReturn =>
    obtain ⟨logs, hlogs, rfl⟩ := Option.map_eq_some_iff.mp hs
    exact .closeReturn logs hlogs

/-- `log_buffer_shutdown` is called by the main thread before it joins the consumer. -/
theorem closing_main {C : Pipeline F → PipelineEvent → Prop}
    (hr : Transition.Run (step resolve) C (init files) s) :
    s.logs.closePc () ≠ .idle → s.engine.main = .joinConsumer := by
  refine hr.invariant (I := fun t => t.logs.closePc () ≠ .idle → t.engine.main = .joinConsumer)
    (fun h => absurd rfl h) fun t e u ih _ hs hpc => ?_
  have hsame {e : LogEvent ℕ Unit Unit} {logs : LogSystem ℕ Unit Unit}
      (hlogs : t.logs.step e = some logs) (hcall : e ≠ .closeCall ()) (henter : e ≠ .closeEnter ())
      (hreturn : e ≠ .closeReturn ()) (hpc : logs.closePc () ≠ .idle) :
      t.engine.main = .joinConsumer := by
    rw [(LogSystem.closing_step hlogs hcall henter hreturn).1] at hpc
    exact ih hpc
  cases step_turn hs with
  | engine e engine heng hidle =>
    exact Engine.joinConsumer_kept heng (ih hpc) fun he => hpc (hidle he)
  | logs e logs hlogs hsection =>
    obtain ⟨hcall, henter, hreturn, -⟩ := LogEvent.ne_close hsection
    exact hsame hlogs hcall henter hreturn hpc
  | read h chunk entry logs captured hlogs => exact hsame hlogs nofun nofun nofun hpc
  | pushReturn h logs finished hlogs => exact hsame hlogs nofun nofun nofun hpc
  | popCall logs hlogs | popReturn ret logs _ hlogs => exact hsame hlogs nofun nofun nofun hpc
  | closeCall logs hm => exact hm
  | closeEnter logs hlogs =>
    cases LogSystem.step_cases hlogs with
    | closeEnter m _ hlock => exact ih (by simp [hlock])
  | closeReturn logs hlogs =>
    cases LogSystem.step_cases hlogs with
    | closeReturn m hunlock => exact ih (by simp [hunlock])
  | readEnd | lookup | append => exact ih hpc

/-! ## The variant -/

/-- The steps that are left to the shutdown. -/
def remaining (s : Pipeline F) : ℕ :=
  s.engine.main.work s.logs.closing + s.engine.reaping + (s.consumer.work + s.logs.popping)

/-- The supervisor has been told to stop. -/
def Stopping (resolve : CStr → F) (files : F → List UInt8) (s : Pipeline F) : Prop :=
  Transition.Run (step resolve) Transition.Always (init files) s ∧ s.engine.running = false

theorem Stopping.engine_step (hd : Stopping resolve files s) {e : Event} {engine : Engine}
    (hs : s.engine.step e = some engine) :
    engine.main.work s.logs.closing + engine.reaping + (e.isMain || e.isEnd).toNat ≤
      s.engine.main.work s.logs.closing + s.engine.reaping + e.newWork := by
  have hr := engine_run hd.1
  obtain ⟨hlo, hhi⟩ := s.logs.closing_bounds
  have hmain := Engine.main_work hs hd.2 hlo hhi
  cases hend : e.isEnd with
  | true =>
    have hreaping := Engine.reaping_end (fun _ _ hc => Engine.cloned_of_child hr hc) hs hend
    have hnot : e.isMain = false := by
      cases e <;> first | rfl | cases hend
    rw [hnot, Bool.toNat_false] at hmain
    rw [hnot, Bool.false_or, Bool.toNat_true]
    omega
  | false =>
    have hreaping := Engine.reaping_other (Engine.Wf.of_run hr)
      (fun _ hmem => Engine.child_of_cloned hr hmem) hs hend
    rw [Bool.or_false]
    omega

/-- Every step of the shutdown leaves less of it, and the others add no more than they cost. -/
theorem remaining_step (hd : Stopping resolve files s) (hs : step resolve s e = some s') :
    s'.remaining + e.isShutdown.toNat ≤ s.remaining + e.newWork := by
  have hl := logs_run hd.1
  have hheld := hl.held
  have hsame {e : LogEvent ℕ Unit Unit} {logs : LogSystem ℕ Unit Unit}
      (hlogs : s.logs.step e = some logs) (hcall : e ≠ .closeCall ()) (henter : e ≠ .closeEnter ())
      (hreturn : e ≠ .closeReturn ()) : logs.closing = s.logs.closing :=
    (LogSystem.closing_step hlogs hcall henter hreturn).2
  have hclose := closing_main hd.1
  cases step_turn hs with
  | engine e engine heng hidle =>
    have hwork := hd.engine_step heng
    simp only [remaining, PipelineEvent.isShutdown, PipelineEvent.newWork]
    omega
  | logs e logs hlogs hsection =>
    obtain ⟨hcall, henter, hreturn, hpop⟩ := LogEvent.ne_close hsection
    have hwork := LogSystem.popping_step hheld hlogs hpop
    have hclosing := hsame hlogs hcall henter hreturn
    simp only [remaining, PipelineEvent.isShutdown, PipelineEvent.newWork, hclosing]
    omega
  | read h chunk entry logs captured hlogs | popCall logs hlogs
  | pushReturn h logs finished hlogs =>
    have hwork := LogSystem.popping_step hheld hlogs (by simp)
    have hclosing := hsame hlogs (by simp) (by simp) (by simp)
    simp only [LogEvent.drains, LogEvent.newWork] at hwork
    simp only [remaining, PipelineEvent.isShutdown, PipelineEvent.newWork, hclosing]
    omega
  | readEnd h finished => exact Nat.le_refl _
  | popReturn ret logs hpc hlogs =>
    have hpop : s.consumer = .pop := by
      by_contra hne
      have hidle := (Routed.of_run hd.1).consumed.idle hne
      simp [hpc] at hidle
    have hwork := LogSystem.popping_popReturn hlogs
    have hclosing := hsame hlogs (by simp) (by simp) (by simp)
    rw [hpc] at hwork
    simp only [remaining, PipelineEvent.isShutdown, PipelineEvent.newWork, hclosing, hpop]
    cases ret with
    | none =>
      simp only [CallPc.popWork_drained, ConsumerPc.work, Bool.toNat_true] at hwork ⊢
      omega
    | some entry =>
      simp only [CallPc.popWork_taken, ConsumerPc.work, Bool.toNat_true] at hwork ⊢
      omega
  | lookup entry consumer hc hless =>
    have hwork : s.consumer.work = 7 := by rw [hc]; rfl
    simp only [remaining, PipelineEvent.isShutdown, PipelineEvent.newWork, Bool.toNat_true]
    omega
  | append path entry files appended hc =>
    simp only [remaining, PipelineEvent.isShutdown, PipelineEvent.newWork, hc, ConsumerPc.work,
      Bool.toNat_true]
    omega
  | closeCall logs hmain hshut hlogs =>
    have hwork := LogSystem.popping_step hheld hlogs (by simp)
    have hclosing : logs.closing + 1 = s.logs.closing := by
      cases LogSystem.step_cases hlogs with
      | closeCall m hidle => simp [LogSystem.closing, hidle, hshut]
    simp only [LogEvent.drains, LogEvent.newWork, Bool.toNat_false] at hwork
    simp only [remaining, PipelineEvent.isShutdown, PipelineEvent.newWork, hmain, MainPc.work,
      Bool.toNat_true]
    omega
  | closeEnter logs hlogs =>
    have hwork := LogSystem.popping_step hheld hlogs (by simp)
    obtain ⟨hmain, hclosing⟩ :
        s.engine.main = .joinConsumer ∧ logs.closing + 2 = s.logs.closing := by
      cases LogSystem.step_cases hlogs with
      | closeEnter m _ hlock => exact ⟨hclose (by simp [hlock]), by simp [LogSystem.closing, hlock]⟩
    simp only [LogEvent.drains, LogEvent.newWork, Bool.toNat_false] at hwork
    simp only [remaining, PipelineEvent.isShutdown, PipelineEvent.newWork, hmain, MainPc.work,
      Bool.toNat_true]
    omega
  | closeReturn logs hlogs =>
    have hwork := LogSystem.popping_step hheld hlogs (by simp)
    obtain ⟨hmain, hclosing⟩ :
        s.engine.main = .joinConsumer ∧ logs.closing + 1 = s.logs.closing := by
      cases LogSystem.step_cases hlogs with
      | closeReturn m hunlock =>
        refine ⟨hclose (by simp [hunlock]), ?_⟩
        simp [LogSystem.closing, hunlock, hl.shutdown_of_unlock hunlock]
    simp only [LogEvent.drains, LogEvent.newWork, Bool.toNat_false] at hwork
    simp only [remaining, PipelineEvent.isShutdown, PipelineEvent.newWork, hmain, MainPc.work,
      Bool.toNat_true]
    omega

theorem Stopping.step (hd : Stopping resolve files s) (hs : step resolve s e = some s') :
    Stopping resolve files s' := by
  refine ⟨.tail e hd.1 trivial hs, ?_⟩
  cases step_turn hs with
  | engine e engine heng => exact Engine.running_step heng hd.2
  | _ => exact hd.2

/-- What is left of the shutdown is a variant. -/
theorem shutdown_variant (resolve : CStr → F) (files : F → List UInt8) :
    Transition.Variant (step resolve) Transition.Always (Stopping resolve files)
      PipelineEvent.isShutdown PipelineEvent.newWork remaining where
  keeps _ _ _ hd _ hs := hd.step hs
  pays _ _ _ hd _ hs := remaining_step hd hs

/-! ## No step of the shutdown is missing -/

/-- The reaper, which the main thread joins, waits for a child that is alive. -/
def WaitsForChild (s : Pipeline F) : Prop :=
  s.engine.main = .joinReaper ∧ s.engine.reaper = .waiting ∧
    ∃ h pid, s.engine.child h = some ⟨pid, .alive⟩

/-- A step of the shutdown that is not the end of a child can be taken. -/
def CanGoOn (resolve : CStr → F) (s : Pipeline F) : Prop :=
  ∃ e, e.isShutdown = true ∧ e.newWork = 0 ∧ (∀ h status, e ≠ .engine (.exit h status)) ∧
    (step resolve s e).isSome = true

theorem canGoOn_engine {e : Event} (hm : s.engine.main ≠ .returned)
    (he : e.isMain = true ∨ e.isEnd = true) (hne : ∀ h status, e ≠ .exit h status)
    (hjoin : e ≠ .joinConsumer) (hs : (s.engine.next e).isSome = true) : CanGoOn resolve s := by
  refine ⟨.engine e, ?_, ?_, ?_, ?_⟩
  · simpa [PipelineEvent.isShutdown] using he
  · cases e <;> first | rfl | simp [Event.isMain, Event.isEnd] at he
  · intro h status heq
    exact hne h status (PipelineEvent.engine.inj heq)
  · have hstep : s.engine.step e = s.engine.next e := if_neg hm
    have hnext : s.next resolve (.engine e) =
        (s.engine.step e).map fun engine => { s with engine := engine } := by
      cases e <;> first | rfl | exact absurd rfl hjoin
    rw [step, if_neg hm, hnext, Option.isSome_map, hstep]
    exact hs

/-- Until the join of the consumer. -/
theorem canGoOn_main (hm : s.engine.main = .loop ∨ s.engine.main = .accepting ∨
    s.engine.main = .stopAll ∨ s.engine.main = .logShutdown) :
    CanGoOn resolve s := by
  have hne : s.engine.main ≠ .returned := by
    rcases hm with hm | hm | hm | hm <;> simp [hm]
  rcases hm with hm | hm | hm | hm
  · exact canGoOn_engine (e := .loopTest) hne (Or.inl rfl) (by simp) (by simp)
      (by simp [Engine.next, Engine.mainStep, hm])
  · exact canGoOn_engine (e := .acceptFail) hne (Or.inl rfl) (by simp) (by simp)
      (by simp [Engine.next, Engine.mainStep, hm])
  · exact canGoOn_engine (e := .stopAll) hne (Or.inl rfl) (by simp) (by simp)
      (by simp [Engine.next, Engine.mainStep, hm])
  · exact canGoOn_engine (e := .logShutdown) hne (Or.inl rfl) (by simp) (by simp)
      (by simp [Engine.next, Engine.mainStep, hm])

/-- A step of the main thread, the consumer or a producer on the log buffer. -/
theorem canGoOn_next (hm : s.engine.main ≠ .returned) (he : e.isShutdown = true)
    (hwork : e.newWork = 0) (hne : ∀ e', e ≠ .engine e')
    (hs : (s.next resolve e).isSome = true) : CanGoOn resolve s := by
  refine ⟨e, he, hwork, fun _ _ => hne _, ?_⟩
  rw [step, if_neg hm]
  exact hs

/-- Whoever holds the mutex of the log buffer can give it back. -/
theorem unlock_enabled (hl : s.logs.Reachable) (hlock : s.logs.mutex ≠ none) :
    ∃ e, (e = .popReturn ∨ e = .closeReturn ∨ ∃ p, e = .pushReturn p) ∧
      (s.next resolve e).isSome = true := by
  have hheld := hl.held
  obtain ⟨t, ht⟩ := Option.ne_none_iff_exists'.mp hlock
  cases t with
  | producer p =>
    obtain ⟨ret, hpc⟩ := (hheld.producer p).mpr ht
    exact ⟨.pushReturn p, .inr (.inr ⟨p, rfl⟩), by simp [Pipeline.next, LogSystem.step, hpc]⟩
  | consumer c =>
    obtain ⟨ret, hpc⟩ := (hheld.consumer c).mpr ht
    exact ⟨.popReturn, .inl rfl, by simp [Pipeline.next, LogSystem.step, hpc]⟩
  | closer m =>
    obtain ⟨ret, hpc⟩ := (hheld.closer m).mpr ht
    exact ⟨.closeReturn, .inr (.inl rfl), by simp [Pipeline.next, LogSystem.step, hpc]⟩

theorem canGoOn_unlock (hl : s.logs.Reachable) (hm : s.engine.main ≠ .returned)
    (hlock : s.logs.mutex ≠ none) : CanGoOn resolve s := by
  obtain ⟨e, rfl | rfl | ⟨p, rfl⟩, hs⟩ := unlock_enabled hl hlock
  all_goals exact canGoOn_next hm rfl rfl (by simp) hs

/-- With the flag set the consumer goes on until it has left its loop. -/
theorem canGoOn_consumer (hl : s.logs.Reachable) (hm : s.engine.main ≠ .returned)
    (hshut : s.logs.buf.shutdown = true) (hfin : s.consumer ≠ .finished) : CanGoOn resolve s := by
  cases hc : s.consumer with
  | finished => exact absurd hc hfin
  | lookup entry =>
    exact canGoOn_next (e := .lookup) hm rfl rfl (by simp) (by simp [Pipeline.next, hc])
  | write path entry =>
    exact canGoOn_next (e := .append) hm rfl rfl (by simp) (by simp [Pipeline.next, hc])
  | pop =>
    by_cases hidle : s.logs.popPc () = .idle
    · exact canGoOn_next (e := .popCall) hm rfl rfl (by simp)
        (by simp [Pipeline.next, LogSystem.step, hc, hidle])
    by_cases hlock : s.logs.mutex = none
    · have hready := hl.contends_of_shutdown hshut hidle fun ret hpc => by
        have hheld := (hl.held.consumer ()).mp ⟨ret, hpc⟩
        simp [hlock] at hheld
      obtain ⟨w, hw⟩ := LogSystem.popEnter_enabled hlock hready
      exact canGoOn_next (e := .logs (.popEnter () w)) hm rfl rfl (by simp)
        (by simpa [Pipeline.next, LogEvent.isSection] using hw)
    · exact canGoOn_unlock hl hm hlock

/-- The main thread goes through `log_buffer_shutdown`, and joins the consumer once it has left its
loop. -/
theorem canGoOn_joinConsumer (hl : s.logs.Reachable) (hm : s.engine.main = .joinConsumer) :
    CanGoOn resolve s := by
  have hne : s.engine.main ≠ .returned := by simp [hm]
  cases hc : s.logs.closePc () with
  | idle =>
    cases hshut : s.logs.buf.shutdown with
    | false =>
      exact canGoOn_next (e := .closeCall) hne rfl rfl (by simp)
        (by simp [Pipeline.next, LogSystem.step, hm, hshut, hc])
    | true =>
      by_cases hfin : s.consumer = .finished
      · refine ⟨.engine .joinConsumer, rfl, rfl, (by simp), ?_⟩
        simp [step, Pipeline.next, hm, hfin, hc, Engine.step, Engine.next, Engine.mainStep]
      · exact canGoOn_consumer hl hne hshut hfin
  | lock a =>
    by_cases hlock : s.logs.mutex = none
    · exact canGoOn_next (e := .closeEnter) hne rfl rfl (by simp)
        (by simp [Pipeline.next, LogSystem.step, hlock, hc])
    · exact canGoOn_unlock hl hne hlock
  | wait a => exact absurd hc (hl.held.closing () a)
  | unlock ret =>
    exact canGoOn_next (e := .closeReturn) hne rfl rfl (by simp)
      (by simp [Pipeline.next, LogSystem.step, hc])

/-- The reaper goes on until it waits for a child that is alive, and the main thread joins it. -/
theorem canGoOn_joinReaper (hr : s.engine.Reachable) (hrun : s.engine.running = false)
    (hm : s.engine.main = .joinReaper) : CanGoOn resolve s ∨ WaitsForChild s := by
  have hne : s.engine.main ≠ .returned := by simp [hm]
  cases hreaper : s.engine.reaper with
  | exited =>
    exact Or.inl (canGoOn_engine (e := .joinReaper) hne (Or.inl rfl) (by simp) (by simp)
      (by simp [Engine.next, Engine.mainStep, hm, hreaper]))
  | holding g =>
    obtain ⟨pid, status, hc⟩ := Engine.Held.of_run hr g hreaper
    exact Or.inl (canGoOn_engine (e := .reap) hne (Or.inr rfl) (by simp) (by simp)
      (by simp [Engine.next, Engine.reaperStep, hreaper, hc]))
  | waiting =>
    by_cases hnone : ∀ h ∈ s.engine.cloned, ∀ c ∈ s.engine.child h, ¬c.Unreaped
    · exact Or.inl (canGoOn_engine (e := .reaperExit) hne (Or.inr rfl) (by simp) (by simp)
        (by simpa [Engine.next, Engine.reaperStep, hreaper, hrun] using hnone))
    · push Not at hnone
      obtain ⟨h, -, ⟨pid, life⟩, hc, hunreaped⟩ := hnone
      cases life with
      | alive => exact Or.inr ⟨hm, hreaper, h, pid, hc⟩
      | zombie status =>
        have hc' : s.engine.child h = some ⟨pid, .zombie status⟩ := hc
        exact Or.inl (canGoOn_engine (e := .waitpid h) hne (Or.inr rfl) (by simp) (by simp)
          (by simp [Engine.next, Engine.reaperStep, hreaper, hc']))
      | reaped | handled => exact hunreaped.elim

theorem Stopping.canGoOn (hd : Stopping resolve files s) (hm : s.engine.main ≠ .returned) :
    CanGoOn resolve s ∨ WaitsForChild s := by
  cases hmain : s.engine.main with
  | loop | accepting | stopAll | logShutdown => exact Or.inl (canGoOn_main (by simp [hmain]))
  | joinConsumer => exact Or.inl (canGoOn_joinConsumer (logs_run hd.1) hmain)
  | joinReaper => exact canGoOn_joinReaper (engine_run hd.1) hd.2 hmain
  | returned => exact absurd hmain hm

/-! ## The bound -/

theorem childrenWork_le (cloned : List ℕ) (child : ℕ → Option Child) :
    Engine.childrenWork cloned child ≤ 3 * cloned.length := by
  have hwork (c : Option Child) : childWork c ≤ 3 := by
    rcases c with _ | ⟨pid, life⟩
    · exact Nat.zero_le 3
    · cases life <;> simp [childWork, ChildLife.work]
  calc Engine.childrenWork cloned child ≤ cloned.toFinset.card • 3 :=
        Finset.sum_le_card_nsmul _ _ _ fun h _ => hwork (child h)
    _ ≤ 3 * cloned.length := by
        have hcard := cloned.toFinset_card_le
        rw [smul_eq_mul]
        omega

theorem popping_le {l : LogSystem ℕ Unit Unit} (hl : l.Reachable) :
    l.popping ≤ 8 * LOG_BUFFER_CAPACITY + 8 := by
  have hcount := hl.queue.wf.count_le
  have hpop : (l.popPc ()).popWork l.notEmpty ≤ 7 := by
    generalize l.popPc () = pc
    rcases pc with _ | a | a | _ | entry
    · simp
    · simp
    · rw [CallPc.popWork]
      split_ifs <;> omega
    · simp
    · simp
  have hlock : lockWork l.mutex ≤ 1 := by
    unfold lockWork
    split <;> omega
  simp only [LogSystem.popping]
  omega

theorem consumer_work_le (pc : ConsumerPc) : pc.work ≤ 7 := by
  cases pc <;> simp [ConsumerPc.work]

theorem remaining_le (hl : s.logs.Reachable) :
    s.remaining ≤ 8 * LOG_BUFFER_CAPACITY + 27 + 3 * s.engine.cloned.length := by
  have hpopping := popping_le hl
  have hconsumer := consumer_work_le s.consumer
  have hchildren := childrenWork_le s.engine.cloned s.engine.child
  have hreaper : s.engine.reaper.work ≤ 1 := by
    cases s.engine.reaper <;> simp [ReaperPc.work]
  have hmain : s.engine.main.work s.logs.closing ≤ 11 := by
    have hhi := s.logs.closing_bounds.2
    cases s.engine.main <;> simp only [MainPc.work] <;> omega
  simp only [remaining, Engine.reaping]
  omega

/-! ## With clients -/

/-- One step of the supervisor with its clients : a send to a client that has closed raises
SIGPIPE, which kills it. -/
abbrev serve (resolve : CStr → F) :=
  WithPeers.step (ι := ℕ) (step resolve) PipelineEvent.client

/-- No handler sends to a client that has closed, or whose connection a container that has inherited
it has shut down. -/
abbrev SendsToOpen (s : WithPeers (Pipeline F) ℕ) (e : PeerEvent PipelineEvent ℕ) : Prop :=
  s.Sparing PipelineEvent.client Transition.Always e

/-- The shutdown of a supervisor whose clients all wait for their answers : in every schedule it
takes a bounded number of steps, but for those that the other threads add; until `run_supervisor`
has returned one of them can be taken, unless the reaper waits for a container that is alive; and
with the ends of the containers these steps alone lead to the return of `run_supervisor`. -/
theorem shutdown_alone (hr : Transition.Run (step resolve) Transition.Always (init files) s)
    (hstop : s.engine.running = false) :
    (∀ es t, Transition.exec (step resolve) Transition.Always s es = some t →
        es.countP PipelineEvent.isShutdown ≤ 8 * LOG_BUFFER_CAPACITY + 27 +
          3 * s.engine.cloned.length + (es.map PipelineEvent.newWork).sum) ∧
      (s.engine.main ≠ .returned → CanGoOn resolve s ∨ WaitsForChild s) ∧
      ∃ es t, Transition.exec (step resolve) Transition.Always s es = some t ∧
        (∀ e ∈ es, e.isShutdown = true) ∧ t.engine.main = .returned ∧
        t.consumer = .finished ∧ t.appended = t.logs.pushed := by
  have hd : Stopping resolve files s := ⟨hr, hstop⟩
  have hvariant := shutdown_variant resolve files
  refine ⟨fun es t hes => ?_, hd.canGoOn, ?_⟩
  · have hcount := hvariant.count_le hd hes
    have hle := remaining_le (logs_run hr)
    omega
  · have hprogress (u : Pipeline F) (hu : Stopping resolve files u)
        (hm : ¬u.engine.main = .returned) :
        ∃ e, e.isShutdown = true ∧ e.newWork = 0 ∧ Transition.Always u e ∧
          (step resolve u e).isSome = true := by
      rcases hu.canGoOn hm with ⟨e, he, hwork, -, hs⟩ | ⟨hjoin, -, h, pid, hc⟩
      · exact ⟨e, he, hwork, trivial, hs⟩
      · refine ⟨.engine (.exit h 0), rfl, rfl, trivial, ?_⟩
        simp [step, Pipeline.next, Engine.step, Engine.next, Engine.reaperStep, hjoin, hc,
          wifexited]
    obtain ⟨es, t, hes, hall, ht, hreturned⟩ := hvariant.exists_run hprogress hd
    have hjoined : t.engine.main.Joined := Or.inr hreturned
    have hconsumed := (Routed.of_run ht.1).consumed
    have hfin := hconsumed.joined hjoined
    have hidle := hconsumed.idle (by simp [hfin])
    have htaken : t.logs.view.taken () = none := by
      simp [LogSystem.view, hidle, LogSystem.takenOf]
    have hpopped := hconsumed.popped
    rw [(consumer_finished ht.1 hfin).2, hfin, htaken] at hpopped
    exact ⟨es, t, hes, hall, hreturned, hfin, by simpa [hand] using hpopped.symm⟩

/-- The shutdown sends to no client. -/
theorem client_of_isShutdown (he : e.isShutdown = true) : e.client = none := by
  cases e with
  | engine e => cases e <;> first | rfl | cases he
  | _ => rfl

/-- From every state in which the supervisor has been told to stop, as long as no handler sends to a
client that has closed, which would kill the process : in every schedule, with whatever clients,
handlers, producers and containers do and whichever calls fail, the shutdown takes a bounded number
of steps, but for those that each new container, each push and each spurious wake-up of the consumer
adds; until `run_supervisor` has returned one of them can be taken, unless the reaper waits for a
container that is alive; and with the ends of the containers these steps alone lead to the return of
`run_supervisor`, with every entry of the ring written. -/
theorem shutdown_completes {s : WithPeers (Pipeline F) ℕ}
    (hr : Transition.Run (serve resolve) SendsToOpen (.init (init files)) s)
    (hstop : s.inner.engine.running = false) :
    (∀ (es : List (PeerEvent PipelineEvent ℕ)) (t : WithPeers (Pipeline F) ℕ),
        Transition.exec (serve resolve) SendsToOpen s es = some t →
        (es.filterMap PeerEvent.inner?).countP PipelineEvent.isShutdown ≤
          8 * LOG_BUFFER_CAPACITY + 27 + 3 * s.inner.engine.cloned.length +
            ((es.filterMap PeerEvent.inner?).map PipelineEvent.newWork).sum) ∧
      (s.inner.engine.main ≠ .returned →
        (∃ e, e.isShutdown = true ∧ e.newWork = 0 ∧ (∀ h status, e ≠ .engine (.exit h status)) ∧
          SendsToOpen s (.inner e) ∧ (serve resolve s (.inner e)).isSome = true) ∨
        WaitsForChild s.inner) ∧
      ∃ (es : List PipelineEvent) (t : WithPeers (Pipeline F) ℕ),
        Transition.exec (serve resolve) SendsToOpen s (es.map .inner) = some t ∧
        (∀ e ∈ es, e.isShutdown = true) ∧ t.inner.engine.main = .returned ∧
        t.inner.consumer = .finished ∧ t.inner.appended = t.inner.logs.pushed := by
  obtain ⟨hr, halive⟩ := WithPeers.inner_run hr
  obtain ⟨hbound, hgo, es, t, hes, hall, hreturned, hfin, happended⟩ := shutdown_alone hr hstop
  have hsafe {e : PipelineEvent} (he : e.isShutdown = true) :
      (e.client).any s.gone = false := by
    rw [client_of_isShutdown he]
    rfl
  refine ⟨fun es t hes => hbound _ _ (WithPeers.exec_project hes), fun hm => ?_, es, _,
    WithPeers.exec_inner halive (fun e he => hsafe (hall e he)) hes, hall, hreturned, hfin,
    happended⟩
  refine (hgo hm).imp_left ?_
  rintro ⟨e, he, hwork, hne, hs⟩
  exact ⟨e, he, hwork, hne, ⟨hsafe he, trivial⟩, WithPeers.isSome_step halive hs⟩

/-- One byte of a container that has not ended is in the hands of its producer when the signal
comes. The client that started it has read its answer and closed. -/
theorem shutdown_completes_one : ∃ s : WithPeers (Pipeline CStr) ℕ,
    s.inner.engine.main = .loop ∧ s.inner.captured 0 = [104] ∧ s.gone 0 = true ∧
      ∃ (es : List PipelineEvent) (t : WithPeers (Pipeline CStr) ℕ),
        Transition.exec (serve id) SendsToOpen s (es.map .inner) = some t ∧
        (∀ e ∈ es, e.isShutdown = true) ∧ t.inner.engine.main = .returned ∧
        t.inner.consumer = .finished ∧ t.inner.appended = t.inner.logs.pushed := by
  let started : List PipelineEvent :=
    (Engine.playClone 0 REQ_START "a" 7 ++ Engine.playPublish 0 ++ [Event.send 0]).map .engine
  obtain ⟨s, hr, hstop, hmain, hc, hgone⟩ := Transition.exists_run_of_exec (serve id) SendsToOpen
    (.init (init fun _ => []))
    (started.map .inner ++ [.leave 0, .inner (.read 0 [104]), .inner (.engine .signal)])
    (fun s => s.inner.engine.running = false ∧ s.inner.engine.main = .loop ∧
      s.inner.captured 0 = [104] ∧ s.gone 0 = true) (by decide)
  exact ⟨s, hmain, hc, hgone, (shutdown_completes hr hstop).2.2⟩

end Pipeline

end Jackfruit
