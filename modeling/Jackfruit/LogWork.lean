import Jackfruit.LogReads
import Jackfruit.ShutdownProgress

/-!
# The work that is left on the log buffer

A chunk that a producer has read has a push before it, a pop and a write to its file. `logging`
counts the steps on the log buffer that are left until no push is under way and the ring is empty,
and `unlogged` those of the pipeline until every chunk that has been read is in its file. The other
steps add only what `added` says (`unlogged_step`), and as long as anything is left one of the
counted steps can be taken (`quiet_or_carries`) : if a producer has an entry and the ring is empty,
a producer is ready to push, and a consumer that sleeps has left the ring empty.
-/

set_option linter.unusedSectionVars false

namespace Jackfruit

/-- What a push has left up to its section, with a wake-up, the pop of its entry and what the
consumer does with it. -/
def CallPc.pushWork (woken : Bool) : CallPc LogEntry ℤ → ℕ
  | .lock _ => 13
  | .wait _ => if woken then 12 else 11
  | _ => 0

/-- The return of `log_buffer_shutdown`, which holds the mutex. -/
def closerWork : Option (LogThread ℕ Unit Unit) → ℕ
  | some (.closer _) => 1
  | _ => 0

/-- The steps on the log buffer that carry the entries on. -/
def LogEvent.carries : LogEvent ℕ Unit Unit → Bool
  | .pushEnter _ _ | .pushReturn _ | .popCall _ | .popEnter _ _ | .closeReturn _ => true
  | _ => false

/-- What the other steps on the log buffer add. -/
def LogEvent.added : LogEvent ℕ Unit Unit → ℕ
  | .pushCall _ _ => 13
  | .wakeProducer _ | .wakeConsumer _ => 1
  | .closeEnter _ => 2
  | _ => 0

namespace CallPc

variable {woken : Bool} {pc : CallPc LogEntry ℤ}

@[simp] theorem pushWork_idle : (idle : CallPc LogEntry ℤ).pushWork woken = 0 :=
  rfl

@[simp] theorem pushWork_lock (entry : LogEntry) :
    (lock entry : CallPc LogEntry ℤ).pushWork woken = 13 :=
  rfl

@[simp] theorem pushWork_unlock (ret : ℤ) :
    (unlock ret : CallPc LogEntry ℤ).pushWork woken = 0 :=
  rfl

theorem pushWork_asleep (entry : LogEntry) :
    (wait entry : CallPc LogEntry ℤ).pushWork false = 11 :=
  rfl

theorem pushWork_le : pc.pushWork woken ≤ pc.pushWork false + 1 := by
  cases pc <;> cases woken <;> simp [pushWork]

theorem pushWork_mono : pc.pushWork false ≤ pc.pushWork woken := by
  cases pc <;> cases woken <;> simp [pushWork]

end CallPc

namespace LogSystem

variable {s s' : LogSystem ℕ Unit Unit} {e : LogEvent ℕ Unit Unit} {p : ℕ} {ps : Finset ℕ}

/-- A woken producer pays for its entry, except after the shutdown, when the entry is refused. -/
def pushWork (s : LogSystem ℕ Unit Unit) (p : ℕ) : ℕ :=
  (s.pushPc p).pushWork (!s.buf.shutdown && decide (p ∈ s.notFull.woken))

/-- What the threads on the log buffer have left, with the pushes of the producers `ps`. -/
def logging (s : LogSystem ℕ Unit Unit) (ps : Finset ℕ) : ℕ :=
  ∑ p ∈ ps, s.pushWork p + s.popping + closerWork s.mutex

theorem pushWork_of_contends {entry : LogEntry}
    (h : contends s.pushPc s.notFull p = some entry) :
    11 ≤ s.pushWork p ∧ (s.buf.shutdown = false → 12 ≤ s.pushWork p) := by
  unfold contends at h
  unfold pushWork
  split at h
  · rename_i a heq
    simp [heq]
  · rename_i a heq
    split_ifs at h with hw
    simp only [heq, hw, decide_true, Bool.and_true, CallPc.pushWork]
    cases s.buf.shutdown <;> simp
  · cases h

/-- The other producers see a wake-up at most. -/
theorem pushWork_other {q : ℕ} (hpc : s'.pushPc q = s.pushPc q)
    (hshut : s.buf.shutdown = true → s'.buf.shutdown = true)
    (hw : q ∈ s'.notFull.woken → q ∈ s.notFull.woken) : s'.pushWork q ≤ s.pushWork q := by
  unfold pushWork
  rw [hpc]
  cases hd : s'.buf.shutdown with
  | true => simpa [hd] using CallPc.pushWork_mono
  | false =>
    have hd' : s.buf.shutdown = false := by
      rw [Bool.eq_false_iff]
      intro h
      simp [hshut h] at hd
    by_cases hq : q ∈ s'.notFull.woken
    · simp [hd', hq, hw hq]
    · simpa [hq] using CallPc.pushWork_mono

/-- A signal on `not_full` wakes one producer at most. -/
theorem pushing_signal (w : Option ℕ) (hs : s'.pushPc = s.pushPc)
    (hshut : s'.buf.shutdown = s.buf.shutdown) (hcv : s'.notFull = s.notFull.signal w) :
    ∑ p ∈ ps, s'.pushWork p ≤ ∑ p ∈ ps, s.pushWork p + 1 := by
  have hsame (q : ℕ) (hq : w ≠ some q) : s'.pushWork q ≤ s.pushWork q := by
    refine pushWork_other (congrFun hs q) (fun h => hshut.trans h) fun hmem => ?_
    rw [hcv] at hmem
    cases w with
    | none => exact hmem
    | some p =>
      rw [CondVar.signal, CondVar.wake] at hmem
      split_ifs at hmem
      · exact (Finset.mem_insert.mp hmem).resolve_left fun heq => hq (congrArg some heq.symm)
      · exact hmem
  cases w with
  | none => exact (Finset.sum_le_sum fun q _ => hsame q (by simp)).trans (Nat.le_succ _)
  | some p =>
    refine Transition.sum_le_add (t := p)
      (fun q hq => hsame q fun heq => hq (Option.some.inj heq).symm) ?_
    rw [pushWork, pushWork, hs]
    exact CallPc.pushWork_le.trans (Nat.succ_le_succ CallPc.pushWork_mono)

theorem pushEnter_ready {w : Option Unit} (hs : s.step (.pushEnter p w) = some s') :
    s.mutex = none ∧ ∃ entry, contends s.pushPc s.notFull p = some entry := by
  cases step_pushEnter hs with
  | pushWait _ _ entry hnone hready | pushRefused _ _ entry hnone hready
  | pushStored _ _ entry hnone hready => exact ⟨hnone, entry, hready⟩

/-- A producer that goes through its section pays for its wait, or for its entry. -/
theorem pushing_enter {w : Option Unit} (hmem : p ∈ ps)
    (hs : s.step (.pushEnter p w) = some s') :
    (s'.popping = s.popping ∧ s'.mutex = s.mutex ∧
        ∑ q ∈ ps, s'.pushWork q + 1 ≤ ∑ q ∈ ps, s.pushWork q) ∨
      (closerWork s'.mutex = 0 ∧ ∑ q ∈ ps, s'.pushWork q + 11 ≤ ∑ q ∈ ps, s.pushWork q) := by
  cases step_pushEnter hs with
  | pushWait p w entry hnone hready hc hd =>
    have hp := (pushWork_of_contends hready).2 hd
    refine .inl ⟨rfl, rfl, Transition.sum_add_le hmem (fun q hq => ?_) ?_⟩
    · refine pushWork_other (Function.update_of_ne hq ..) id fun hw => ?_
      simpa [hq] using hw
    · simp only [pushWork, Function.update_self, CondVar.mem_woken_wait, ne_eq, not_true_eq_false,
        false_and, decide_false, Bool.and_false, CallPc.pushWork_asleep]
      exact hp
  | pushRefused p w entry hnone hready hd =>
    have hp := (pushWork_of_contends hready).1
    refine .inr ⟨rfl, Transition.sum_add_le hmem (fun q hq => ?_) ?_⟩
    · refine pushWork_other (Function.update_of_ne hq ..) id fun hw => ?_
      simpa [hq] using hw
    · simpa [pushWork] using hp
  | pushStored p w entry hnone hready hc hd hw =>
    have hp := (pushWork_of_contends hready).1
    refine .inr ⟨rfl, Transition.sum_add_le hmem (fun q hq => ?_) ?_⟩
    · refine pushWork_other (Function.update_of_ne hq ..) id fun hw => ?_
      simpa [hq] using hw
    · simpa [pushWork] using hp

/-- The consumer gives back more than the signal of its pop adds. -/
theorem logging_popEnter {c : Unit} {w : Option ℕ} (hd : Held s)
    (hs : s.step (.popEnter c w) = some s') : s'.logging ps + 1 ≤ s.logging ps := by
  have hpopping := popping_step hd hs (by simp)
  simp only [LogEvent.drains, LogEvent.newWork, Bool.toNat_true] at hpopping
  cases step_popEnter hs with
  | popWait | popDrained =>
    simp only [logging, closerWork] at hpopping ⊢
    change ∑ q ∈ ps, s.pushWork q + _ + _ + _ ≤ _
    omega
  | popTaken c w hnone hready hc hw =>
    have hwork := popWork_of_contends hready
    have hsum : ∑ q ∈ ps, pushWork { s with
        buf.toRingBuffer := s.buf.toRingBuffer.pop LOG_BUFFER_CAPACITY
        mutex := some (.consumer c)
        notFull := s.notFull.signal w
        notEmpty := s.notEmpty.resume c
        popPc := Function.update s.popPc c (.unlock (some s.buf.front))
        popped := s.popped ++ [s.buf.front] } q ≤ ∑ q ∈ ps, s.pushWork q + 1 :=
      pushing_signal w rfl rfl rfl
    simp only [logging, popping, hnone, closerWork, lockWork, Function.update_self,
      CallPc.popWork_taken, RingBuffer.pop]
    simp only [RingBuffer.pop] at hsum
    omega

/-- The steps that carry the entries on leave less to do, and the others add no more than they
cost. -/
theorem logging_step (hd : Held s) (hps : ∀ p, s.view.pending p ≠ none → p ∈ ps)
    (hs : s.step e = some s') (he : e ≠ .popReturn ()) :
    s'.logging ps + e.carries.toNat ≤ s.logging ps + e.added := by
  have hpopping := popping_step hd hs he
  cases e with
  | popReturn c => exact absurd rfl he
  | popEnter c w => exact logging_popEnter hd hs
  | pushEnter p w =>
    obtain ⟨hnone, entry, hentry⟩ := pushEnter_ready hs
    have hmem : p ∈ ps := hps p (by simp [pending_of_contends hentry])
    simp only [logging, LogEvent.carries, LogEvent.added, LogEvent.drains, LogEvent.newWork,
      Bool.toNat_true, Bool.toNat_false] at hpopping ⊢
    rcases pushing_enter hmem hs with ⟨hsame, hmutex, hsum⟩ | ⟨hmutex, hsum⟩
    · rw [hsame, hmutex]
      omega
    · omega
  | pushCall p entry =>
    cases step_cases hs with
    | pushCall _ _ hpc =>
      have hsum : ∑ q ∈ ps, pushWork { s with
          pushPc := Function.update s.pushPc p (.lock entry) } q ≤ ∑ q ∈ ps, s.pushWork q + 13 :=
        Transition.sum_le_add (t := p)
          (fun q hq => pushWork_other (Function.update_of_ne hq ..) id id) (by simp [pushWork])
      simp only [logging, LogEvent.carries, LogEvent.added, LogEvent.drains, LogEvent.newWork]
        at hpopping ⊢
      omega
  | pushReturn p =>
    cases step_cases hs with
    | pushReturn _ ret hpc =>
      have hsum : ∑ q ∈ ps, pushWork { s with
          mutex := none
          pushPc := Function.update s.pushPc p .idle } q ≤ ∑ q ∈ ps, s.pushWork q + 0 :=
        Transition.sum_le_add (t := p)
          (fun q hq => pushWork_other (Function.update_of_ne hq ..) id id) (by simp [pushWork])
      simp only [logging, LogEvent.carries, LogEvent.added, LogEvent.drains, LogEvent.newWork,
        closerWork] at hpopping ⊢
      omega
  | popCall c =>
    cases step_cases hs with
    | popCall =>
      simp only [LogEvent.drains, LogEvent.newWork, Bool.toNat_true] at hpopping
      simp only [logging, LogEvent.carries, LogEvent.added, Bool.toNat_true]
      change ∑ q ∈ ps, s.pushWork q + _ + closerWork s.mutex + 1 ≤ _
      omega
  | closeCall m =>
    cases step_cases hs with
    | closeCall => exact Nat.le_refl _
  | closeEnter m =>
    cases step_cases hs with
    | closeEnter m hnone =>
      have hsum : ∑ q ∈ ps, pushWork { s with
          buf := logBufferShutdown s.buf
          mutex := some (.closer m)
          notFull := s.notFull.broadcast
          notEmpty := s.notEmpty.broadcast
          closePc := Function.update s.closePc m (.unlock ()) } q ≤ ∑ q ∈ ps, s.pushWork q :=
        Finset.sum_le_sum fun q _ => by
          simpa [pushWork, logBufferShutdown] using CallPc.pushWork_mono
      simp only [logging, LogEvent.carries, LogEvent.added, LogEvent.drains, LogEvent.newWork,
        closerWork, Bool.toNat_false] at hpopping ⊢
      omega
  | closeReturn m =>
    cases step_cases hs with
    | closeReturn _ hpc =>
      have hlock := (hd.closer m).mp ⟨(), hpc⟩
      simp only [LogEvent.drains, LogEvent.newWork, Bool.toNat_false] at hpopping
      simp only [logging, hlock, LogEvent.carries, LogEvent.added, closerWork, Bool.toNat_true]
      change ∑ q ∈ ps, s.pushWork q + _ + _ + _ ≤ _
      omega
  | wakeProducer p =>
    cases step_cases hs with
    | wakeProducer _ hp =>
      have hsum : ∑ q ∈ ps, pushWork { s with notFull := s.notFull.wake p } q ≤
          ∑ q ∈ ps, s.pushWork q + 1 :=
        pushing_signal (some p) rfl rfl rfl
      simp only [logging, LogEvent.carries, LogEvent.added, Bool.toNat_false]
      change _ + s.popping + closerWork s.mutex + 0 ≤ _
      omega
  | wakeConsumer c =>
    cases step_cases hs with
    | wakeConsumer _ hc =>
      simp only [LogEvent.drains, LogEvent.newWork, Bool.toNat_false] at hpopping
      simp only [logging, LogEvent.carries, LogEvent.added, Bool.toNat_false]
      change ∑ q ∈ ps, s.pushWork q + _ + closerWork s.mutex + 0 ≤ _
      omega

/-- What the return of a pop adds in the consumer is counted there. -/
theorem logging_popReturn (ps : Finset ℕ) (hs : s.step (.popReturn ()) = some s') :
    s'.logging ps + (s.popPc ()).popWork s.notEmpty ≤ s.logging ps + 4 := by
  have hwork := popping_popReturn hs
  cases step_cases hs with
  | popReturn c ret hpc =>
    simp only [logging, closerWork]
    change ∑ q ∈ ps, s.pushWork q + _ + 0 + _ ≤ _
    omega

/-- Without an entry a producer has nothing left. -/
theorem pushWork_of_pending (h : s.view.pending p = none) : s.pushWork p = 0 := by
  unfold pushWork
  cases hpc : s.pushPc p <;> first | rfl | simp [view, pendingOf, hpc] at h

/-- Only `log_buffer_shutdown` sets the flag. -/
theorem shutdown_kept (hs : s.step e = some s') (he : e ≠ .closeEnter ()) :
    s'.buf.shutdown = s.buf.shutdown := by
  cases step_cases hs with
  | closeEnter => exact absurd rfl he
  | _ => rfl

/-- With an empty ring a producer can go on as soon as any has an entry. -/
theorem Reachable.contends_of_pending (hs : Reachable s) (hcount : s.buf.count = 0)
    (hp : s.view.pending p ≠ none) : ∃ q entry, contends s.pushPc s.notFull q = some entry := by
  have hwoken {q : ℕ} (hq : q ∈ s.notFull.woken) : ∃ entry,
      contends s.pushPc s.notFull q = some entry := by
    obtain ⟨entry, hpc⟩ := hs.inWait.1 q (.inr hq)
    exact ⟨entry, by simp [contends, hpc, hq]⟩
  cases hpc : s.pushPc p with
  | idle | unlock => simp [view, pendingOf, hpc] at hp
  | lock entry => exact ⟨p, entry, by simp [contends, hpc]⟩
  | wait entry =>
    rcases hs.parked.1 p entry hpc with hasleep | hw
    · -- The free cells are on offer to producers that have been woken.
      have hcard := hs.awake.space ⟨p, hasleep⟩
      obtain ⟨q, hq⟩ : s.notFull.woken.Nonempty := by
        rw [← Finset.card_pos]
        exact lt_of_lt_of_le (by rw [hcount]; decide) hcard
      exact ⟨q, hwoken hq⟩
    · exact ⟨p, hwoken hw⟩

/-- A push that has been refused was refused by the shutdown. -/
theorem Reachable.shutdown_of_refused (hs : Reachable s) {ret : ℤ} (hpc : s.pushPc p = .unlock ret)
    (hret : ret ≠ 0) : s.buf.shutdown = true := by
  refine Transition.Run.invariant (I := fun t : LogSystem ℕ Unit Unit =>
    ∀ p ret, t.pushPc p = .unlock ret → ret ≠ 0 → t.buf.shutdown = true) hs
    (fun p ret h => by simp [init] at h) (fun t e u ih _ hstep q r h hr => ?_) p ret hpc hret
  have key {x : CallPc LogEntry ℤ} {p : ℕ} (hu : Function.update t.pushPc p x q = .unlock r)
      (hx : x ≠ .unlock r) : t.buf.shutdown = true := by
    rcases eq_or_ne q p with rfl | hq
    · exact absurd (by simpa using hu) hx
    · exact ih q r (by simpa [hq] using hu) hr
  cases step_cases hstep with
  | pushCall | pushWait | pushReturn => exact key h (by simp)
  | pushRefused p w entry _ _ hd => exact hd
  | pushStored => exact key h (by simpa using hr.symm)
  | closeEnter => rfl
  | _ => exact ih q r h hr

end LogSystem

/-- The steps of the producers in their pushes and of the consumer, and the return of
`log_buffer_shutdown`, which gives the mutex back. -/
def PipelineEvent.carries : PipelineEvent → Bool
  | .logs e => e.carries
  | .pushReturn _ | .popCall | .popReturn | .lookup | .append | .closeReturn => true
  | _ => false

/-- What the other steps of the pipeline add. -/
def PipelineEvent.added : PipelineEvent → ℕ
  | .logs e => e.added
  | .read _ _ => 13
  | .closeEnter => 2
  | _ => 0

namespace Pipeline

variable {F : Type} [DecidableEq F] {resolve : CStr → F} {files : F → List UInt8}
  {s s' : Pipeline F} {e : PipelineEvent} {p : ℕ}

/-- The steps that are left until every chunk that has been read is in its file. -/
def unlogged (s : Pipeline F) : ℕ :=
  s.consumer.work + s.logs.logging s.engine.cloned.toFinset

/-- Only a producer whose start has cloned has an entry. -/
theorem cloned_of_pending {C : Pipeline F → PipelineEvent → Prop}
    (hr : Transition.Run (step resolve) C (init files) s) (hp : s.logs.view.pending p ≠ none) :
    p ∈ s.engine.cloned := by
  have hre := engine_run hr
  have w := Engine.Wf.of_run hre
  obtain ⟨entry, hentry⟩ := Option.ne_none_iff_exists'.mp hp
  obtain ⟨i, hi, -⟩ := (Routed.of_run hr).tagged.pending p entry hentry
  obtain ⟨-, c, hchild, -⟩ := w.of_settled (w.producer p i hi)
  exact Engine.cloned_of_child hre hchild

/-- A start that clones has no entry yet. -/
theorem logging_cloned {C : Pipeline F → PipelineEvent → Prop}
    (hr : Transition.Run (step resolve) C (init files) s) {e : Event} {engine : Engine}
    (hs : s.engine.step e = some engine) :
    s.logs.logging engine.cloned.toFinset = s.logs.logging s.engine.cloned.toFinset := by
  have hcons (h : ℕ) : s.logs.logging (h :: s.engine.cloned).toFinset =
      s.logs.logging s.engine.cloned.toFinset := by
    have hsum := Finset.sum_insert_of_eq_zero_if_notMem (f := s.logs.pushWork)
      (a := h) (s := s.engine.cloned.toFinset) fun hmem =>
        LogSystem.pushWork_of_pending (not_not.mp fun hp =>
          hmem (List.mem_toFinset.mpr (cloned_of_pending hr hp)))
    simp only [LogSystem.logging, List.toFinset_cons, hsum]
  cases Engine.step_effect hs with
  | clone h => exact hcons h
  | _ => rfl

theorem unlogged_step {C : Pipeline F → PipelineEvent → Prop}
    (hr : Transition.Run (step resolve) C (init files) s) (hs : step resolve s e = some s') :
    s'.unlogged + e.carries.toNat ≤ s.unlogged + e.added := by
  have hl := logs_run hr
  have hps : ∀ p, s.logs.view.pending p ≠ none → p ∈ s.engine.cloned.toFinset :=
    fun p hp => List.mem_toFinset.mpr (cloned_of_pending hr hp)
  have hlogging {e : LogEvent ℕ Unit Unit} {logs : LogSystem ℕ Unit Unit}
      (hlogs : s.logs.step e = some logs) (hpop : e ≠ .popReturn ()) :
      logs.logging s.engine.cloned.toFinset + e.carries.toNat ≤
        s.logs.logging s.engine.cloned.toFinset + e.added :=
    LogSystem.logging_step hl.held hps hlogs hpop
  cases step_turn hs with
  | engine e engine heng =>
    have hsame := logging_cloned hr heng
    change s.consumer.work + s.logs.logging engine.cloned.toFinset ≤ _
    rw [hsame]
    exact Nat.le_refl _
  | logs e logs hlogs hsection =>
    have hwork := hlogging hlogs (LogEvent.ne_close hsection).2.2.2
    simp only [unlogged, PipelineEvent.carries, PipelineEvent.added]
    omega
  | read h chunk entry logs captured hlogs | pushReturn h logs finished hlogs | popCall logs hlogs
  | closeCall logs _ _ hlogs | closeEnter logs hlogs | closeReturn logs hlogs =>
    have hwork := hlogging hlogs (by simp)
    simp only [LogEvent.carries, LogEvent.added] at hwork
    simp only [unlogged, PipelineEvent.carries, PipelineEvent.added]
    omega
  | readEnd h finished => exact Nat.le_refl _
  | popReturn ret logs hpc hlogs =>
    have hpop : s.consumer = .pop := by
      by_contra hne
      have hidle := (Routed.of_run hr).consumed.idle hne
      simp [hpc] at hidle
    have hwork := LogSystem.logging_popReturn s.engine.cloned.toFinset hlogs
    rw [hpc] at hwork
    simp only [unlogged, PipelineEvent.carries, PipelineEvent.added, hpop]
    cases ret with
    | none =>
      simp only [CallPc.popWork_drained, ConsumerPc.work, Bool.toNat_true] at hwork ⊢
      omega
    | some entry =>
      simp only [CallPc.popWork_taken, ConsumerPc.work, Bool.toNat_true] at hwork ⊢
      omega
  | lookup entry consumer hc hless =>
    have hwork : s.consumer.work = 7 := by rw [hc]; rfl
    simp only [unlogged, PipelineEvent.carries, PipelineEvent.added, Bool.toNat_true]
    omega
  | append path entry files appended hc =>
    simp only [unlogged, PipelineEvent.carries, PipelineEvent.added, hc, ConsumerPc.work,
      Bool.toNat_true]
    omega

/-! ## No step is missing -/

/-- The producers, the ring and the consumer have no entry. -/
structure Quiet (s : Pipeline F) : Prop where
  pending : ∀ p, s.logs.view.pending p = none
  ring : s.logs.buf.count = 0
  hand : hand s.consumer = none
  taken : s.logs.view.taken () = none

/-- A step that carries an entry on can be taken. -/
def Carries (resolve : CStr → F) (s : Pipeline F) : Prop :=
  ∃ e, e.carries = true ∧ e.added = 0 ∧ (s.next resolve e).isSome = true

/-- With an empty ring and a consumer at rest only the producers are left. -/
theorem quiet_or_pushes (hl : s.logs.Reachable) (hnone : s.logs.mutex = none)
    (hcount : s.logs.buf.count = 0) (hhand : hand s.consumer = none)
    (htaken : s.logs.view.taken () = none) : Quiet s ∨ Carries resolve s := by
  by_cases hp : ∀ p, s.logs.view.pending p = none
  · exact .inl ⟨hp, hcount, hhand, htaken⟩
  · push Not at hp
    obtain ⟨p, hp⟩ := hp
    obtain ⟨q, entry, hready⟩ := hl.contends_of_pending hcount hp
    obtain ⟨w, hw⟩ := LogSystem.pushEnter_enabled hnone hready
    exact .inr ⟨.logs (.pushEnter q w), rfl, rfl, by
      simpa [Pipeline.next, LogEvent.isSection] using hw⟩

/-- A consumer that waits and has not been woken has left the ring empty. -/
theorem count_of_asleep (hl : s.logs.Reachable) (hasleep : () ∈ s.logs.notEmpty.asleep) :
    s.logs.buf.count = 0 := by
  have hcard := hl.awake.entries ⟨(), hasleep⟩
  have hempty : s.logs.notEmpty.woken = ∅ := Finset.eq_empty_of_forall_notMem fun _ =>
    Finset.disjoint_left.mp s.logs.notEmpty.disjoint hasleep
  rw [hempty, Finset.card_empty] at hcard
  exact Nat.le_zero.mp hcard

theorem quiet_or_carries {C : Pipeline F → PipelineEvent → Prop}
    (hr : Transition.Run (step resolve) C (init files) s) : Quiet s ∨ Carries resolve s := by
  have hl := logs_run hr
  by_cases hnone : s.logs.mutex = none
  · cases hc : s.consumer with
    | lookup entry => exact .inr ⟨.lookup, rfl, rfl, by simp [Pipeline.next, hc]⟩
    | write path entry => exact .inr ⟨.append, rfl, rfl, by simp [Pipeline.next, hc]⟩
    | finished =>
      have d := (Routed.of_run hr).consumed
      have htaken : s.logs.view.taken () = none := by
        simp [LogSystem.view, d.idle (by simp [hc]), LogSystem.takenOf]
      exact quiet_or_pushes hl hnone (d.finished hc).2 (by rw [hc]; rfl) htaken
    | pop =>
      have hpop (hready : LogSystem.contends s.logs.popPc s.logs.notEmpty () = some ()) :
          Quiet s ∨ Carries resolve s := by
        obtain ⟨w, hw⟩ := LogSystem.popEnter_enabled hnone hready
        exact .inr ⟨.logs (.popEnter () w), rfl, rfl, by
          simpa [Pipeline.next, LogEvent.isSection] using hw⟩
      cases hpc : s.logs.popPc () with
      | idle => exact .inr ⟨.popCall, rfl, rfl, by simp [Pipeline.next, LogSystem.step, hc, hpc]⟩
      | lock a => exact hpop (by simp [LogSystem.contends, hpc])
      | unlock ret =>
        have hlock := (hl.held.consumer ()).mp ⟨ret, hpc⟩
        simp [hnone] at hlock
      | wait a =>
        rcases hl.parked.2 () a hpc with hasleep | hw
        · exact quiet_or_pushes hl hnone (count_of_asleep hl hasleep) (by rw [hc]; rfl)
            (by simp [LogSystem.view, LogSystem.takenOf, hpc])
        · exact hpop (by simp [LogSystem.contends, hpc, hw])
  · obtain ⟨e, rfl | rfl | ⟨p, rfl⟩, hs⟩ := unlock_enabled hl hnone
    all_goals exact .inr ⟨_, rfl, rfl, hs⟩

theorem unlogged_le {C : Pipeline F → PipelineEvent → Prop}
    (hr : Transition.Run (step resolve) C (init files) s) :
    s.unlogged ≤ 8 * LOG_BUFFER_CAPACITY + 16 + 13 * s.engine.cloned.length := by
  have hconsumer := consumer_work_le s.consumer
  have hpopping := popping_le (logs_run hr)
  have hcloser : closerWork s.logs.mutex ≤ 1 := by
    unfold closerWork
    split <;> omega
  have hpushing : ∑ p ∈ s.engine.cloned.toFinset, s.logs.pushWork p ≤
      13 * s.engine.cloned.length := by
    have hwork (p : ℕ) : s.logs.pushWork p ≤ 13 := by
      unfold LogSystem.pushWork CallPc.pushWork
      split <;> (try split_ifs) <;> omega
    calc ∑ p ∈ s.engine.cloned.toFinset, s.logs.pushWork p
        ≤ s.engine.cloned.toFinset.card • 13 := Finset.sum_le_card_nsmul _ _ _ fun p _ => hwork p
      _ ≤ 13 * s.engine.cloned.length := by
          have hcard := s.engine.cloned.toFinset_card_le
          rw [smul_eq_mul]
          omega
  simp only [unlogged, LogSystem.logging]
  omega

/-- Before the shutdown no producer is sent out of its loop, and the steps that carry the entries on
do not set the flag. -/
theorem carries_kept (hl : s.logs.Reachable) (hs : step resolve s e = some s')
    (he : e.carries = true ∨ ∃ h chunk, e = .read h chunk) (hopen : s.logs.buf.shutdown = false)
    (h : ℕ) : s'.logs.buf.shutdown = false ∧ s'.finished h = s.finished h := by
  constructor
  · cases step_turn hs with
    | logs e logs hlogs hsection =>
      exact (LogSystem.shutdown_kept hlogs (LogEvent.ne_close hsection).2.1).trans hopen
    | read h chunk entry logs captured hlogs | pushReturn h logs finished hlogs
    | popCall logs hlogs | popReturn ret logs _ hlogs | closeReturn logs hlogs =>
      exact (LogSystem.shutdown_kept hlogs (by simp)).trans hopen
    | engine | closeCall | closeEnter => simp [PipelineEvent.carries] at he
    | _ => exact hopen
  · have hturn := producer_turn hs h
    generalize s'.logs.pushPc h = pc at hturn
    generalize s'.finished h = fin at hturn ⊢
    cases hturn with
    | same | enter => rfl
    | read i chunk _ hfin => exact hfin.symm
    | pushReturn ret hpc =>
      have hret : ret = 0 := by
        by_contra hne
        exact absurd ((hl.shutdown_of_refused hpc hne).symm.trans hopen) (by simp)
      rw [if_pos hret]
    | readEnd => simp [PipelineEvent.carries] at he

end Pipeline

end Jackfruit
