import Jackfruit.CondVar
import Jackfruit.RingBuffer
import Jackfruit.Transition
import Mathlib.Tactic.SplitIfs

/-!
# The log buffer

`log_buffer_t` of `engine.c` : a ring of log entries under one mutex, with the condition
variables `not_full` for the producers and `not_empty` for the consumers.

`logBufferPush`, `logBufferPop` and `logBufferShutdown` are the critical sections : what a
thread does between getting the mutex and either leaving the section or going to sleep.
`LogSystem` runs them from any number of threads. A thread gets the mutex and goes through
its section in one step (nobody else can look into the buffer meanwhile), and gives the
mutex back in a second step, in which the call returns. A thread in `pthread_cond_wait` has
no mutex, and once woken it competes for it with every other thread.

`Effect` is what one step can do to the buffer and the wait sets. The queue of the ring
(`LogState.Queue`) and the counting invariant of its wake-ups (`LogState.Awake`) are kept by
every effect, so they hold in every reachable state.
-/

set_option linter.unusedSectionVars false

namespace Jackfruit

/-- `LOG_BUFFER_CAPACITY`. -/
def LOG_BUFFER_CAPACITY : ℕ :=
  128

/-- `LOG_CHUNK_SIZE`. -/
def LOG_CHUNK_SIZE : ℕ :=
  512

/-- `log_entry_t`. -/
structure LogEntry where
  containerIndex : ℤ
  len : ℕ
  data : List UInt8
  deriving DecidableEq

/-- A zeroed entry. -/
def LogEntry.zero : LogEntry :=
  ⟨0, 0, List.replicate LOG_CHUNK_SIZE 0⟩

/-- `log_buffer_t` without its mutex and condition variables. -/
structure LogBuffer extends RingBuffer LogEntry where
  shutdown : Bool

/-- `log_buffer_init`. -/
def logBufferInit : LogBuffer where
  toRingBuffer := RingBuffer.empty LogEntry.zero
  shutdown := false

/-- How a critical section ends : in `pthread_cond_wait`, or with a return value, the new
buffer, and whether the other side's condition was signalled. -/
inductive Section (R : Type)
  | wait
  | leave (ret : R) (buf : LogBuffer) (signal : Bool)

/-- `log_buffer_push` from the mutex to the unlock or the wait. -/
def logBufferPush (buf : LogBuffer) (entry : LogEntry) : Section ℤ :=
  if buf.count = LOG_BUFFER_CAPACITY ∧ buf.shutdown = false then .wait
  else if buf.shutdown then .leave (-1) buf false
  else .leave 0
    { buf with
      entries := Function.update buf.entries buf.tail entry
      tail := (buf.tail + 1) % LOG_BUFFER_CAPACITY
      count := buf.count + 1 } true

/-- `log_buffer_pop` from the mutex to the unlock or the wait. It returns the entry for `0`
and nothing for `-1`. -/
def logBufferPop (buf : LogBuffer) : Section (Option LogEntry) :=
  if buf.count = 0 ∧ buf.shutdown = false then .wait
  else if buf.count = 0 ∧ buf.shutdown = true then .leave none buf false
  else .leave (some (buf.entries buf.head))
    { buf with
      head := (buf.head + 1) % LOG_BUFFER_CAPACITY
      count := buf.count - 1 } true

/-- `log_buffer_shutdown`, whose section broadcasts both conditions. -/
def logBufferShutdown (buf : LogBuffer) : LogBuffer :=
  { buf with shutdown := true }

/-- Where a thread is in a call that takes `A` and returns `R`. -/
inductive CallPc (A R : Type)
  | idle
  /-- At `pthread_mutex_lock`. -/
  | lock (a : A)
  /-- In `pthread_cond_wait`. -/
  | wait (a : A)
  /-- Has the mutex, and will unlock and return. -/
  | unlock (r : R)
  deriving DecidableEq

/-- The threads of a log buffer. -/
inductive LogThread (P C M : Type)
  | producer (p : P)
  | consumer (c : C)
  | closer (m : M)
  deriving DecidableEq

/-- The log buffer with the threads waiting at its condition variables. -/
structure LogState (P C : Type) where
  buf : LogBuffer
  notFull : CondVar P
  notEmpty : CondVar C
  /-- The entries whose push returned `0`, in the order of their sections. -/
  pushed : List LogEntry
  /-- The entries the successful pops returned, in the order of their sections. -/
  popped : List LogEntry

/-- The log buffer, its mutex and its threads. -/
structure LogSystem (P C M : Type) extends LogState P C where
  mutex : Option (LogThread P C M)
  pushPc : P → CallPc LogEntry ℤ
  popPc : C → CallPc Unit (Option LogEntry)
  closePc : M → CallPc Unit Unit

/-- The steps of the threads. `Enter` gets the mutex and goes through the section, and names
the thread that its signal wakes. -/
inductive LogEvent (P C M : Type)
  | pushCall (p : P) (entry : LogEntry)
  | pushEnter (p : P) (wakes : Option C)
  | pushReturn (p : P)
  | popCall (c : C)
  | popEnter (c : C) (wakes : Option P)
  | popReturn (c : C)
  | closeCall (m : M)
  | closeEnter (m : M)
  | closeReturn (m : M)
  /-- Spurious wake-ups. -/
  | wakeProducer (p : P)
  | wakeConsumer (c : C)

namespace LogSystem

variable {P C M : Type} [DecidableEq P] [DecidableEq C] [DecidableEq M]

/-- After `log_buffer_init`. -/
def init : LogSystem P C M where
  buf := logBufferInit
  mutex := none
  notFull := CondVar.init
  notEmpty := CondVar.init
  pushPc _ := .idle
  popPc _ := .idle
  closePc _ := .idle
  pushed := []
  popped := []

/-- A signal that wakes `w`, or no signal and nobody woken. -/
def signalIf {T : Type} [DecidableEq T] (signal : Bool) (cv : CondVar T) (w : Option T) :
    Option (CondVar T) :=
  if signal then if cv.Admits w then some (cv.signal w) else none
  else if w = none then some cv else none

/-- A call that may compete for the mutex : at the lock, or woken from the wait. -/
def contends {T A R : Type} [DecidableEq T] (pc : T → CallPc A R) (cv : CondVar T) (t : T) :
    Option A :=
  match pc t with
  | .lock a => some a
  | .wait a => if t ∈ cv.woken then some a else none
  | _ => none

/-- One step of one thread. -/
def step (s : LogSystem P C M) : LogEvent P C M → Option (LogSystem P C M)
  | .pushCall p entry =>
    match s.pushPc p with
    | .idle => some { s with pushPc := Function.update s.pushPc p (.lock entry) }
    | _ => none
  | .pushEnter p w =>
    match s.mutex, contends s.pushPc s.notFull p with
    | none, some entry =>
      match logBufferPush s.buf entry with
      | .wait =>
        (signalIf false s.notEmpty w).map fun notEmpty =>
          { s with
            notFull := (s.notFull.resume p).wait p
            notEmpty := notEmpty
            pushPc := Function.update s.pushPc p (.wait entry) }
      | .leave ret buf signal =>
        (signalIf signal s.notEmpty w).map fun notEmpty =>
          { s with
            buf := buf
            mutex := some (.producer p)
            notFull := s.notFull.resume p
            notEmpty := notEmpty
            pushPc := Function.update s.pushPc p (.unlock ret)
            pushed := if ret = 0 then s.pushed ++ [entry] else s.pushed }
    | _, _ => none
  | .pushReturn p =>
    match s.pushPc p with
    | .unlock _ => some { s with mutex := none, pushPc := Function.update s.pushPc p .idle }
    | _ => none
  | .popCall c =>
    match s.popPc c with
    | .idle => some { s with popPc := Function.update s.popPc c (.lock ()) }
    | _ => none
  | .popEnter c w =>
    match s.mutex, contends s.popPc s.notEmpty c with
    | none, some _ =>
      match logBufferPop s.buf with
      | .wait =>
        (signalIf false s.notFull w).map fun notFull =>
          { s with
            notFull := notFull
            notEmpty := (s.notEmpty.resume c).wait c
            popPc := Function.update s.popPc c (.wait ()) }
      | .leave ret buf signal =>
        (signalIf signal s.notFull w).map fun notFull =>
          { s with
            buf := buf
            mutex := some (.consumer c)
            notFull := notFull
            notEmpty := s.notEmpty.resume c
            popPc := Function.update s.popPc c (.unlock ret)
            popped := s.popped ++ ret.toList }
    | _, _ => none
  | .popReturn c =>
    match s.popPc c with
    | .unlock _ => some { s with mutex := none, popPc := Function.update s.popPc c .idle }
    | _ => none
  | .closeCall m =>
    match s.closePc m with
    | .idle => some { s with closePc := Function.update s.closePc m (.lock ()) }
    | _ => none
  | .closeEnter m =>
    match s.mutex, s.closePc m with
    | none, .lock _ =>
      some { s with
        buf := logBufferShutdown s.buf
        mutex := some (.closer m)
        notFull := s.notFull.broadcast
        notEmpty := s.notEmpty.broadcast
        closePc := Function.update s.closePc m (.unlock ()) }
    | _, _ => none
  | .closeReturn m =>
    match s.closePc m with
    | .unlock _ => some { s with mutex := none, closePc := Function.update s.closePc m .idle }
    | _ => none
  | .wakeProducer p =>
    if p ∈ s.notFull.asleep then some { s with notFull := s.notFull.wake p } else none
  | .wakeConsumer c =>
    if c ∈ s.notEmpty.asleep then some { s with notEmpty := s.notEmpty.wake c } else none

/-- Reached from `log_buffer_init` by steps of the threads, in any order. -/
def Reachable (s : LogSystem P C M) : Prop :=
  Transition.Run step Transition.Always init s

end LogSystem

/-! ## What one step does -/

/-- What one step can do to the buffer and the wait sets. -/
inductive Effect {P C : Type} [DecidableEq P] [DecidableEq C] (s : LogState P C) :
    LogState P C → Prop
  | pushWait (p : P) : s.buf.count = LOG_BUFFER_CAPACITY → s.buf.shutdown = false →
      Effect s { s with notFull := (s.notFull.resume p).wait p }
  | pushRefused (p : P) : s.buf.shutdown = true →
      Effect s { s with notFull := s.notFull.resume p }
  | pushStored (p : P) (entry : LogEntry) (w : Option C) :
      s.buf.count ≠ LOG_BUFFER_CAPACITY → s.buf.shutdown = false → s.notEmpty.Admits w →
      Effect s { s with
        buf.toRingBuffer := s.buf.toRingBuffer.push LOG_BUFFER_CAPACITY entry
        notFull := s.notFull.resume p
        notEmpty := s.notEmpty.signal w
        pushed := s.pushed ++ [entry] }
  | popWait (c : C) : s.buf.count = 0 → s.buf.shutdown = false →
      Effect s { s with notEmpty := (s.notEmpty.resume c).wait c }
  | popDrained (c : C) : s.buf.count = 0 → s.buf.shutdown = true →
      Effect s { s with notEmpty := s.notEmpty.resume c }
  | popTaken (c : C) (w : Option P) : s.buf.count ≠ 0 → s.notFull.Admits w →
      Effect s { s with
        buf.toRingBuffer := s.buf.toRingBuffer.pop LOG_BUFFER_CAPACITY
        notFull := s.notFull.signal w
        notEmpty := s.notEmpty.resume c
        popped := s.popped ++ [s.buf.front] }
  | close : Effect s { s with
        buf := logBufferShutdown s.buf
        notFull := s.notFull.broadcast
        notEmpty := s.notEmpty.broadcast }
  | wakeProducer (p : P) : Effect s { s with notFull := s.notFull.wake p }
  | wakeConsumer (c : C) : Effect s { s with notEmpty := s.notEmpty.wake c }

theorem logBufferPush_cases (buf : LogBuffer) (entry : LogEntry) :
    (buf.count = LOG_BUFFER_CAPACITY ∧ buf.shutdown = false ∧
        logBufferPush buf entry = .wait) ∨
      (buf.shutdown = true ∧ logBufferPush buf entry = .leave (-1) buf false) ∨
      (buf.count ≠ LOG_BUFFER_CAPACITY ∧ buf.shutdown = false ∧
        logBufferPush buf entry =
          .leave 0 { buf with
            toRingBuffer := buf.toRingBuffer.push LOG_BUFFER_CAPACITY entry } true) := by
  unfold logBufferPush
  cases hd : buf.shutdown with
  | true => exact Or.inr (Or.inl ⟨rfl, by simp⟩)
  | false =>
    by_cases hc : buf.count = LOG_BUFFER_CAPACITY
    · exact Or.inl ⟨hc, rfl, by simp [hc]⟩
    · exact Or.inr (Or.inr ⟨hc, rfl, by simp [hc, RingBuffer.push]⟩)

theorem logBufferPop_cases (buf : LogBuffer) :
    (buf.count = 0 ∧ buf.shutdown = false ∧ logBufferPop buf = .wait) ∨
      (buf.count = 0 ∧ buf.shutdown = true ∧ logBufferPop buf = .leave none buf false) ∨
      (buf.count ≠ 0 ∧
        logBufferPop buf =
          .leave (some buf.front) { buf with
            toRingBuffer := buf.toRingBuffer.pop LOG_BUFFER_CAPACITY } true) := by
  unfold logBufferPop
  by_cases hc : buf.count = 0
  · cases hd : buf.shutdown with
    | true => exact Or.inr (Or.inl ⟨hc, rfl, by simp [hc]⟩)
    | false => exact Or.inl ⟨hc, rfl, by simp [hc]⟩
  · exact Or.inr (Or.inr ⟨hc, by simp [hc, RingBuffer.pop, RingBuffer.front]⟩)

namespace LogSystem

variable {P C M : Type} [DecidableEq P] [DecidableEq C] [DecidableEq M]
  {s s' : LogSystem P C M}

theorem signalIf_true {T : Type} [DecidableEq T] {cv cv' : CondVar T} {w : Option T}
    (h : signalIf true cv w = some cv') : cv.Admits w ∧ cv' = cv.signal w := by
  rw [signalIf, if_pos rfl] at h
  by_cases hw : cv.Admits w
  · rw [if_pos hw] at h
    exact ⟨hw, (Option.some.inj h).symm⟩
  · rw [if_neg hw] at h
    cases h

theorem signalIf_false {T : Type} [DecidableEq T] {cv cv' : CondVar T} {w : Option T}
    (h : signalIf false cv w = some cv') : cv' = cv := by
  rw [signalIf, if_neg Bool.false_ne_true] at h
  by_cases hw : w = none
  · rw [if_pos hw] at h
    exact (Option.some.inj h).symm
  · rw [if_neg hw] at h
    cases h

/-- Everything that an event can do, with the ways through a section told apart. -/
inductive Step (s : LogSystem P C M) : LogEvent P C M → LogSystem P C M → Prop
  | pushCall (p : P) (entry : LogEntry) : s.pushPc p = .idle →
      Step s (.pushCall p entry) { s with pushPc := Function.update s.pushPc p (.lock entry) }
  | pushWait (p : P) (w : Option C) (entry : LogEntry) : s.mutex = none →
      contends s.pushPc s.notFull p = some entry → s.buf.count = LOG_BUFFER_CAPACITY →
      s.buf.shutdown = false → Step s (.pushEnter p w) { s with
        notFull := (s.notFull.resume p).wait p
        pushPc := Function.update s.pushPc p (.wait entry) }
  | pushRefused (p : P) (w : Option C) (entry : LogEntry) : s.mutex = none →
      contends s.pushPc s.notFull p = some entry → s.buf.shutdown = true →
      Step s (.pushEnter p w) { s with
        mutex := some (.producer p)
        notFull := s.notFull.resume p
        pushPc := Function.update s.pushPc p (.unlock (-1)) }
  | pushStored (p : P) (w : Option C) (entry : LogEntry) : s.mutex = none →
      contends s.pushPc s.notFull p = some entry → s.buf.count ≠ LOG_BUFFER_CAPACITY →
      s.buf.shutdown = false → s.notEmpty.Admits w → Step s (.pushEnter p w) { s with
        buf.toRingBuffer := s.buf.toRingBuffer.push LOG_BUFFER_CAPACITY entry
        mutex := some (.producer p)
        notFull := s.notFull.resume p
        notEmpty := s.notEmpty.signal w
        pushPc := Function.update s.pushPc p (.unlock 0)
        pushed := s.pushed ++ [entry] }
  | pushReturn (p : P) (ret : ℤ) : s.pushPc p = .unlock ret →
      Step s (.pushReturn p) { s with
        mutex := none
        pushPc := Function.update s.pushPc p .idle }
  | popCall (c : C) : s.popPc c = .idle →
      Step s (.popCall c) { s with popPc := Function.update s.popPc c (.lock ()) }
  | popWait (c : C) (w : Option P) : s.mutex = none →
      contends s.popPc s.notEmpty c = some () → s.buf.count = 0 →
      s.buf.shutdown = false → Step s (.popEnter c w) { s with
        notEmpty := (s.notEmpty.resume c).wait c
        popPc := Function.update s.popPc c (.wait ()) }
  | popDrained (c : C) (w : Option P) : s.mutex = none →
      contends s.popPc s.notEmpty c = some () → s.buf.count = 0 →
      s.buf.shutdown = true → Step s (.popEnter c w) { s with
        mutex := some (.consumer c)
        notEmpty := s.notEmpty.resume c
        popPc := Function.update s.popPc c (.unlock none) }
  | popTaken (c : C) (w : Option P) : s.mutex = none →
      contends s.popPc s.notEmpty c = some () → s.buf.count ≠ 0 →
      s.notFull.Admits w → Step s (.popEnter c w) { s with
        buf.toRingBuffer := s.buf.toRingBuffer.pop LOG_BUFFER_CAPACITY
        mutex := some (.consumer c)
        notFull := s.notFull.signal w
        notEmpty := s.notEmpty.resume c
        popPc := Function.update s.popPc c (.unlock (some s.buf.front))
        popped := s.popped ++ [s.buf.front] }
  | popReturn (c : C) (ret : Option LogEntry) : s.popPc c = .unlock ret →
      Step s (.popReturn c) { s with
        mutex := none
        popPc := Function.update s.popPc c .idle }
  | closeCall (m : M) : s.closePc m = .idle →
      Step s (.closeCall m) { s with closePc := Function.update s.closePc m (.lock ()) }
  | closeEnter (m : M) : s.mutex = none → s.closePc m = .lock () →
      Step s (.closeEnter m) { s with
        buf := logBufferShutdown s.buf
        mutex := some (.closer m)
        notFull := s.notFull.broadcast
        notEmpty := s.notEmpty.broadcast
        closePc := Function.update s.closePc m (.unlock ()) }
  | closeReturn (m : M) : s.closePc m = .unlock () → Step s (.closeReturn m) { s with
        mutex := none
        closePc := Function.update s.closePc m .idle }
  | wakeProducer (p : P) : p ∈ s.notFull.asleep →
      Step s (.wakeProducer p) { s with notFull := s.notFull.wake p }
  | wakeConsumer (c : C) : c ∈ s.notEmpty.asleep →
      Step s (.wakeConsumer c) { s with notEmpty := s.notEmpty.wake c }

/-- A thread goes through `log_buffer_push` in one of three ways. -/
theorem step_pushEnter {p : P} {w : Option C} (h : step s (.pushEnter p w) = some s') :
    Step s (.pushEnter p w) s' := by
  unfold step at h
  dsimp only at h
  split at h
  · rename_i entry hm hp
    rcases logBufferPush_cases s.buf entry with ⟨hc, hd, heq⟩ | ⟨hd, heq⟩ | ⟨hc, hd, heq⟩
    · rw [heq] at h
      obtain ⟨cv, hcv, rfl⟩ := Option.map_eq_some_iff.mp h
      obtain rfl := signalIf_false hcv
      exact .pushWait p w entry hm hp hc hd
    · rw [heq] at h
      obtain ⟨cv, hcv, rfl⟩ := Option.map_eq_some_iff.mp h
      obtain rfl := signalIf_false hcv
      exact .pushRefused p w entry hm hp hd
    · rw [heq] at h
      obtain ⟨cv, hcv, rfl⟩ := Option.map_eq_some_iff.mp h
      obtain ⟨hw, rfl⟩ := signalIf_true hcv
      exact .pushStored p w entry hm hp hc hd hw
  · exact absurd h (by simp)

/-- A thread goes through `log_buffer_pop` in one of three ways. -/
theorem step_popEnter {c : C} {w : Option P} (h : step s (.popEnter c w) = some s') :
    Step s (.popEnter c w) s' := by
  unfold step at h
  dsimp only at h
  split at h
  · rename_i hm hp
    rcases logBufferPop_cases s.buf with ⟨hc, hd, heq⟩ | ⟨hc, hd, heq⟩ | ⟨hc, heq⟩
    · rw [heq] at h
      obtain ⟨cv, hcv, rfl⟩ := Option.map_eq_some_iff.mp h
      obtain rfl := signalIf_false hcv
      exact .popWait c w hm hp hc hd
    · rw [heq] at h
      obtain ⟨cv, hcv, rfl⟩ := Option.map_eq_some_iff.mp h
      obtain rfl := signalIf_false hcv
      simpa using Step.popDrained c w hm hp hc hd
    · rw [heq] at h
      obtain ⟨cv, hcv, rfl⟩ := Option.map_eq_some_iff.mp h
      obtain ⟨hw, rfl⟩ := signalIf_true hcv
      exact .popTaken c w hm hp hc hw
  · exact absurd h (by simp)

theorem step_cases {e : LogEvent P C M} (h : step s e = some s') : Step s e s' := by
  cases e with
  | pushEnter p w => exact step_pushEnter h
  | popEnter c w => exact step_popEnter h
  | pushCall p entry =>
    simp only [step] at h
    split at h
    · rename_i hpc
      cases h
      exact .pushCall p entry hpc
    · cases h
  | pushReturn p =>
    simp only [step] at h
    split at h
    · rename_i ret hpc
      cases h
      exact .pushReturn p ret hpc
    · cases h
  | popCall c =>
    simp only [step] at h
    split at h
    · rename_i hpc
      cases h
      exact .popCall c hpc
    · cases h
  | popReturn c =>
    simp only [step] at h
    split at h
    · rename_i ret hpc
      cases h
      exact .popReturn c ret hpc
    · cases h
  | closeCall m =>
    simp only [step] at h
    split at h
    · rename_i hpc
      cases h
      exact .closeCall m hpc
    · cases h
  | closeEnter m =>
    simp only [step] at h
    split at h
    · rename_i hm hpc
      cases h
      exact .closeEnter m hm hpc
    · cases h
  | closeReturn m =>
    simp only [step] at h
    split at h
    · rename_i hpc
      cases h
      exact .closeReturn m hpc
    · cases h
  | wakeProducer p =>
    simp only [step] at h
    split_ifs at h with hp
    cases h
    exact .wakeProducer p hp
  | wakeConsumer c =>
    simp only [step] at h
    split_ifs at h with hc
    cases h
    exact .wakeConsumer c hc

/-- A step leaves the buffer and the wait sets alone or has one of the effects. -/
theorem step_effect {e : LogEvent P C M} (h : step s e = some s') :
    s'.toLogState = s.toLogState ∨ Effect s.toLogState s'.toLogState := by
  cases step_cases h with
  | pushWait p w entry _ _ hc hd => exact Or.inr (.pushWait p hc hd)
  | pushRefused p w entry _ _ hd => exact Or.inr (.pushRefused p hd)
  | pushStored p w entry _ _ hc hd hw => exact Or.inr (.pushStored p entry w hc hd hw)
  | popWait c w _ _ hc hd => exact Or.inr (.popWait c hc hd)
  | popDrained c w _ _ hc hd => exact Or.inr (.popDrained c hc hd)
  | popTaken c w _ _ hc hw => exact Or.inr (.popTaken c w hc hw)
  | closeEnter m => exact Or.inr .close
  | wakeProducer p => exact Or.inr (.wakeProducer p)
  | wakeConsumer c => exact Or.inr (.wakeConsumer c)
  | pushCall | pushReturn | popCall | popReturn | closeCall | closeReturn => exact Or.inl rfl

/-- What every effect keeps holds in every reachable state. -/
theorem Reachable.of_effect {I : LogState P C → Prop} (hs : Reachable s)
    (h0 : I (init : LogSystem P C M).toLogState)
    (hstep : ∀ t u : LogState P C, I t → Effect t u → I u) : I s.toLogState := by
  refine Transition.Run.invariant (I := fun t => I t.toLogState) hs h0 ?_
  intro t e u ht _ htu
  rcases step_effect htu with heq | heff
  · exact heq ▸ ht
  · exact hstep _ _ ht heff

end LogSystem

end Jackfruit
