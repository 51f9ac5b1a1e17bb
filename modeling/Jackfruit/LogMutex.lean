import Jackfruit.LogQueue

/-!
# Who holds the mutex of the log buffer

A thread holds the mutex exactly between its critical section and the return of its call
(`Reachable.held`), so whoever holds it can give it back by a step of its own. A pop that has been
called after the flag was set contends for the mutex (`Reachable.contends_of_shutdown`), and goes
through its section once nobody holds it (`popEnter_enabled`).
-/

set_option linter.unusedSectionVars false

namespace Jackfruit

/-- The threads `name t` hold the lock exactly when they are about to return. -/
def HoldsLock {T A R L : Type} (pc : T → CallPc A R) (lock : Option L) (name : T → L) : Prop :=
  ∀ t, (∃ ret, pc t = .unlock ret) ↔ lock = some (name t)

namespace HoldsLock

variable {T A R L : Type} [DecidableEq T] {pc : T → CallPc A R} {lock : Option L} {name : T → L}
  {t : T} {x : CallPc A R} {ret : R} {l : L}

/-- A thread moves outside its section. -/
theorem move (h : HoldsLock pc lock name) (ht : ∀ r, pc t ≠ .unlock r) (hx : ∀ r, x ≠ .unlock r) :
    HoldsLock (Function.update pc t x) lock name := by
  intro u
  rcases eq_or_ne u t with rfl | hne
  · rw [Function.update_self, ← h u]
    exact iff_of_false (fun ⟨r, hr⟩ => hx r hr) fun ⟨r, hr⟩ => ht r hr
  · rw [Function.update_of_ne hne]
    exact h u

/-- A thread gets the lock. -/
theorem enter (h : HoldsLock pc none name) (hname : Function.Injective name) :
    HoldsLock (Function.update pc t (.unlock ret)) (some (name t)) name := by
  intro u
  rcases eq_or_ne u t with rfl | hne
  · rw [Function.update_self]
    exact iff_of_true ⟨ret, rfl⟩ rfl
  · rw [Function.update_of_ne hne, h u]
    exact iff_of_false nofun fun heq => hne (hname (Option.some.inj heq)).symm

/-- A thread gives it back. -/
theorem leave (h : HoldsLock pc lock name) (hname : Function.Injective name)
    (ht : pc t = .unlock ret) : HoldsLock (Function.update pc t .idle) none name := by
  have hlock := (h t).mp ⟨ret, ht⟩
  intro u
  rcases eq_or_ne u t with rfl | hne
  · rw [Function.update_self]
    exact iff_of_false nofun nofun
  · rw [Function.update_of_ne hne, h u, hlock]
    exact iff_of_false (fun heq => hne (hname (Option.some.inj heq)).symm) nofun

/-- Another thread gets the lock or gives it back. -/
theorem other {lock' : Option L} (h : HoldsLock pc lock name)
    (hold : ∀ t, lock ≠ some (name t)) (hnew : ∀ t, lock' ≠ some (name t)) :
    HoldsLock pc lock' name :=
  fun u => (h u).trans (iff_of_false (hold u) (hnew u))

end HoldsLock

namespace LogSystem

variable {P C M : Type} [DecidableEq P] [DecidableEq C] [DecidableEq M]
  {s s' : LogSystem P C M} {e : LogEvent P C M} {p : P} {c : C} {m : M}

/-- The mutex is held by the thread that is about to return, if there is one. -/
structure Held (s : LogSystem P C M) : Prop where
  producer : HoldsLock s.pushPc s.mutex .producer
  consumer : HoldsLock s.popPc s.mutex .consumer
  closer : HoldsLock s.closePc s.mutex .closer
  /-- `log_buffer_shutdown` does not wait. -/
  closing : ∀ m a, s.closePc m ≠ .wait a

theorem producer_injective : Function.Injective (LogThread.producer : P → LogThread P C M) :=
  fun _ _ h => LogThread.producer.inj h

theorem consumer_injective : Function.Injective (LogThread.consumer : C → LogThread P C M) :=
  fun _ _ h => LogThread.consumer.inj h

theorem closer_injective : Function.Injective (LogThread.closer : M → LogThread P C M) :=
  fun _ _ h => LogThread.closer.inj h

theorem contends_ne_unlock {T A R : Type} [DecidableEq T] {pc : T → CallPc A R} {cv : CondVar T}
    {t : T} {a : A} (h : contends pc cv t = some a) (r : R) : pc t ≠ .unlock r := by
  intro heq
  rw [contends, heq] at h
  cases h

theorem closing_update (h : ∀ m a, s.closePc m ≠ .wait a) {x : CallPc Unit Unit}
    (hx : ∀ a, x ≠ .wait a) (m' : M) (a : Unit) :
    Function.update s.closePc m x m' ≠ .wait a := by
  rcases eq_or_ne m' m with rfl | hne
  · rw [Function.update_self]
    exact hx a
  · rw [Function.update_of_ne hne]
    exact h m' a

theorem Held.step (hd : Held s) (hs : step s e = some s') : Held s' := by
  obtain ⟨hp, hc, hm, hw⟩ := hd
  cases step_cases hs with
  | pushCall p entry hpc => exact ⟨hp.move (by simp [hpc]) nofun, hc, hm, hw⟩
  | pushWait p w entry hnone hready =>
    exact ⟨hp.move (contends_ne_unlock hready) nofun, hc, hm, hw⟩
  | pushRefused p w entry hnone hready | pushStored p w entry hnone hready =>
    rw [hnone] at hp hc hm
    exact ⟨hp.enter producer_injective, hc.other nofun nofun, hm.other nofun nofun, hw⟩
  | pushReturn p ret hpc =>
    have hlock := (hp p).mp ⟨ret, hpc⟩
    exact ⟨hp.leave producer_injective hpc, hc.other (by simp [hlock]) nofun,
      hm.other (by simp [hlock]) nofun, hw⟩
  | popCall c hpc => exact ⟨hp, hc.move (by simp [hpc]) nofun, hm, hw⟩
  | popWait c w hnone hready =>
    exact ⟨hp, hc.move (contends_ne_unlock hready) nofun, hm, hw⟩
  | popDrained c w hnone hready | popTaken c w hnone hready =>
    rw [hnone] at hp hc hm
    exact ⟨hp.other nofun nofun, hc.enter consumer_injective, hm.other nofun nofun, hw⟩
  | popReturn c ret hpc =>
    have hlock := (hc c).mp ⟨ret, hpc⟩
    exact ⟨hp.other (by simp [hlock]) nofun, hc.leave consumer_injective hpc,
      hm.other (by simp [hlock]) nofun, hw⟩
  | closeCall m hpc =>
    exact ⟨hp, hc, hm.move (by simp [hpc]) nofun, closing_update hw nofun⟩
  | closeEnter m hnone hpc =>
    rw [hnone] at hp hc hm
    exact ⟨hp.other nofun nofun, hc.other nofun nofun, hm.enter closer_injective,
      closing_update hw nofun⟩
  | closeReturn m hpc =>
    have hlock := (hm m).mp ⟨(), hpc⟩
    exact ⟨hp.other (by simp [hlock]) nofun, hc.other (by simp [hlock]) nofun,
      hm.leave closer_injective hpc, closing_update hw nofun⟩
  | wakeProducer | wakeConsumer => exact ⟨hp, hc, hm, hw⟩

theorem Reachable.held (hs : Reachable s) : Held s := by
  refine Transition.Run.invariant hs ⟨?_, ?_, ?_, fun _ _ => nofun⟩ fun _ _ _ hd _ h => hd.step h
  all_goals exact fun _ => iff_of_false nofun nofun

end LogSystem

/-- A thread in `pthread_cond_wait` is at the condition variable. -/
def Parked {T A R : Type} (cv : CondVar T) (pc : T → CallPc A R) : Prop :=
  ∀ t a, pc t = .wait a → t ∈ cv.asleep ∨ t ∈ cv.woken

namespace Parked

variable {T A R : Type} [DecidableEq T] {cv : CondVar T} {pc : T → CallPc A R} {t : T}
  {x : CallPc A R}

/-- A thread goes to where it does not wait. -/
theorem update (h : Parked cv pc) (hx : ∀ a, x ≠ .wait a) : Parked cv (Function.update pc t x) := by
  intro u a hu
  rcases eq_or_ne u t with rfl | hne
  · exact absurd (by simpa using hu) (hx a)
  · exact h u a (by simpa [hne] using hu)

theorem resume (h : Parked cv pc) (hx : ∀ a, x ≠ .wait a) :
    Parked (cv.resume t) (Function.update pc t x) := by
  intro u a hu
  rcases eq_or_ne u t with rfl | hne
  · exact absurd (by simpa using hu) (hx a)
  · simpa [hne] using h u a (by simpa [hne] using hu)

theorem wait (h : Parked cv pc) (a : A) :
    Parked ((cv.resume t).wait t) (Function.update pc t (.wait a)) := by
  intro u a' hu
  rcases eq_or_ne u t with rfl | hne
  · simp
  · simpa [hne] using h u a' (by simpa [hne] using hu)

theorem signal (h : Parked cv pc) (w : Option T) : Parked (cv.signal w) pc :=
  fun t a hp => (CondVar.mem_signal w).mpr (h t a hp)

theorem wake (h : Parked cv pc) : Parked (cv.wake t) pc :=
  fun u a hp => CondVar.mem_wake.mpr (h u a hp)

theorem broadcast (h : Parked cv pc) : Parked cv.broadcast pc :=
  fun t a hp => by simpa using h t a hp

end Parked

namespace LogSystem

variable {P C M : Type} [DecidableEq P] [DecidableEq C] [DecidableEq M]
  {s s' : LogSystem P C M} {e : LogEvent P C M} {p : P} {c : C}

theorem parked_step (hs : step s e = some s') (hp : Parked s.notFull s.pushPc)
    (hc : Parked s.notEmpty s.popPc) :
    Parked s'.notFull s'.pushPc ∧ Parked s'.notEmpty s'.popPc := by
  cases step_cases hs with
  | pushCall p entry hpc => exact ⟨hp.update (by simp), hc⟩
  | pushWait p w entry => exact ⟨hp.wait entry, hc⟩
  | pushRefused p w entry => exact ⟨hp.resume (by simp), hc⟩
  | pushStored p w entry => exact ⟨hp.resume (by simp), hc.signal w⟩
  | pushReturn p ret hpc => exact ⟨hp.update (by simp), hc⟩
  | popCall c hpc => exact ⟨hp, hc.update (by simp)⟩
  | popWait c w => exact ⟨hp, hc.wait ()⟩
  | popDrained c w => exact ⟨hp, hc.resume (by simp)⟩
  | popTaken c w => exact ⟨hp.signal w, hc.resume (by simp)⟩
  | popReturn c ret hpc => exact ⟨hp, hc.update (by simp)⟩
  | closeEnter => exact ⟨hp.broadcast, hc.broadcast⟩
  | wakeProducer => exact ⟨hp.wake, hc⟩
  | wakeConsumer => exact ⟨hp, hc.wake⟩
  | closeCall | closeReturn => exact ⟨hp, hc⟩

theorem Reachable.parked (hs : Reachable s) :
    Parked s.notFull s.pushPc ∧ Parked s.notEmpty s.popPc :=
  Transition.Run.invariant hs (I := fun t => Parked t.notFull t.pushPc ∧ Parked t.notEmpty t.popPc)
    ⟨fun _ _ h => (by cases h), fun _ _ h => (by cases h)⟩
    fun _ _ _ h _ hs => parked_step hs h.1 h.2

/-- After `log_buffer_shutdown` a consumer in its pop contends for the mutex, or holds it. -/
theorem Reachable.contends_of_shutdown (hs : Reachable s) (hshut : s.buf.shutdown = true)
    (hidle : s.popPc c ≠ .idle) (hunlock : ∀ ret, s.popPc c ≠ .unlock ret) :
    contends s.popPc s.notEmpty c = some () := by
  have hasleep := (hs.awake.shut hshut).2
  unfold contends
  split
  · rfl
  · rename_i a hpc
    rw [if_pos]
    simpa [hasleep] using hs.parked.2 c a hpc
  · rename_i hlock hwait
    cases hpc : s.popPc c with
    | idle => exact absurd hpc hidle
    | lock a => exact absurd hpc (hlock a)
    | wait a => exact absurd hpc (hwait a)
    | unlock ret => exact absurd hpc (hunlock ret)

/-! ## Steps that can be taken -/

/-- Whom a signal may wake is never left open. -/
theorem exists_admits {T : Type} [DecidableEq T] (cv : CondVar T) : ∃ w, cv.Admits w := by
  rcases cv.asleep.eq_empty_or_nonempty with hempty | ⟨t, ht⟩
  · exact ⟨none, hempty⟩
  · exact ⟨some t, ht⟩

/-- A pop that contends goes through its section once nobody holds the mutex. -/
theorem popEnter_enabled (hnone : s.mutex = none)
    (hready : contends s.popPc s.notEmpty c = some ()) :
    ∃ w, (s.step (.popEnter c w)).isSome = true := by
  obtain ⟨w, hw⟩ := exists_admits s.notFull
  rcases logBufferPop_cases s.buf with ⟨-, -, heq⟩ | ⟨-, -, heq⟩ | ⟨-, heq⟩
  · exact ⟨none, by simp [step, hnone, hready, heq, signalIf]⟩
  · exact ⟨none, by simp [step, hnone, hready, heq, signalIf]⟩
  · exact ⟨w, by simp [step, hnone, hready, heq, signalIf, hw]⟩

/-- So does a push. -/
theorem pushEnter_enabled {entry : LogEntry} (hnone : s.mutex = none)
    (hready : contends s.pushPc s.notFull p = some entry) :
    ∃ w, (s.step (.pushEnter p w)).isSome = true := by
  obtain ⟨w, hw⟩ := exists_admits s.notEmpty
  rcases logBufferPush_cases s.buf entry with ⟨-, -, heq⟩ | ⟨-, heq⟩ | ⟨-, -, heq⟩
  · exact ⟨none, by simp [step, hnone, hready, heq, signalIf]⟩
  · exact ⟨none, by simp [step, hnone, hready, heq, signalIf]⟩
  · exact ⟨w, by simp [step, hnone, hready, heq, signalIf, hw]⟩

end LogSystem

end Jackfruit
