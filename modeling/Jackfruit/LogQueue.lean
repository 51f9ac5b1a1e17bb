import Jackfruit.LogBuffer

/-!
# The log buffer is a queue that wakes its sleepers

`LogState.Queue` : the ring holds, in order, what was pushed and not yet popped. It is kept
by every effect of a step, so the ring is a bounded FIFO for any number of producers and
consumers (`log_ring_fifo`).

`LogState.Awake` : while a producer sleeps, the free cells are on offer to woken producers,
and while a consumer sleeps, the entries are on offer to woken consumers. Push and pop signal
once for each cell they change, which is enough under barging and spurious wake-ups
(`log_ring_wakeups`).
-/

set_option linter.unusedSectionVars false

namespace Jackfruit

variable {P C M : Type} [DecidableEq P] [DecidableEq C] [DecidableEq M]

/-! ## The queue -/

/-- The ring holds what was pushed and not yet popped. -/
structure LogState.Queue (s : LogState P C) : Prop where
  wf : s.buf.Wf LOG_BUFFER_CAPACITY
  content : s.popped ++ s.buf.contents LOG_BUFFER_CAPACITY = s.pushed

namespace LogState.Queue

variable {s s' : LogState P C}

theorem count_lt (h : s.Queue) (hc : s.buf.count ≠ LOG_BUFFER_CAPACITY) :
    s.buf.count < LOG_BUFFER_CAPACITY :=
  lt_of_le_of_ne h.wf.count_le hc

theorem effect (h : s.Queue) (he : Effect s s') : s'.Queue := by
  cases he with
  | pushWait | pushRefused | popWait | popDrained | close | wakeProducer | wakeConsumer =>
    exact ⟨h.wf, h.content⟩
  | pushStored p entry w hc =>
    have hlt := h.count_lt hc
    refine ⟨h.wf.push hlt, ?_⟩
    show s.popped ++ (s.buf.push _ entry).contents _ = s.pushed ++ [entry]
    rw [RingBuffer.contents_push h.wf hlt, ← List.append_assoc, h.content]
  | popTaken c w hc =>
    have hpos := Nat.pos_of_ne_zero hc
    refine ⟨h.wf.pop hpos, ?_⟩
    show s.popped ++ [s.buf.front] ++ (s.buf.pop _).contents _ = s.pushed
    rw [← h.content, RingBuffer.contents_pop h.wf hpos, List.append_assoc, List.singleton_append]

end LogState.Queue

namespace LogSystem

variable {s s' : LogSystem P C M}

theorem queue_init : (init : LogSystem P C M).Queue where
  wf := RingBuffer.wf_empty (by decide)
  content := rfl

theorem Reachable.queue (hs : Reachable s) : s.Queue :=
  hs.of_effect queue_init fun _ _ h he => h.effect he

/-- The entry of a push joins the queue if the push returns `0`. A push that returns `-1` has found
the flag set, and changes nothing. -/
theorem pushEnter_return {p : P} {w : Option C} (h : step s (.pushEnter p w) = some s') {r : ℤ}
    (hr : s'.pushPc p = .unlock r) :
    (r = -1 ∧ s.buf.shutdown = true ∧ s'.buf = s.buf ∧ s'.pushed = s.pushed ∧
        s'.popped = s.popped) ∨
      (r = 0 ∧ ∃ entry, contends s.pushPc s.notFull p = some entry ∧
        s'.pushed = s.pushed ++ [entry] ∧ s'.popped = s.popped) := by
  cases step_pushEnter h with
  | pushWait => simp at hr
  | pushRefused p w entry _ _ hshut => exact Or.inl ⟨by simpa using hr.symm, hshut, rfl, rfl, rfl⟩
  | pushStored p w entry _ hentry =>
    exact Or.inr ⟨by simpa using hr.symm, entry, hentry, rfl, rfl⟩

/-- A pop that returns an entry returns the oldest one, and one that returns nothing has found the
ring empty and the flag set. -/
theorem popEnter_return {c : C} {w : Option P} (h : step s (.popEnter c w) = some s')
    {r : Option LogEntry} (hr : s'.popPc c = .unlock r) :
    s'.popped = s.popped ++ r.toList ∧ s'.pushed = s.pushed ∧
      (r = none → s.buf.count = 0 ∧ s.buf.shutdown = true) := by
  cases step_popEnter h with
  | popWait => simp at hr
  | popDrained c w _ _ hempty hshut =>
    obtain rfl : none = r := by simpa using hr
    exact ⟨by simp, rfl, fun _ => ⟨hempty, hshut⟩⟩
  | popTaken =>
    obtain rfl : some s.buf.front = r := by simpa using hr
    simp

/-- In every reachable state the indices fit together, the entries popped so far followed by
those stored from `head` onwards are the entries pushed so far, a push returns `-1` only after the
shutdown and leaves no trace then, and a pop returns nothing only from an empty ring after the
shutdown. -/
theorem log_ring_fifo (hs : Reachable s) :
    (0 ≤ s.buf.count ∧ s.buf.count ≤ LOG_BUFFER_CAPACITY ∧ s.buf.head < LOG_BUFFER_CAPACITY ∧
        s.buf.tail < LOG_BUFFER_CAPACITY ∧
        s.buf.tail = (s.buf.head + s.buf.count) % LOG_BUFFER_CAPACITY) ∧
      s.popped ++ (List.range s.buf.count).map
          (fun k => s.buf.entries ((s.buf.head + k) % LOG_BUFFER_CAPACITY)) = s.pushed ∧
      (∀ p w s', step s (.pushEnter p w) = some s' → ∀ r, s'.pushPc p = .unlock r →
        (r = -1 ∧ s.buf.shutdown = true ∧ s'.buf = s.buf ∧ s'.pushed = s.pushed ∧
            s'.popped = s.popped) ∨
          (r = 0 ∧ ∃ entry, contends s.pushPc s.notFull p = some entry ∧
            s'.pushed = s.pushed ++ [entry] ∧ s'.popped = s.popped)) ∧
      ∀ c w s', step s (.popEnter c w) = some s' → ∀ r, s'.popPc c = .unlock r →
        s'.popped = s.popped ++ r.toList ∧ s'.pushed = s.pushed ∧
          (r = none → s.buf.count = 0 ∧ s.buf.shutdown = true) := by
  have hq := hs.queue
  refine ⟨⟨Nat.zero_le _, hq.wf.count_le, hq.wf.head_lt, hq.wf.tail_lt, hq.wf.tail_eq⟩,
    hq.content, ?_, ?_⟩
  · exact fun p w s' h r hr => pushEnter_return h hr
  · exact fun c w s' h r hr => popEnter_return h hr

/-- The play of two pushes and a pop that returns the first of the two entries. -/
theorem log_ring_fifo_one : ∃ s s' : LogSystem Unit Unit Unit, s.pushed.length = 2 ∧
    s.popped ++ (List.range s.buf.count).map
      (fun k => s.buf.entries ((s.buf.head + k) % LOG_BUFFER_CAPACITY)) = s.pushed ∧
    s'.popPc () = .unlock (some ⟨0, 0, []⟩) ∧ s'.popped = [⟨0, 0, []⟩] := by
  obtain ⟨s, hs, hpushed, hpopped, hnext⟩ := Transition.exists_run_of_exec step Transition.Always
    (init : LogSystem Unit Unit Unit)
    [.pushCall () ⟨0, 0, []⟩, .pushEnter () none, .pushReturn (), .pushCall () ⟨1, 0, []⟩,
      .pushEnter () none, .pushReturn (), .popCall ()]
    (fun s => s.pushed.length = 2 ∧ s.popped = [] ∧
      ((step s (.popEnter () none)).any fun s' =>
        s'.popPc () = .unlock (some ⟨0, 0, []⟩)) = true) (by decide)
  obtain ⟨s', hs', hpc⟩ := (Option.any_eq_true _ _).mp hnext
  obtain ⟨-, hcontent, -, hpop⟩ := log_ring_fifo hs
  have hreturned : s'.popPc () = .unlock (some ⟨0, 0, []⟩) := of_decide_eq_true hpc
  refine ⟨s, s', hpushed, hcontent, hreturned, ?_⟩
  rw [(hpop () none s' hs' _ hreturned).1, hpopped]
  rfl

end LogSystem

/-! ## The wake-ups -/

/-- Free cells are on offer to woken producers and entries to woken consumers while somebody
sleeps, and after the shutdown nobody does. -/
structure LogState.Awake (s : LogState P C) : Prop where
  space : s.notFull.Covered (LOG_BUFFER_CAPACITY - s.buf.count)
  entries : s.notEmpty.Covered s.buf.count
  shut : s.buf.shutdown = true → s.notFull.asleep = ∅ ∧ s.notEmpty.asleep = ∅

namespace LogState.Awake

variable {s s' : LogState P C}

theorem effect (hq : s.Queue) (h : s.Awake) (he : Effect s s') : s'.Awake := by
  have hle := hq.wf.count_le
  cases he with
  | pushWait p hc hd =>
    refine ⟨?_, h.entries, fun hd' => absurd (hd.symm.trans hd') Bool.false_ne_true⟩
    show CondVar.Covered _ (LOG_BUFFER_CAPACITY - s.buf.count)
    rw [hc, Nat.sub_self]
    exact .zero
  | pushRefused p hd =>
    exact ⟨.of_asleep_eq_empty (h.shut hd).1, h.entries, h.shut⟩
  | pushStored p entry w hc hd hw =>
    refine ⟨?_, h.entries.signal hw, fun hd' => absurd (hd.symm.trans hd') Bool.false_ne_true⟩
    -- A woken producer takes the cell it was woken for, any other one takes it from them.
    have hsplit : LOG_BUFFER_CAPACITY - s.buf.count =
        LOG_BUFFER_CAPACITY - (s.buf.count + 1) + 1 := by
      have := hq.count_lt hc
      omega
    exact CondVar.Covered.resume (hsplit ▸ h.space)
  | popWait c hc hd =>
    refine ⟨h.space, ?_, fun hd' => absurd (hd.symm.trans hd') Bool.false_ne_true⟩
    show CondVar.Covered _ s.buf.count
    rw [hc]
    exact .zero
  | popDrained c hc hd =>
    exact ⟨h.space, .of_asleep_eq_empty (h.shut hd).2, h.shut⟩
  | popTaken c w hc hw =>
    have hsplit : s.buf.count = s.buf.count - 1 + 1 := by omega
    refine ⟨?_, CondVar.Covered.resume (hsplit ▸ h.entries), fun hd => ?_⟩
    · have hfree : LOG_BUFFER_CAPACITY - (s.buf.count - 1) =
          LOG_BUFFER_CAPACITY - s.buf.count + 1 := by omega
      show CondVar.Covered _ (LOG_BUFFER_CAPACITY - (s.buf.count - 1))
      rw [hfree]
      exact h.space.signal hw
    · have hnone := h.shut hd
      refine ⟨Finset.subset_empty.mp ?_, hnone.2⟩
      exact hnone.1 ▸ CondVar.asleep_signal_subset w
  | close =>
    exact ⟨.of_asleep_eq_empty rfl, .of_asleep_eq_empty rfl, fun _ => ⟨rfl, rfl⟩⟩
  | wakeProducer p =>
    refine ⟨h.space.wake, h.entries, fun hd => ⟨Finset.subset_empty.mp ?_, (h.shut hd).2⟩⟩
    exact (h.shut hd).1 ▸ CondVar.asleep_wake_subset
  | wakeConsumer c =>
    refine ⟨h.space, h.entries.wake, fun hd => ⟨(h.shut hd).1, Finset.subset_empty.mp ?_⟩⟩
    exact (h.shut hd).2 ▸ CondVar.asleep_wake_subset

end LogState.Awake

/-- A thread at the condition variable is in `pthread_cond_wait`. -/
def InWait {T A R : Type} (cv : CondVar T) (pc : T → CallPc A R) : Prop :=
  ∀ t, t ∈ cv.asleep ∨ t ∈ cv.woken → ∃ a, pc t = .wait a

namespace InWait

variable {T A R : Type} [DecidableEq T] {cv : CondVar T} {pc : T → CallPc A R} {t : T}

/-- A thread that is not waiting moves. -/
theorem update (h : InWait cv pc) (ht : ∀ a, pc t ≠ .wait a) (x : CallPc A R) :
    InWait cv (Function.update pc t x) := by
  intro u hu
  obtain ⟨a, ha⟩ := h u hu
  have hne : u ≠ t := fun heq => ht a (heq ▸ ha)
  exact ⟨a, by rw [Function.update_of_ne hne, ha]⟩

/-- A thread that gets the mutex leaves the condition variable. -/
theorem resume (h : InWait cv pc) {a : A} (ht : LogSystem.contends pc cv t = some a)
    (x : CallPc A R) : InWait (cv.resume t) (Function.update pc t x) := by
  intro u hu
  have hne : u ≠ t := by
    rintro rfl
    have hasleep : u ∈ cv.asleep := by simpa using hu
    obtain ⟨a', ha'⟩ := h u (Or.inl hasleep)
    have hnot : u ∉ cv.woken := Finset.disjoint_left.mp cv.disjoint hasleep
    simp [LogSystem.contends, ha', hnot] at ht
  rw [Function.update_of_ne hne]
  exact h u (by simpa [hne] using hu)

theorem wait (h : InWait cv pc) {a : A} (ht : LogSystem.contends pc cv t = some a) :
    InWait ((cv.resume t).wait t) (Function.update pc t (.wait a)) := by
  intro u hu
  by_cases hut : u = t
  · exact ⟨a, by rw [hut, Function.update_self]⟩
  · exact h.resume ht _ u (by simpa [hut] using hu)

theorem wake (h : InWait cv pc) : InWait (cv.wake t) pc :=
  fun u hu => h u (CondVar.mem_wake.mp hu)

theorem signal (h : InWait cv pc) (w : Option T) : InWait (cv.signal w) pc :=
  fun u hu => h u ((CondVar.mem_signal w).mp hu)

theorem broadcast (h : InWait cv pc) : InWait cv.broadcast pc :=
  fun u hu => h u (by simpa using hu)

end InWait

namespace LogSystem

variable {s s' : LogSystem P C M}

theorem Reachable.awake (hs : Reachable s) : s.Awake := by
  have h : s.Queue ∧ s.Awake := by
    refine hs.of_effect (I := fun t => t.Queue ∧ t.Awake) ⟨queue_init, ?_⟩ ?_
    · exact ⟨.of_asleep_eq_empty rfl, .of_asleep_eq_empty rfl, fun _ => ⟨rfl, rfl⟩⟩
    · exact fun t u ht he => ⟨ht.1.effect he, ht.2.effect ht.1 he⟩
  exact h.2

theorem inWait_step {e : LogEvent P C M} (h : step s e = some s')
    (hp : InWait s.notFull s.pushPc) (hc : InWait s.notEmpty s.popPc) :
    InWait s'.notFull s'.pushPc ∧ InWait s'.notEmpty s'.popPc := by
  cases step_cases h with
  | pushCall p entry hpc => exact ⟨hp.update (by simp [hpc]) _, hc⟩
  | pushWait p w entry _ hentry => exact ⟨hp.wait hentry, hc⟩
  | pushRefused p w entry _ hentry => exact ⟨hp.resume hentry _, hc⟩
  | pushStored p w entry _ hentry => exact ⟨hp.resume hentry _, hc.signal w⟩
  | pushReturn p ret hpc => exact ⟨hp.update (by simp [hpc]) _, hc⟩
  | popCall c hpc => exact ⟨hp, hc.update (by simp [hpc]) _⟩
  | popWait c w _ hready => exact ⟨hp, hc.wait hready⟩
  | popDrained c w _ hready => exact ⟨hp, hc.resume hready _⟩
  | popTaken c w _ hready => exact ⟨hp.signal w, hc.resume hready _⟩
  | popReturn c ret hpc => exact ⟨hp, hc.update (by simp [hpc]) _⟩
  | closeEnter => exact ⟨hp.broadcast, hc.broadcast⟩
  | wakeProducer => exact ⟨hp.wake, hc⟩
  | wakeConsumer => exact ⟨hp, hc.wake⟩
  | closeCall | closeReturn => exact ⟨hp, hc⟩

theorem Reachable.inWait (hs : Reachable s) :
    InWait s.notFull s.pushPc ∧ InWait s.notEmpty s.popPc := by
  refine Transition.Run.invariant
    (I := fun t => InWait t.notFull t.pushPc ∧ InWait t.notEmpty t.popPc) hs ?_ ?_
  · constructor <;> intro t ht <;> simp [init] at ht
  · exact fun t e u ht _ h => inWait_step h ht.1 ht.2

/-- If all threads that exist sleep, nobody is woken. -/
theorem woken_eq_empty {T A R : Type} {cv : CondVar T} {pc : T → CallPc A R}
    (hw : InWait cv pc) {X : Set T} (hX : ∀ t ∉ X, pc t = .idle)
    (hall : ∀ t ∈ X, t ∈ cv.asleep) : cv.woken = ∅ := by
  refine Finset.eq_empty_of_forall_notMem fun t ht => ?_
  obtain ⟨a, ha⟩ := hw t (Or.inr ht)
  by_cases htX : t ∈ X
  · exact Finset.disjoint_left.mp cv.disjoint (hall t htX) ht
  · rw [hX t htX] at ha
    cases ha

/-- `log_buffer_shutdown` sets the flag. -/
theorem closeEnter_shutdown {m : M} (h : step s (.closeEnter m) = some s') :
    s'.buf.shutdown = true := by
  cases step_cases h
  rfl

/-- And nothing clears it. -/
theorem shutdown_step {e : LogEvent P C M} (h : step s e = some s')
    (hshut : s.buf.shutdown = true) : s'.buf.shutdown = true := by
  cases step_cases h with
  | closeEnter => rfl
  | _ => exact hshut

/-- While a producer sleeps, shutdown is not set and the free cells are at most as many as the
woken producers; the same for consumers and entries. So the producers `A` and the consumers
`B` that exist never all sleep. `log_buffer_shutdown` sets the flag, which stays set from then on,
and while it is set nobody sleeps. -/
theorem log_ring_wakeups (hs : Reachable s) :
    (s.notFull.asleep.Nonempty → s.buf.shutdown = false ∧
        LOG_BUFFER_CAPACITY - s.buf.count ≤ s.notFull.woken.card) ∧
      (s.notEmpty.asleep.Nonempty → s.buf.shutdown = false ∧
        s.buf.count ≤ s.notEmpty.woken.card) ∧
      (∀ (A : Set P) (B : Set C), (∀ p ∉ A, s.pushPc p = .idle) → (∀ c ∉ B, s.popPc c = .idle) →
        A.Nonempty → B.Nonempty →
        ¬((∀ p ∈ A, p ∈ s.notFull.asleep) ∧ ∀ c ∈ B, c ∈ s.notEmpty.asleep)) ∧
      (s.buf.shutdown = true → s.notFull.asleep = ∅ ∧ s.notEmpty.asleep = ∅) ∧
      ∀ m s', step s (.closeEnter m) = some s' →
        ∀ s'', Transition.Run step Transition.Always s' s'' →
          s''.buf.shutdown = true ∧ s''.notFull.asleep = ∅ ∧ s''.notEmpty.asleep = ∅ := by
  have ha := hs.awake
  have hshut : s.notFull.asleep.Nonempty ∨ s.notEmpty.asleep.Nonempty →
      s.buf.shutdown = false := by
    intro hne
    rw [Bool.eq_false_iff]
    intro hd
    rcases hne with hne | hne
    · exact hne.ne_empty (ha.shut hd).1
    · exact hne.ne_empty (ha.shut hd).2
  refine ⟨fun hne => ⟨hshut (Or.inl hne), ha.space hne⟩,
    fun hne => ⟨hshut (Or.inr hne), ha.entries hne⟩, ?_, ha.shut, fun m s' hclose s'' hr => ?_⟩
  · rintro A B hA hB ⟨p, hp⟩ ⟨c, hc⟩ ⟨hallA, hallB⟩
    have hspace := ha.space ⟨p, hallA p hp⟩
    have hentries := ha.entries ⟨c, hallB c hc⟩
    rw [woken_eq_empty hs.inWait.1 hA hallA, Finset.card_empty] at hspace
    rw [woken_eq_empty hs.inWait.2 hB hallB, Finset.card_empty] at hentries
    have hcap : LOG_BUFFER_CAPACITY = 128 := rfl
    omega
  · have hkept : s''.buf.shutdown = true := hr.invariant (I := fun t => t.buf.shutdown = true)
      (closeEnter_shutdown hclose) fun t e u ht _ hstep => shutdown_step hstep ht
    have hs'' : Reachable s'' := Transition.Run.trans (.tail _ hs trivial hclose) hr
    exact ⟨hkept, hs''.awake.shut hkept⟩

/-- The play in which a consumer goes to sleep on an empty ring and a push wakes it. -/
theorem log_ring_wakeups_one : ∃ s : LogSystem Unit Unit Unit, () ∈ s.notEmpty.woken ∧
    (s.notEmpty.asleep.Nonempty → s.buf.shutdown = false ∧
      s.buf.count ≤ s.notEmpty.woken.card) := by
  obtain ⟨s, hs, hp⟩ := Transition.exists_run_of_exec step Transition.Always
    (init : LogSystem Unit Unit Unit)
    [.popCall (), .popEnter () none, .pushCall () LogEntry.zero, .pushEnter () (some ())]
    (fun s => () ∈ s.notEmpty.woken) (by decide)
  exact ⟨s, hp, (log_ring_wakeups hs).2.1⟩

end LogSystem

end Jackfruit
