import Jackfruit.EngineInv
import Mathlib.Data.Fintype.Card

/-!
# The life cycle of a slot

The status of a slot is its state while it is used. `StatusMove` lists the moves between
statuses, and `SlotStep.statusMove` proves that no step makes another one. The ids of the used
slots are distinct, because a start looks for its id under the same lock under which it takes
its slot; this needs the id of the request to fit the field.

The handlers whose start returned `0` own their slots for ever, each its own, so there are at
most `MAX_CONTAINERS` of them.
-/

set_option linter.unusedSectionVars false

namespace Jackfruit

namespace Engine

variable {s s' : Engine} {e : Event} {i j : Slot} {g h : ℕ}

/-- The text fields of every request that arrives are terminated inside their fields. -/
def RequestTerminated (_ : Engine) : Event → Prop
  | .recv _ req => req.Terminated
  | _ => True

instance (s : Engine) (e : Event) : Decidable (RequestTerminated s e) := by
  unfold RequestTerminated
  split <;> infer_instance

/-- The state of a used slot. -/
def status (c : Container) : Option ContainerState :=
  if c.used then some c.state else none

/-- The moves between statuses; `none` is a free slot. -/
inductive StatusMove : Option ContainerState → Option ContainerState → Prop
  | stay (x : Option ContainerState) : StatusMove x x
  | reserve : StatusMove none (some .starting)
  | rollback : StatusMove (some .starting) none
  | publish : StatusMove (some .starting) (some .running)
  | finish {x : ContainerState} : x.Final → StatusMove (some .running) (some x)
  | again {x y : ContainerState} : x.Final → y.Final → StatusMove (some x) (some y)

/-- The reaper writes only to settled slots. -/
theorem Wf.settled_of_find {pid : ℤ} {c : Child} (w : Wf s) (hc : s.child g = some c)
    (hp : c.pid = pid) (hfind : findContainerByPid s.table pid = some i) :
    ∃ h, s.Settled i h := by
  obtain ⟨hu, hpid⟩ := findContainerByPid_spec hfind
  obtain ⟨h, ho⟩ := (w.used_iff i).mp hu
  exact ⟨h, ho, w.state_ne_starting hu (by rw [hpid, ← hp]; exact w.child_pos g c hc)⟩

theorem SlotStep.statusMove {c : Container} (w : Wf s) (hs : SlotStep s e i c) :
    StatusMove (status (s.table i)) (status c) := by
  cases hs with
  | same | waiters | stop => exact .stay _
  | reserve h now he hpc hck =>
    have hfree := (startContainerCheck_ok hck).1
    have hold : status (s.table i) = none := by simp [status, hfree]
    rw [hold]
    exact .reserve
  | release h text he hpc =>
    obtain ⟨ho, hst, -⟩ := w.reserved h i (by rw [hpc]; rfl)
    have hold : status (s.table i) = some .starting := by
      simp [status, (w.used_iff i).mpr ⟨h, ho⟩, hst]
    rw [hold]
    exact .rollback
  | publish h pid he hpc =>
    obtain ⟨ho, hst, -⟩ := w.reserved h i (by rw [hpc]; rfl)
    have hused := (w.used_iff i).mpr ⟨h, ho⟩
    have hold : status (s.table i) = some .starting := by simp [status, hused, hst]
    have hnew : status ((s.table i).publish pid h) = some .running := by
      simp [status, Container.publish, hused]
    rw [hold, hnew]
    exact .publish
  | reap h pid st he hr hc hfind =>
    obtain ⟨g, hi⟩ := w.settled_of_find hc rfl hfind
    have hused := w.used_of_settled hi
    have hfin := reapState_final (s.table i).stopRequested st
    have hnew : status ((s.table i).reap st) = some (reapState (s.table i).stopRequested st) := by
      simp [status, Container.reap, hused]
    have hold : status (s.table i) = some (s.table i).state := by simp [status, hused]
    rw [hold, hnew]
    rcases (w.of_settled hi).1 with hst | hst
    · rw [hst]
      exact .finish hfin
    · exact .again hst hfin

/-- A slot is given back by the start that reserved it, and before that start published it. -/
theorem SlotStep.rollback {c : Container} (w : Wf s) (hs : SlotStep s e i c)
    (hu : (s.table i).used = true) (hu' : c.used = false) :
    ∃ h, e = .rollback h ∧ s.owner i = some h ∧ (s.table i).state = .starting := by
  cases hs with
  | release h text he hpc =>
    obtain ⟨ho, hst, -⟩ := w.reserved h i (by rw [hpc]; rfl)
    exact ⟨h, he, ho, hst⟩
  | reserve => simp [Container.reserve] at hu'
  | same | waiters | stop | publish | reap => exact absurd (hu.symm.trans hu') (by simp)

/-- A start that gets past its checks takes its slot. -/
theorem step_reserve {now : ℤ} (hs : step s (.reserve h now) = some s')
    (hck : startContainerCheck s.table (s.req h) = .ok i) : s' = s.reserved h i now := by
  replace hs := (step_next hs).2
  simp only [next, startStep, hck] at hs
  split at hs
  · rename_i heq
    cases heq
  · rename_i heq
    cases heq
    exact (Option.some.inj hs).symm
  · cases hs

/-! ## Distinct ids -/

/-- The requests of the handlers fit their fields, and the used slots have distinct ids. -/
structure Named (s : Engine) : Prop where
  terminated : ∀ h, (s.req h).Terminated
  distinct : ∀ i j, (s.table i).used = true → (s.table j).used = true →
    (s.table i).id = (s.table j).id → i = j

theorem safeStrcpy_eq {src : CStr} {size : ℕ} (h : src.length < size) :
    safeStrcpy src size = src :=
  List.take_of_length_le (by omega)

/-- A used slot is new, with its request's id, or had its id before. -/
theorem SlotStep.id_cases {c : Container} (hs : SlotStep s e i c) (hu : c.used = true) :
    (∃ h now, e = .reserve h now ∧ (s.handler h).pc = .reserve ∧
        startContainerCheck s.table (s.req h) = .ok i ∧
        c.id = safeStrcpy (s.req h).id MAX_ID_LEN) ∨
      (s.table i).used = true ∧ c.id = (s.table i).id := by
  cases hs with
  | reserve h now he hpc hck => exact Or.inl ⟨h, now, he, hpc, hck, rfl⟩
  | release => simp [Container.release] at hu
  | same | waiters | stop | publish | reap => exact Or.inr ⟨hu, rfl⟩

theorem Named.terminated_step (n : Named s) (hs : Effect s e s') (he : RequestTerminated s e)
    (h : ℕ) : (s'.req h).Terminated := by
  have hstep := step_handler hs h
  change (s'.handler h).req.Terminated
  generalize s'.handler h = hd at hstep
  cases hstep with
  | move hd hm => cases hm <;> exact n.terminated h
  | recv req resp heq =>
    subst heq
    exact he
  | _ => exact n.terminated h

/-- The used slots have distinct ids. -/
def IdsDistinct (s : Engine) : Prop :=
  ∀ i j, (s.table i).used = true → (s.table j).used = true →
    (s.table i).id = (s.table j).id → i = j

/-- The ids stay distinct if the id of a start that takes a slot fits the field. -/
theorem IdsDistinct.step (hd : IdsDistinct s) (hs : Effect s e s')
    (hlen : ∀ h now, e = .reserve h now → (s.handler h).pc = .reserve →
      (s.req h).id.length < MAX_ID_LEN) : IdsDistinct s' := by
  intro i j hi hj hid
  -- A slot that is not new had this id before, and the start that takes a new one looked for it.
  have hnew {i j : Slot} {h : ℕ} {now : ℤ} (he : e = .reserve h now)
      (hpc : (s.handler h).pc = .reserve)
      (hck : startContainerCheck s.table (s.req h) = .ok i) (hj : (s.table j).used = true)
      (hid : safeStrcpy (s.req h).id MAX_ID_LEN = (s.table j).id) : False := by
    rw [safeStrcpy_eq (hlen h now he hpc)] at hid
    exact (startContainerCheck_ok hck).2.1 j hj hid.symm
  rcases (step_slot hs i).id_cases hi with ⟨h, now, rfl, hpc, hck, hid₁⟩ | ⟨hu, hid₁⟩ <;>
    rcases (step_slot hs j).id_cases hj with ⟨h', now', he', hpc', hck', hid₂⟩ | ⟨hu', hid₂⟩
  · obtain ⟨rfl, -⟩ := Event.reserve.inj he'
    exact Except.ok.inj (hck.symm.trans hck')
  · exact (hnew rfl hpc hck hu' (by rw [← hid₁, hid, hid₂])).elim
  · exact (hnew he' hpc' hck' hu (by rw [← hid₂, ← hid, hid₁])).elim
  · exact hd i j hu hu' (by rw [← hid₁, hid, hid₂])

theorem Named.step (n : Named s) (hs : Effect s e s') (he : RequestTerminated s e) : Named s' :=
  ⟨n.terminated_step hs he, IdsDistinct.step n.distinct hs fun h _ _ _ => (n.terminated h).1⟩

theorem Named.of_run (hr : Transition.Run Engine.step RequestTerminated init s) : Named s := by
  refine hr.invariant ⟨fun h => ?_, fun i j hi => ?_⟩
    fun _ _ _ n he hs => n.step (step_effect hs) he
  · change Handler.init.req.Terminated
    decide
  · simp [init, initContainers, Container.init] at hi

/-! ## The whole life -/

/-- The handlers whose start returned `0` are at most as many as there are slots. -/
theorem Wf.card_started (w : Wf s) (H : Finset ℕ) (hH : ∀ h ∈ H, s.started h ≠ none) :
    H.card ≤ MAX_CONTAINERS := by
  have hslot (h : ℕ) (hh : h ∈ H) : ∃ i, s.owner i = some h := by
    obtain ⟨i, hi⟩ := Option.ne_none_iff_exists'.mp (hH h hh)
    exact ⟨i, (w.started h i hi).1⟩
  have hsub : H.image some ⊆ (Finset.univ : Finset Slot).image s.owner := by
    intro o ho
    obtain ⟨h, hh, rfl⟩ := Finset.mem_image.mp ho
    obtain ⟨i, hi⟩ := hslot h hh
    exact Finset.mem_image.mpr ⟨i, Finset.mem_univ i, hi⟩
  calc H.card = (H.image some).card :=
        (Finset.card_image_of_injective H (Option.some_injective ℕ)).symm
    _ ≤ ((Finset.univ : Finset Slot).image s.owner).card := Finset.card_le_card hsub
    _ ≤ (Finset.univ : Finset Slot).card := Finset.card_image_le
    _ = MAX_CONTAINERS := by simp

/-- In every reachable state the used slots have distinct ids; every step moves every slot along
its life cycle, and only the start that reserved a slot gives it back; from the return of a start
on, its slot stays used with the same owner and the same record, and so do the slots that run
handlers and producers refer to; and at most `MAX_CONTAINERS` starts ever succeed. -/
theorem slot_life_cycle (hr : Transition.Run step RequestTerminated init s) :
    (∀ i j, (s.table i).used = true → (s.table j).used = true →
        (s.table i).id = (s.table j).id → i = j) ∧
      (∀ e s', step s e = some s' → ∀ i,
        StatusMove (status (s.table i)) (status (s'.table i)) ∧
          ((s.table i).used = true → (s'.table i).used = false →
            ∃ h, e = .rollback h ∧ s.owner i = some h ∧ (s.table i).state = .starting)) ∧
      (∀ h i, s.started h = some i ∨ (s.handler h).pc.published = some i ∨
          s.producer h = some i →
        (s.table i).used = true ∧ s.owner i = some h ∧
          ∀ s', Transition.Run step RequestTerminated s s' →
            s'.owner i = some h ∧ Kept (s.table i) (s'.table i)) ∧
      ∀ H : Finset ℕ, (∀ h ∈ H, s.started h ≠ none) → H.card ≤ MAX_CONTAINERS := by
  have w := Wf.of_run hr
  refine ⟨(Named.of_run hr).distinct, fun e s' hs i => ?_, fun h i hi => ?_, w.card_started⟩
  · have hslot := step_slot (step_effect hs) i
    exact ⟨hslot.statusMove w, hslot.rollback w⟩
  · have hset : s.Settled i h := by
      rcases hi with hi | hi | hi
      · exact w.started h i hi
      · exact w.published h i hi
      · exact w.producer h i hi
    refine ⟨w.used_of_settled hset, hset.1, fun s' hr' => ?_⟩
    obtain ⟨hset', hkept⟩ := settled_run hr hr' hset
    exact ⟨hset'.1, hkept⟩

/-- A start of `id` by the handler `h` in which every system call succeeds, up to its `clone`. -/
def playClone (h : ℕ) (type : ℤ) (id : String) (pid : ℤ) : List Event :=
  [.loopTest, .accept h, .recv h ⟨type, cstr id, cstr id, cstr "true", 40, 64, 0⟩,
    .reserve h 0, .pipe h none, .mallocStack h true, .mallocChild h true, .clone h (.ok pid)]

/-- The rest of the start. -/
def playPublish (h : ℕ) : List Event :=
  [.mallocArg h true, .publish h, .createProducer h true, .register h]

/-- A start request that succeeds. -/
theorem slot_life_cycle_one : ∃ s : Engine, s.started 0 = some 0 ∧ (s.table 0).used = true ∧
    ∀ s', Transition.Run step RequestTerminated s s' →
      s'.owner 0 = some 0 ∧ Kept (s.table 0) (s'.table 0) := by
  obtain ⟨s, hr, hs⟩ := Transition.exists_run_of_exec step RequestTerminated init
    (playClone 0 REQ_START "a" 7 ++ playPublish 0) (fun s => s.started 0 = some 0)
    (by decide)
  obtain ⟨hu, -, hkept⟩ := (slot_life_cycle hr).2.2.1 0 0 (Or.inl hs)
  exact ⟨s, hs, hu, hkept⟩

end Engine

end Jackfruit
