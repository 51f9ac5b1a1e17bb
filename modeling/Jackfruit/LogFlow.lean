import Jackfruit.Pipeline
import Mathlib.Data.List.Flatten

/-!
# What the log files hold

`Flow` follows the chunks of every producer : those in the ring or past it are what the producer
has read, but for the chunk it has not pushed yet; those past the ring are the entries written
and the one in the consumer's hands; and a file is its old content followed by the entries whose
slot's log file it is. So when the consumer has been joined, a log file holds everything that was
read before the shutdown, if no producer was holding a chunk at that moment.

If one was, its push is refused and the chunk is gone (`shutdown_drops_chunk`).
-/

set_option linter.unusedSectionVars false

namespace Jackfruit

namespace Engine

variable {s s' : Engine} {e : Event} {i j : Slot} {g h : ℕ}

/-- What a step does to the producers. -/
theorem Wf.producer_step (w : Wf s) (hs : Effect s e s') (h : ℕ) :
    s'.producer h = s.producer h ∨
      s.producer h = none ∧ ∃ i, s'.producer h = some i ∧ s.Settled i h := by
  cases hs with
  | createProducer g ok idx pid hpc =>
    have hset : s.Settled idx g := w.published g idx (by rw [hpc]; rfl)
    dsimp only
    split_ifs
    · rcases eq_or_ne h g with rfl | hgh
      · rw [Function.update_self]
        cases hold : s.producer h with
        | none => exact Or.inr ⟨rfl, idx, rfl, hset⟩
        | some j =>
          rw [w.owner_inj j idx h (w.producer h j hold).1 hset.1]
          exact Or.inl rfl
      · exact Or.inl (Function.update_of_ne hgh _ _)
    · exact Or.inl rfl
  | _ => exact Or.inl rfl

theorem Wf.producer_kept (w : Wf s) (hs : Effect s e s') (hi : s.producer h = some i) :
    s'.producer h = some i := by
  rcases w.producer_step hs h with heq | ⟨hnone, -⟩
  · rw [heq, hi]
  · simp [hi] at hnone

/-- A slot has one producer. -/
theorem Wf.producer_inj (w : Wf s) (hg : s.producer g = some i) (hh : s.producer h = some i) :
    g = h :=
  Option.some.inj ((w.producer g i hg).1.symm.trans (w.producer h i hh).1)

/-- Every used slot has a log file, and its name fits the field. -/
def LogFiles (s : Engine) : Prop :=
  ∀ i, (s.table i).used = true →
    (s.table i).logFile ≠ [] ∧ (s.table i).logFile.length < MAX_PATH_LEN

theorem SlotStep.logFile {c : Container} (hs : SlotStep s e i c) (hu : c.used = true)
    (hl : (s.table i).used = true →
      (s.table i).logFile ≠ [] ∧ (s.table i).logFile.length < MAX_PATH_LEN) :
    c.logFile ≠ [] ∧ c.logFile.length < MAX_PATH_LEN := by
  cases hs with
  | reserve h now =>
    refine ⟨fun hnil => ?_, ?_⟩
    · simp [Container.reserve, snprintf, MAX_PATH_LEN, cstr] at hnil
    · simp only [Container.reserve, snprintf, List.length_take, MAX_PATH_LEN]
      omega
  | release => simp [Container.release] at hu
  | same | waiters | stop | publish | reap => exact hl hu

theorem LogFiles.of_run {C : Engine → Event → Prop} (hr : Transition.Run Engine.step C init s) :
    LogFiles s := by
  refine hr.invariant (fun i hi => by simp [init, initContainers, Container.init] at hi) ?_
  exact fun t e u hl _ hs i hu => (step_slot (step_effect hs) i).logFile hu (hl i)

/-- The consumer finds the log file of a used slot. -/
theorem LogFiles.logPath (hl : LogFiles s) (hu : (s.table i).used = true) :
    logPath s.table (i : ℕ) = (s.table i).logFile := by
  have hi : 0 ≤ ((i : ℕ) : ℤ) ∧ ((i : ℕ) : ℤ).toNat < MAX_CONTAINERS := ⟨by omega, by simp⟩
  rw [Jackfruit.logPath, dif_pos hi]
  simp only [Int.toNat_natCast, Fin.eta, hu, if_true]
  exact safeStrcpy_eq (hl i hu).2

end Engine

namespace Pipeline

variable {F : Type} [DecidableEq F] {resolve : CStr → F} {s s' : Pipeline F} {e : PipelineEvent}
  {h : ℕ} {i j : Slot} {entry : LogEntry}

/-! ## The entries and their producers -/

/-- The entry carries the slot of a producer. -/
def Tag (s : Pipeline F) (entry : LogEntry) : Prop :=
  ∃ h i, s.engine.producer h = some i ∧ entry.containerIndex = (i : ℕ)

/-- Every entry carries the slot of the producer that made it. -/
structure Tagged (s : Pipeline F) : Prop where
  pending : ∀ h entry, s.logs.view.pending h = some entry →
    ∃ i, s.engine.producer h = some i ∧ entry.containerIndex = (i : ℕ)
  pushed : ∀ entry ∈ s.logs.pushed, s.Tag entry
  unread : ∀ h, s.engine.producer h = none → s.captured h = []

theorem Tagged.section_step {logs : LogSystem ℕ Unit Unit} (t : Tagged s)
    (hv : ViewStep s.logs.view logs.view) : Tagged { s with logs := logs } := by
  refine ⟨?_, ?_, t.unread⟩
  · intro h entry
    change logs.view.pending h = some entry → _
    have key {p : ℕ} (hu : Function.update s.logs.view.pending p none h = some entry) :
        s.logs.view.pending h = some entry := by
      rcases eq_or_ne h p with rfl | hp
      · simp at hu
      · rwa [Function.update_of_ne hp] at hu
    generalize logs.view = v at hv
    cases hv with
    | stored p entry' | refused p => exact fun hu => t.pending h entry (key hu)
    | _ => exact t.pending h entry
  · intro entry
    change entry ∈ logs.view.pushed → _
    generalize logs.view = v at hv
    cases hv with
    | stored p entry' hp =>
      intro hmem
      rcases List.mem_append.mp hmem with hmem | hmem
      · exact t.pushed entry hmem
      · obtain rfl := List.mem_singleton.mp hmem
        obtain ⟨i, hi⟩ := t.pending p entry hp
        exact ⟨p, i, hi⟩
    | _ => exact t.pushed entry

/-- A step that the producers do not see. -/
structure SameInput (s s' : Pipeline F) : Prop where
  producer : s'.engine.producer = s.engine.producer
  pending : s'.logs.view.pending = s.logs.view.pending
  pushed : s'.logs.pushed = s.logs.pushed
  captured : s'.captured = s.captured

theorem SameInput.of_view {logs : LogSystem ℕ Unit Unit} {finished : ℕ → Bool}
    {consumer : ConsumerPc} (hv : logs.view = s.logs.view) :
    SameInput s { s with logs := logs, finished := finished, consumer := consumer } where
  producer := rfl
  pending := congrArg LogView.pending hv
  pushed := congrArg LogView.pushed hv
  captured := rfl

/-- What a step does on the producers' side. -/
theorem effect_input (hs : Effect resolve s e s') :
    SameInput s s' ∧ s'.logs.buf.shutdown = s.logs.buf.shutdown ∨
      e = .closeEnter ∧ SameInput s s' ∧ s'.logs.buf.shutdown = true ∨
      (∃ e' engine, s.engine.step e' = some engine ∧ s' = { s with engine := engine }) ∨
      (∃ logs, ViewStep s.logs.view logs.view ∧ s' = { s with logs := logs }) ∨
      ∃ h i chunk logs, s.engine.producer h = some i ∧
        s.logs.step (.pushCall h (logEntry i chunk)) = some logs ∧ s' = { s with
          logs := logs
          captured := if s.logs.buf.shutdown then s.captured
            else Function.update s.captured h (s.captured h ++ chunk) } := by
  cases hs with
  | engine e engine he => exact Or.inr (Or.inr (Or.inl ⟨e, engine, he, rfl⟩))
  | logs e logs hlogs he =>
    exact Or.inr (Or.inr (Or.inr (Or.inl ⟨logs, LogSystem.view_section hlogs he, rfl⟩)))
  | read h i chunk logs hi hlogs =>
    exact Or.inr (Or.inr (Or.inr (Or.inr ⟨h, i, chunk, logs, hi, hlogs, rfl⟩)))
  | finish | lookup | append => exact Or.inl ⟨⟨rfl, rfl, rfl, rfl⟩, rfl⟩
  | pushReturn h logs finished hlogs =>
    have hv := LogSystem.view_pushReturn hlogs
    exact Or.inl ⟨.of_view hv, congrArg LogView.shutdown hv⟩
  | popCall logs hc hlogs =>
    have hv := LogSystem.view_popCall hlogs
    exact Or.inl ⟨.of_view hv, congrArg LogView.shutdown hv⟩
  | popReturn ret logs hpc hlogs =>
    obtain ⟨-, -, -, hv⟩ := LogSystem.view_popReturn hlogs
    refine Or.inl ⟨⟨rfl, ?_, ?_, rfl⟩, (congrArg LogView.shutdown hv :)⟩
    · exact (congrArg LogView.pending hv :)
    · exact (congrArg LogView.pushed hv :)
  | closeEnter logs hlogs =>
    have hv := LogSystem.view_closeEnter hlogs
    refine Or.inr (Or.inl ⟨rfl, ⟨rfl, ?_, ?_, rfl⟩, (congrArg LogView.shutdown hv :)⟩)
    · exact (congrArg LogView.pending hv :)
    · exact (congrArg LogView.pushed hv :)
  | close e e' logs he hlogs =>
    have hv := LogSystem.view_close he hlogs
    exact Or.inl ⟨.of_view hv, congrArg LogView.shutdown hv⟩

theorem Tagged.step (t : Tagged s) (w : s.engine.Wf) (hs : Effect resolve s e s') : Tagged s' := by
  have hsame (hi : SameInput s s') : Tagged s' := by
    refine ⟨fun h entry hp => ?_, fun entry hp => ?_, fun h hp => ?_⟩
    · rw [hi.producer]
      exact t.pending h entry (hi.pending ▸ hp)
    · rw [Tag, hi.producer]
      exact t.pushed entry (hi.pushed ▸ hp)
    · rw [hi.captured]
      exact t.unread h (hi.producer ▸ hp)
  rcases effect_input hs with ⟨hi, -⟩ | ⟨-, hi, -⟩ | ⟨e, engine, he, rfl⟩ | ⟨logs, hv, rfl⟩ |
    ⟨h, i, chunk, logs, hi, hlogs, rfl⟩
  · exact hsame hi
  · exact hsame hi
  · have heff := Engine.step_effect he
    refine ⟨fun h entry hp => ?_, fun entry hp => ?_, fun h hp => ?_⟩
    · obtain ⟨i, hi, hidx⟩ := t.pending h entry hp
      exact ⟨i, w.producer_kept heff hi, hidx⟩
    · obtain ⟨h, i, hi, hidx⟩ := t.pushed entry hp
      exact ⟨h, i, w.producer_kept heff hi, hidx⟩
    · rcases w.producer_step heff h with heq | ⟨-, i, hi, -⟩
      · exact t.unread h (heq ▸ hp)
      · exact absurd (hi.symm.trans hp) (by simp)
  · exact t.section_step hv
  · obtain ⟨-, hv⟩ := LogSystem.view_pushCall hlogs
    refine ⟨fun g entry hp => ?_, fun entry hp => ?_, fun g hg => ?_⟩
    · change logs.view.pending g = some entry at hp
      rw [hv] at hp
      rcases eq_or_ne g h with rfl | hgh
      · obtain rfl : logEntry i chunk = entry := by simpa using hp
        exact ⟨i, hi, rfl⟩
      · exact t.pending g entry (by simpa [hgh] using hp)
    · change entry ∈ logs.view.pushed at hp
      rw [hv] at hp
      exact t.pushed entry hp
    · have hgh : g ≠ h := by
        rintro rfl
        exact absurd (hi.symm.trans hg) (by simp)
      have hold := t.unread g hg
      dsimp only
      split_ifs <;> simp [hgh, hold]

/-! ## What has been read has been pushed -/

/-- The bytes of the entries of a slot. -/
def chunks (i : Slot) (l : List LogEntry) : List UInt8 :=
  (l.filter fun entry => entry.containerIndex = ((i : ℕ) : ℤ)).flatMap LogEntry.bytes

@[simp] theorem chunks_append (i : Slot) (l l' : List LogEntry) :
    chunks i (l ++ l') = chunks i l ++ chunks i l' := by
  simp [chunks]

theorem chunks_singleton (hi : entry.containerIndex = (i : ℕ)) :
    chunks i [entry] = entry.bytes := by
  simp [chunks, hi]

theorem chunks_singleton_of_ne (hj : entry.containerIndex = (j : ℕ)) (hij : i ≠ j) :
    chunks i [entry] = [] := by
  have hne : ((j : ℕ) : ℤ) ≠ ((i : ℕ) : ℤ) := fun heq => hij (Fin.ext (by omega))
  simp [chunks, hj, hne]

theorem chunks_eq_nil {l : List LogEntry} (h : ∀ entry ∈ l, entry.containerIndex ≠ (i : ℕ)) :
    chunks i l = [] := by
  have hnil : l.filter (fun entry => entry.containerIndex = ((i : ℕ) : ℤ)) = [] := by
    simpa [List.filter_eq_nil_iff] using h
  rw [chunks, hnil, List.flatMap_nil]

/-- The bytes that a producer has read and not pushed, and that the ring may still take. -/
def unpushed (s : Pipeline F) (h : ℕ) : List UInt8 :=
  if s.logs.buf.shutdown then [] else (s.logs.view.pending h).elim [] LogEntry.bytes

/-- What a producer has read is in the entries pushed for its slot, and in its hands. -/
def Captured (s : Pipeline F) : Prop :=
  ∀ h i, s.engine.producer h = some i → chunks i s.logs.pushed ++ s.unpushed h = s.captured h

/-- No producer holds a chunk when the shutdown flag is set. -/
def NothingPending (s : Pipeline F) : PipelineEvent → Prop
  | .closeEnter => ∀ h ∈ s.engine.cloned, s.logs.view.pending h = none
  | _ => True

instance (s : Pipeline F) (e : PipelineEvent) : Decidable (NothingPending s e) := by
  unfold NothingPending
  split <;> infer_instance

/-- Nothing has been pushed for the slot of a producer that is only just created. -/
theorem Tagged.chunks_of_new (t : Tagged s) (w : s.engine.Wf) (hnone : s.engine.producer h = none)
    (hi : s.engine.Settled i h) :
    chunks i s.logs.pushed = [] ∧ s.unpushed h = [] ∧ s.captured h = [] := by
  refine ⟨chunks_eq_nil fun entry hmem hidx => ?_, ?_, t.unread h hnone⟩
  · obtain ⟨g, j, hj, hidx'⟩ := t.pushed entry hmem
    obtain rfl : i = j := Fin.ext (by omega)
    obtain rfl : g = h := Option.some.inj ((w.producer g i hj).1.symm.trans hi.1)
    exact absurd (hj.symm.trans hnone) (by simp)
  · have hpending : s.logs.view.pending h = none := by
      refine Option.eq_none_iff_forall_ne_some.mpr fun entry hp => ?_
      obtain ⟨j, hj, -⟩ := t.pending h entry hp
      exact absurd (hj.symm.trans hnone) (by simp)
    simp [unpushed, hpending]

theorem Captured.section_step {logs : LogSystem ℕ Unit Unit} (c : Captured s) (t : Tagged s)
    (w : s.engine.Wf) (hv : ViewStep s.logs.view logs.view) :
    Captured { s with logs := logs } := by
  intro h i hi
  have hold : chunks i s.logs.view.pushed ++ (if s.logs.view.shutdown then [] else
      (s.logs.view.pending h).elim [] LogEntry.bytes) = s.captured h := c h i hi
  change chunks i logs.view.pushed ++ (if logs.view.shutdown then [] else
      (logs.view.pending h).elim [] LogEntry.bytes) = s.captured h
  generalize logs.view = v at hv
  cases hv with
  | same => exact hold
  | stored p entry hp hd =>
    obtain ⟨j, hj, hidx⟩ := t.pending p entry hp
    rcases eq_or_ne h p with rfl | hne
    · obtain rfl : i = j := Option.some.inj (hi.symm.trans hj)
      simpa [hp, hd, chunks_singleton hidx] using hold
    · have hij : i ≠ j := by
        rintro rfl
        exact hne (w.producer_inj hi hj)
      simpa [hne, chunks_singleton_of_ne hidx hij] using hold
  | refused p hd => simpa [hd] using hold
  | took d entry => exact hold

theorem Captured.step (c : Captured s) (t : Tagged s) (w : s.engine.Wf)
    (hcloned : ∀ h i, s.engine.producer h = some i → h ∈ s.engine.cloned)
    (hs : Effect resolve s e s') (hc : NothingPending s e) : Captured s' := by
  rcases effect_input hs with ⟨hin, hd⟩ | ⟨rfl, hin, hd⟩ | ⟨e, engine, he, rfl⟩ | ⟨logs, hv, rfl⟩ |
    ⟨g, j, chunk, logs, hj, hlogs, rfl⟩
  · intro h i hi
    rw [unpushed, hd, hin.pending, hin.pushed, hin.captured]
    exact c h i (hin.producer ▸ hi)
  · intro h i hi
    rw [hin.producer] at hi
    have hold := c h i hi
    have hnone : s.unpushed h = [] := by simp [unpushed, hc h (hcloned h i hi)]
    rw [hnone] at hold
    rw [unpushed, hd, hin.pushed, hin.captured]
    exact hold
  · intro h i hi
    rcases w.producer_step (Engine.step_effect he) h with heq | ⟨hnone, j, hj, hset⟩
    · exact c h i (heq ▸ hi)
    · obtain rfl : i = j := Option.some.inj (hi.symm.trans hj)
      obtain ⟨h₁, h₂, h₃⟩ := t.chunks_of_new w hnone hset
      change chunks i s.logs.pushed ++ s.unpushed h = s.captured h
      rw [h₁, h₂, h₃, List.append_nil]
  · exact c.section_step t w hv
  · intro h i hi
    obtain ⟨hidle, hv⟩ := LogSystem.view_pushCall hlogs
    have hold := c h i hi
    have hpushed : logs.pushed = s.logs.pushed := (congrArg LogView.pushed hv :)
    have hshut : logs.buf.shutdown = s.logs.buf.shutdown := (congrArg LogView.shutdown hv :)
    have hpending : logs.view.pending =
        Function.update s.logs.view.pending g (some (logEntry j chunk)) :=
      (congrArg LogView.pending hv :)
    have hnone : s.logs.view.pending g = none := by
      simp [LogSystem.view, hidle, LogSystem.pendingOf]
    simp only [unpushed, hpushed, hshut, hpending] at hold ⊢
    cases hd : s.logs.buf.shutdown with
    | true => simpa [hd] using hold
    | false =>
      rcases eq_or_ne h g with rfl | hne
      · simp only [hd, hnone, Option.elim_none] at hold
        simp [← hold]
      · simpa [hd, hne] using hold

/-! ## What has been popped has been written -/

/-- The entry in the consumer's hands. -/
def hand : ConsumerPc → Option LogEntry
  | .lookup entry | .write _ entry => some entry
  | _ => none

/-- The entries popped are those written, the one in the consumer's hands, and the one that its
pop is about to return. A consumer that has finished has left the ring drained. -/
structure Consumed (s : Pipeline F) : Prop where
  popped : s.logs.popped =
    s.appended ++ (hand s.consumer).toList ++ (s.logs.view.taken ()).toList
  idle : s.consumer ≠ .pop → s.logs.popPc () = .idle
  finished : s.consumer = .finished → s.logs.Drained
  joined : s.engine.main.Joined → s.consumer = .finished

/-- The consumer does not see the other threads' steps on the log buffer. -/
theorem Consumed.logs_step {e : LogEvent ℕ Unit Unit} (c : Consumed s)
    (hlogs : s.logs.step e = some s'.logs) (he : e ≠ .popCall ())
    (hpopped : s'.logs.popped = s.logs.popped)
    (htaken : s'.logs.view.taken = s.logs.view.taken) (hengine : s'.engine = s.engine)
    (hconsumer : s'.consumer = s.consumer) (happended : s'.appended = s.appended) :
    Consumed s' where
  popped := by
    rw [hpopped, htaken, hconsumer, happended]
    exact c.popped
  idle h := LogSystem.popPc_idle hlogs he (c.idle (hconsumer ▸ h))
  finished h := LogSystem.drained_step (c.finished (hconsumer ▸ h)) hlogs
  joined h := by
    rw [hconsumer]
    exact c.joined (hengine ▸ h)

theorem Consumed.section_step {e : LogEvent ℕ Unit Unit} {logs : LogSystem ℕ Unit Unit}
    (c : Consumed s) (hlogs : s.logs.step e = some logs) (he : e.isSection = true) :
    Consumed { s with logs := logs } where
  popped := by
    have hv := LogSystem.view_section hlogs he
    have hold : s.logs.view.popped =
      s.appended ++ (hand s.consumer).toList ++ (s.logs.view.taken ()).toList := c.popped
    change logs.view.popped =
      s.appended ++ (hand s.consumer).toList ++ (logs.view.taken ()).toList
    generalize logs.view = v at hv
    cases hv with
    | took d entry hd => simp [hold, hd]
    | _ => exact hold
  idle h := by
    refine LogSystem.popPc_idle hlogs ?_ (c.idle h)
    rintro rfl
    cases he
  finished h := LogSystem.drained_step (c.finished h) hlogs
  joined := c.joined

theorem Consumed.step (c : Consumed s) (hs : Effect resolve s e s')
    (hdrained : s.logs.popPc () = .unlock none → s.logs.Drained)
    (hpath : ∀ entry, s.consumer = .lookup entry →
      logPath s.engine.table entry.containerIndex ≠ []) : Consumed s' := by
  cases hs with
  | engine e engine he hmain =>
    exact ⟨c.popped, c.idle, c.finished, fun hj => (hmain hj).elim c.joined id⟩
  | logs e logs hlogs he => exact c.section_step hlogs he
  | finish => exact ⟨c.popped, c.idle, c.finished, c.joined⟩
  | read h i chunk logs hi hlogs =>
    have hv := (LogSystem.view_pushCall hlogs).2
    exact c.logs_step hlogs (by simp) (congrArg LogView.popped hv :) (congrArg LogView.taken hv :)
      rfl rfl rfl
  | pushReturn h logs finished hlogs =>
    have hv := LogSystem.view_pushReturn hlogs
    exact c.logs_step hlogs (by simp) (congrArg LogView.popped hv) (congrArg LogView.taken hv)
      rfl rfl rfl
  | closeEnter logs hlogs =>
    have hv := LogSystem.view_closeEnter hlogs
    exact c.logs_step hlogs (by simp) (congrArg LogView.popped hv :) (congrArg LogView.taken hv :)
      rfl rfl rfl
  | close e e' logs he hlogs =>
    have hv := LogSystem.view_close he hlogs
    have hne : e' ≠ .popCall () := by
      rcases he with rfl | rfl <;> simp
    exact c.logs_step hlogs hne (congrArg LogView.popped hv) (congrArg LogView.taken hv)
      rfl rfl rfl
  | popCall logs hpop hlogs =>
    have hv := LogSystem.view_popCall hlogs
    refine ⟨?_, fun h => absurd hpop h, fun h => ?_, c.joined⟩
    · have hpopped : logs.popped = s.logs.popped := congrArg LogView.popped hv
      rw [hpopped, hv]
      exact c.popped
    · exact absurd (hpop.symm.trans h) (by simp)
  | popReturn ret logs hpc hlogs =>
    have hpop : s.consumer = .pop := by
      by_contra hne
      exact absurd (hpc.symm.trans (c.idle hne)) (by simp)
    obtain ⟨ret', hpc', htaken, hv⟩ := LogSystem.view_popReturn hlogs
    obtain rfl : ret = ret' := by simpa [hpc] using hpc'
    have hold := c.popped
    rw [hpop, htaken] at hold
    refine ⟨?_, fun _ => ?_, fun h => ?_, fun hj => ?_⟩
    · have hpopped : logs.popped = s.logs.popped := (congrArg LogView.popped hv :)
      rw [hpopped, hold, hv]
      cases ret <;> simp [hand]
    · simp only [LogSystem.step, hpc] at hlogs
      cases hlogs
      simp
    · cases ret with
      | none => exact LogSystem.drained_step (hdrained hpc) hlogs
      | some entry => cases h
    · exact absurd (hpop.symm.trans (c.joined hj)) (by simp)
  | lookup entry hc =>
    have hnil := hpath entry hc
    refine ⟨?_, fun _ => c.idle (by simp [hc]), fun h => ?_, fun hj => ?_⟩
    · have hold := c.popped
      rw [hc] at hold
      simpa [hnil, hand] using hold
    · simp [hnil] at h
    · exact absurd (hc.symm.trans (c.joined hj)) (by simp)
  | append path entry hc =>
    refine ⟨?_, fun h => absurd rfl h, fun h => ?_, fun hj => ?_⟩
    · have hold := c.popped
      rw [hc] at hold
      simpa [hand] using hold
    · cases h
    · exact absurd (hc.symm.trans (c.joined hj)) (by simp)

/-! ## What has been written is in its file -/

/-- A file is its old content and the entries whose path leads to it. -/
structure Stored (resolve : CStr → F) (files : F → List UInt8) (s : Pipeline F) : Prop where
  path : ∀ path entry, s.consumer = .write path entry →
    path = logPath s.engine.table entry.containerIndex
  content : ∀ f, s.files f = files f ++ (s.appended.filter fun entry =>
    resolve (logPath s.engine.table entry.containerIndex) = f).flatMap LogEntry.bytes

theorem Stored.step {files : F → List UInt8} (d : Stored resolve files s)
    (hs : Effect resolve s e s')
    (hkept : ∀ e engine, s.engine.step e = some engine →
      ∀ entry ∈ s.appended ++ (hand s.consumer).toList,
        logPath engine.table entry.containerIndex =
          logPath s.engine.table entry.containerIndex) : Stored resolve files s' := by
  cases hs with
  | engine e engine he =>
    have hk := hkept e engine he
    refine ⟨fun path entry hc => ?_, fun f => ?_⟩
    · change s.consumer = .write path entry at hc
      rw [d.path path entry hc, hk entry (by simp [hc, hand])]
    · change s.files f = _
      rw [d.content f]
      congr 2
      exact List.filter_congr fun entry hmem => by rw [hk entry (List.mem_append_left _ hmem)]
  | lookup entry hc =>
    refine ⟨fun path entry' hc' => ?_, d.content⟩
    dsimp only at hc'
    split_ifs at hc'
    obtain ⟨rfl, rfl⟩ := ConsumerPc.write.inj hc'
    rfl
  | append path entry hc =>
    refine ⟨nofun, fun f => ?_⟩
    have hpath := d.path path entry hc
    dsimp only
    rcases eq_or_ne f (resolve path) with rfl | hf
    · simp [d.content, ← hpath]
    · simp [d.content, ← hpath, hf, hf.symm]
  | popReturn ret logs hpc =>
    refine ⟨fun path entry hc => ?_, d.content⟩
    cases ret <;> simp at hc
  | _ => exact ⟨d.path, d.content⟩

/-! ## What holds along every run -/

/-- What holds along every run : entries carry their slots, what was popped is accounted for, and
what was written is in its file. -/
structure Routed (resolve : CStr → F) (files : F → List UInt8) (s : Pipeline F) : Prop where
  tagged : Tagged s
  consumed : Consumed s
  stored : Stored resolve files s

theorem Consumed.mem_pushed (c : Consumed s) (hl : s.logs.Reachable)
    (hmem : entry ∈ s.appended ++ (hand s.consumer).toList) : entry ∈ s.logs.pushed := by
  rw [← hl.queue.content, c.popped]
  exact List.mem_append_left _ (List.mem_append_left _ hmem)

/-- The path of an entry is the log file of its producer's slot. -/
theorem logPath_of_tag (hr : s.engine.Reachable) (hi : s.engine.producer h = some i)
    (hidx : entry.containerIndex = (i : ℕ)) :
    logPath s.engine.table entry.containerIndex = (s.engine.table i).logFile := by
  have w := Engine.Wf.of_run hr
  rw [hidx]
  exact (Engine.LogFiles.of_run hr).logPath (w.used_of_settled (w.producer h i hi))

/-- Every entry that has been pushed has a path. -/
theorem Tagged.logPath_ne_nil (t : Tagged s) (hr : s.engine.Reachable)
    (hmem : entry ∈ s.logs.pushed) : logPath s.engine.table entry.containerIndex ≠ [] := by
  obtain ⟨h, i, hi, hidx⟩ := t.pushed entry hmem
  have w := Engine.Wf.of_run hr
  rw [logPath_of_tag hr hi hidx]
  exact (Engine.LogFiles.of_run hr i (w.used_of_settled (w.producer h i hi))).1

/-- The path of an entry that has been pushed does not change. -/
theorem Tagged.logPath_kept (t : Tagged s) (hr : s.engine.Reachable) {e : Event} {engine : Engine}
    (he : s.engine.step e = some engine) (hmem : entry ∈ s.logs.pushed) :
    logPath engine.table entry.containerIndex =
      logPath s.engine.table entry.containerIndex := by
  obtain ⟨h, i, hi, hidx⟩ := t.pushed entry hmem
  have w := Engine.Wf.of_run hr
  have heff := Engine.step_effect he
  have hr' : engine.Reachable := .tail e hr trivial he
  have hnew := logPath_of_tag (s := { s with engine := engine }) hr' (w.producer_kept heff hi) hidx
  rw [hnew, logPath_of_tag hr hi hidx]
  exact (w.settled_step heff (w.producer h i hi)).2.logFile

theorem Routed.of_run {C : Pipeline F → PipelineEvent → Prop} {files : F → List UInt8}
    (hr : Transition.Run (step resolve) C (init files) s) : Routed resolve files s := by
  refine hr.invariant_of_reached ?_ ?_
  · refine ⟨⟨fun h entry hp => ?_, fun entry hp => ?_, fun _ _ => rfl⟩,
      ⟨rfl, fun h => absurd rfl h, nofun, fun hj => ?_⟩, nofun, fun f => ?_⟩
    · simp [init, LogSystem.init, LogSystem.view, LogSystem.pendingOf] at hp
    · simp [init, LogSystem.init] at hp
    · simp [init, Engine.init, MainPc.Joined] at hj
    · simp [init]
  · rintro t e u ht ⟨tagged, consumed, stored⟩ - hs
    have heff := step_effect hs
    have hre := engine_run ht
    have hrl := logs_run ht
    refine ⟨tagged.step (Engine.Wf.of_run hre) heff, consumed.step heff (hrl.drained ()) ?_,
      stored.step heff ?_⟩
    · intro entry hlook
      exact tagged.logPath_ne_nil hre (consumed.mem_pushed hrl (by simp [hlook, hand]))
    · intro e' engine he entry hmem
      exact tagged.logPath_kept hre he (consumed.mem_pushed hrl hmem)

/-- `log_consumer_main` leaves its loop when the ring is shut down and empty, with everything
popped that was ever pushed. -/
theorem consumer_finished {C : Pipeline F → PipelineEvent → Prop} {files : F → List UInt8}
    (hr : Transition.Run (step resolve) C (init files) s) (hfin : s.consumer = .finished) :
    s.logs.Drained ∧ s.logs.popped = s.logs.pushed := by
  have hdrained := (Routed.of_run hr).consumed.finished hfin
  exact ⟨hdrained, (logs_run hr).popped_of_drained hdrained⟩

/-! ## At the end of the shutdown -/

/-- What holds along a run in which no producer holds a chunk when the flag is set. -/
structure Flow (resolve : CStr → F) (files : F → List UInt8) (s : Pipeline F) : Prop where
  tagged : Tagged s
  captured : Captured s
  consumed : Consumed s
  stored : Stored resolve files s

theorem Captured.of_run {files : F → List UInt8}
    (hr : Transition.Run (Pipeline.step resolve) NothingPending (init files) s) : Captured s := by
  refine hr.invariant_of_reached (fun h i hi => by simp [init, Engine.init] at hi) ?_
  intro t e u ht captured hc hs
  have hre := engine_run ht
  have w := Engine.Wf.of_run hre
  refine captured.step (Routed.of_run ht).tagged w (fun h i hi => ?_) (step_effect hs) hc
  obtain ⟨-, c, hchild, -⟩ := w.of_settled (w.producer h i hi)
  exact Engine.cloned_of_child hre hchild

theorem Flow.of_run {files : F → List UInt8}
    (hr : Transition.Run (step resolve) NothingPending (init files) s) :
    Flow resolve files s := by
  obtain ⟨tagged, consumed, stored⟩ := Routed.of_run hr
  exact ⟨tagged, Captured.of_run hr, consumed, stored⟩

/-- At the end of the shutdown everything pushed has been written. -/
theorem Flow.appended_of_joined {files : F → List UInt8} (d : Flow resolve files s)
    (hl : s.logs.Reachable) (hj : s.engine.main.Joined) :
    s.appended = s.logs.pushed ∧ s.logs.buf.shutdown = true := by
  have hfin := d.consumed.joined hj
  have hdrained := d.consumed.finished hfin
  have hidle := d.consumed.idle (by simp [hfin])
  have htaken : s.logs.view.taken () = none := by simp [LogSystem.view, hidle, LogSystem.takenOf]
  have hpopped := d.consumed.popped
  rw [hl.popped_of_drained hdrained, hfin, htaken] at hpopped
  exact ⟨by simpa [hand] using hpopped.symm, hdrained.1⟩

/-- The entries of a producer are among those that lead to its log file. -/
theorem chunks_of_file (hr : s.engine.Reachable) (hi : s.engine.producer h = some i)
    (l : List LogEntry) :
    chunks i (l.filter fun entry => resolve (logPath s.engine.table entry.containerIndex) =
      resolve (s.engine.table i).logFile) = chunks i l := by
  rw [chunks, chunks, List.filter_filter]
  congr 1
  refine List.filter_congr fun entry hmem => ?_
  by_cases hidx : entry.containerIndex = ((i : ℕ) : ℤ)
  · have hpath := logPath_of_tag hr hi hidx
    simp [hidx, hidx ▸ hpath]
  · simp [hidx]

/-- The log file of every container holds, in order, what its producer had read before the
shutdown flag was set. -/
def OutputKept (resolve : CStr → F) (s : Pipeline F) : Prop :=
  ∀ h i, s.engine.producer h = some i →
    (s.captured h).Sublist (s.files (resolve (s.engine.table i).logFile))

/-- If no producer holds a chunk at the moment when the shutdown flag is set, then no output is
lost : once the log consumer has been joined, the log file of a container is its old content
followed by whole entries, and those of this container are, in order, what its producer had read
before the flag was set. -/
theorem shutdown_keeps_output {files : F → List UInt8}
    (hr : Transition.Run (step resolve) NothingPending (init files) s)
    (hj : s.engine.main.Joined) :
    OutputKept resolve s ∧ ∀ h i, s.engine.producer h = some i →
      ∃ entries, s.files (resolve (s.engine.table i).logFile) =
          files (resolve (s.engine.table i).logFile) ++ entries.flatMap LogEntry.bytes ∧
        chunks i entries = s.captured h := by
  have d := Flow.of_run hr
  have hre := engine_run hr
  have hl := logs_run hr
  obtain ⟨happended, hshut⟩ := d.appended_of_joined hl hj
  have key : ∀ h i, s.engine.producer h = some i →
      ∃ entries, s.files (resolve (s.engine.table i).logFile) =
          files (resolve (s.engine.table i).logFile) ++ entries.flatMap LogEntry.bytes ∧
        chunks i entries = s.captured h := by
    intro h i hi
    refine ⟨_, d.stored.content _, ?_⟩
    have hcaptured := d.captured h i hi
    rw [unpushed, hshut, if_pos rfl, List.append_nil] at hcaptured
    rw [chunks_of_file hre hi, happended, hcaptured]
  refine ⟨fun h i hi => ?_, key⟩
  obtain ⟨entries, hfile, hentries⟩ := key h i hi
  rw [hfile, ← hentries]
  exact (List.Sublist.flatMap List.filter_sublist _).trans (List.sublist_append_right _ _)

/-- A container that writes one byte, and the shutdown up to the section of
`log_buffer_shutdown`. -/
def playShutdown (pushed : Bool) : List PipelineEvent :=
  (Engine.playClone 0 REQ_START "a" 7 ++ Engine.playPublish 0).map .engine ++
    [.read 0 [104]] ++
    (if pushed then [.logs (.pushEnter 0 none), .pushReturn 0] else []) ++
    [.engine .signal, .engine .loopTest, .engine .stopAll, .engine .logShutdown, .closeCall,
      .closeEnter, .closeReturn]

/-- The byte has been pushed when the flag is set. -/
theorem shutdown_keeps_output_one : ∃ s : Pipeline CStr, s.captured 0 = [104] ∧
    s.engine.main.Joined ∧ OutputKept id s := by
  obtain ⟨s, hr, hc, hj⟩ := Transition.exists_run_of_exec (step id) NothingPending
    (init fun _ => [])
    (playShutdown true ++ [.popCall, .logs (.popEnter () none), .popReturn, .lookup, .append,
      .popCall, .logs (.popEnter () none), .popReturn, .engine .joinConsumer])
    (fun s => s.captured 0 = [104] ∧ s.engine.main = .joinReaper) (by decide)
  exact ⟨s, hc, Or.inl hj, (shutdown_keeps_output hr (Or.inl hj)).1⟩

/-- The producer is about to push the byte when the flag is set. -/
theorem shutdown_drops_chunk : ∃ s : Pipeline CStr,
    Transition.Run (step id) Transition.Always (init fun _ => []) s ∧
      s.engine.main.Joined ∧ ¬OutputKept id s := by
  obtain ⟨s, hr, hc, hf, hp, hj⟩ := Transition.exists_run_of_exec (step id) Transition.Always
    (init fun _ => [])
    (playShutdown false ++ [.logs (.pushEnter 0 none), .pushReturn 0, .popCall,
      .logs (.popEnter () none), .popReturn, .engine .joinConsumer])
    (fun s => s.captured 0 = [104] ∧ s.files (s.engine.table 0).logFile = [] ∧
      s.engine.producer 0 = some 0 ∧ s.engine.main = .joinReaper) (by decide)
  refine ⟨s, hr, Or.inl hj, fun hkept => ?_⟩
  have hsub := hkept 0 0 hp
  rw [hc, id, hf] at hsub
  simp at hsub

end Pipeline

end Jackfruit
