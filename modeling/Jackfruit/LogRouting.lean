import Jackfruit.LogFlow
import Jackfruit.PathName

/-!
# Which log file a chunk goes to

A chunk carries the index of a slot, and the consumer looks the path up when it has popped the
chunk. `Traced` is the pipeline with the entries that each producer has pushed so far. A slot that
has a producer keeps its log file for ever, and two used slots have different paths, because they
have different ids and neither the id nor the path is cut off (`logNames_of_run`). But `open` goes
where a path leads : `a` and `./a` are two ids, and `logs/a.log` and `logs/./a.log` one file
(`log_files_shared`). If no start gets past its checks with the log file of a container in the
table, the bytes appended to `logs/X.log`, the chunk that the consumer holds and the chunks in the
ring are what the producer of the container `X` has pushed (`log_chunks_routed`).
-/

set_option linter.unusedSectionVars false

namespace Jackfruit

namespace Engine

variable {s s' : Engine} {e : Event} {i j : Slot} {h : ℕ}

/-- The path of an id that fits its field is not cut off. -/
theorem snprintf_logFileOf {id : CStr} (hlen : id.length < MAX_ID_LEN) :
    snprintf MAX_PATH_LEN (logFileOf id) = logFileOf id := by
  refine List.take_of_length_le ?_
  simp only [logFileOf, List.length_append, MAX_PATH_LEN, MAX_ID_LEN] at hlen ⊢
  simp only [cstr, List.length_map]
  change 5 + _ + 4 ≤ 255
  omega

theorem SlotStep.logFile_eq {c : Container} (hs : SlotStep s e i c) (n : Named s)
    (hu : c.used = true)
    (hold : (s.table i).used = true → (s.table i).logFile = logFileOf (s.table i).id) :
    c.logFile = logFileOf c.id := by
  cases hs with
  | reserve h now =>
    have hid : safeStrcpy (s.req h).id MAX_ID_LEN = (s.req h).id :=
      safeStrcpy_eq (n.terminated h).1
    exact (snprintf_logFileOf (n.terminated h).1).trans (congrArg logFileOf hid.symm)
  | release => simp [Container.release] at hu
  | same | waiters | stop | publish | reap => exact hold hu

/-- The log file of a used slot is the one of its id. -/
theorem logNames_of_run (hr : Transition.Run Engine.step RequestTerminated init s)
    (hu : (s.table i).used = true) : (s.table i).logFile = logFileOf (s.table i).id := by
  revert i
  refine hr.invariant_of_reached
    (I := fun t => ∀ {i}, (t.table i).used = true → (t.table i).logFile = logFileOf (t.table i).id)
    (fun hi => by simp [init, initContainers, Container.init] at hi) ?_
  exact fun t e u ht hl _ hs i hu => (step_slot (step_effect hs) i).logFile_eq (.of_run ht) hu hl

variable {F : Type} {resolve : CStr → F}

/-- A start that gets past its checks asks for a log file that no container in the table has. -/
def OwnLogFile (resolve : CStr → F) (s : Engine) : Event → Prop
  | .reserve h _ => (startContainerCheck s.table (s.req h)).isOk = true →
      ∀ j, (s.table j).used = true → resolve (s.table j).logFile ≠ resolve (logFileOf (s.req h).id)
  | _ => True

instance [DecidableEq F] (s : Engine) (e : Event) : Decidable (OwnLogFile resolve s e) := by
  unfold OwnLogFile
  split <;> infer_instance

/-- No two containers in the table have one log file. -/
def LogFilesApart (resolve : CStr → F) (s : Engine) : Prop :=
  ∀ i j, (s.table i).used = true → (s.table j).used = true →
    resolve (s.table i).logFile = resolve (s.table j).logFile → i = j

/-- The conditions on the starts : their texts are terminated, and their log files their own. -/
def StartsApart (resolve : CStr → F) (s : Engine) (e : Event) : Prop :=
  RequestTerminated s e ∧ OwnLogFile resolve s e

instance [DecidableEq F] (s : Engine) (e : Event) : Decidable (StartsApart resolve s e) :=
  inferInstanceAs (Decidable (_ ∧ _))

/-- A used slot has just been reserved, or was used with the same log file. -/
theorem SlotStep.logFile_cases {c : Container} (n : Named s) (hs : SlotStep s e i c)
    (hu : c.used = true) :
    (∃ h now, e = .reserve h now ∧ startContainerCheck s.table (s.req h) = .ok i ∧
        c.logFile = logFileOf (s.req h).id) ∨
      (s.table i).used = true ∧ c.logFile = (s.table i).logFile := by
  cases hs with
  | reserve h now he hpc hck =>
    exact Or.inl ⟨h, now, he, hck, snprintf_logFileOf (n.terminated h).1⟩
  | release => simp [Container.release] at hu
  | same | waiters | stop | publish | reap => exact Or.inr ⟨hu, rfl⟩

theorem LogFilesApart.step (x : LogFilesApart resolve s) (n : Named s) (hs : Effect s e s')
    (hc : OwnLogFile resolve s e) : LogFilesApart resolve s' := by
  intro i j hi hj hfile
  -- The start that takes a new slot has a log file of its own.
  have hnew {i j : Slot} {h : ℕ} {now : ℤ} (he : e = .reserve h now)
      (hck : startContainerCheck s.table (s.req h) = .ok i) (hj : (s.table j).used = true)
      (hfile : resolve (logFileOf (s.req h).id) = resolve (s.table j).logFile) : False := by
    subst he
    exact hc (by rw [hck]; rfl) j hj hfile.symm
  rcases (step_slot hs i).logFile_cases n hi with ⟨h, now, he, hck, hlog⟩ | ⟨hi₀, hlog⟩ <;>
    rcases (step_slot hs j).logFile_cases n hj with ⟨h', now', he', hck', hlog'⟩ | ⟨hj₀, hlog'⟩
  · obtain ⟨rfl, -⟩ := Event.reserve.inj (he.symm.trans he')
    exact Except.ok.inj (hck.symm.trans hck')
  · exact (hnew he hck hj₀ (by rw [← hlog, hfile, hlog'])).elim
  · exact (hnew he' hck' hi₀ (by rw [← hlog', ← hfile, hlog])).elim
  · exact x i j hi₀ hj₀ (by rw [← hlog, hfile, hlog'])

theorem LogFilesApart.of_run (hr : Transition.Run Engine.step (StartsApart resolve) init s) :
    LogFilesApart resolve s := by
  refine hr.invariant_of_reached (fun i j hi => ?_) fun t e u ht x hc hs => ?_
  · simp [init, initContainers, Container.init] at hi
  · exact x.step (.of_run (ht.mono fun _ _ h => h.1)) (step_effect hs) hc.2

/-- If every path leads to a file of its own, every start has a log file of its own. -/
theorem startsApart_of_injective (hinj : Function.Injective resolve)
    (hr : Transition.Run Engine.step RequestTerminated init s) :
    Transition.Run Engine.step (StartsApart resolve) init s := by
  induction hr with
  | refl => exact .refl
  | tail e ht hc hs ih =>
    refine .tail e ih ⟨hc, ?_⟩ hs
    cases e with
    | reserve h now =>
      intro hok j hj hfile
      rename_i t u
      cases hck : startContainerCheck t.table (t.req h) with
      | error text => simp [hck, Except.isOk, Except.toBool] at hok
      | ok i =>
        rw [logNames_of_run ht hj] at hfile
        exact (startContainerCheck_ok hck).2.1 j hj (logFileOf_injective (hinj hfile))
    | _ => trivial

/-- The first start with the log file of another container gives two containers one file. -/
theorem LogFilesApart.ownLogFile (x : LogFilesApart resolve s') (n : Named s)
    (hs : Engine.step s e = some s') : OwnLogFile resolve s e := by
  cases e with
  | reserve h now =>
    intro hok j hj hfile
    obtain ⟨i, hck⟩ : ∃ i, startContainerCheck s.table (s.req h) = .ok i := by
      cases hck : startContainerCheck s.table (s.req h) with
      | error text => simp [hck, Except.isOk, Except.toBool] at hok
      | ok i => exact ⟨i, rfl⟩
    obtain rfl := step_reserve hs hck
    have hij : j ≠ i := by
      rintro rfl
      exact absurd (hj.symm.trans (startContainerCheck_ok hck).1) (by simp)
    have hslot : (s.reserved h i now).table i = (s.table i).reserve (s.req h) now :=
      Function.update_self _ _ _
    have hother : (s.reserved h i now).table j = s.table j := Function.update_of_ne hij _ _
    refine absurd (x j i (by rwa [hother]) (by rw [hslot]; rfl) ?_) hij
    rw [hother, hslot, hfile]
    exact congrArg resolve (snprintf_logFileOf (n.terminated h).1).symm
  | _ => trivial

end Engine

namespace LogSystem

variable {P C M : Type} [DecidableEq P] [DecidableEq C] [DecidableEq M] {s s' : LogSystem P C M}

/-- A push that gets the mutex stores its entry and is about to return `0`, or leaves the ring as
it is. -/
theorem pushEnter_cases {p : P} {w : Option C} (h : step s (.pushEnter p w) = some s') :
    (∃ entry, s.view.pending p = some entry ∧ s'.pushPc p = .unlock 0 ∧
        s'.pushed = s.pushed ++ [entry]) ∨
      s'.pushPc p ≠ .unlock 0 ∧ s'.pushed = s.pushed := by
  cases step_pushEnter h with
  | pushWait | pushRefused => exact Or.inr ⟨by simp, rfl⟩
  | pushStored _ _ entry _ hentry =>
    exact Or.inl ⟨entry, pending_of_contends hentry, Function.update_self _ _ _, rfl⟩

/-- Only the section of a push stores an entry. -/
theorem pushed_step {e : LogEvent P C M} (h : step s e = some s')
    (he : ∀ p w, e ≠ .pushEnter p w) : s'.pushed = s.pushed := by
  cases step_cases h with
  | pushStored p w => exact absurd rfl (he p w)
  | _ => rfl

end LogSystem

namespace Pipeline

variable {F : Type} [DecidableEq F] {resolve : CStr → F} {s s' : Pipeline F} {e : PipelineEvent}

theorem pushed_step (hs : Effect resolve s e s') (he : ∀ p w, e ≠ .logs (.pushEnter p w)) :
    s'.logs.pushed = s.logs.pushed := by
  cases hs with
  | logs e logs hlogs =>
    refine LogSystem.pushed_step hlogs ?_
    rintro p w rfl
    exact he p w rfl
  | read h i chunk logs hi hlogs => exact LogSystem.pushed_step hlogs nofun
  | pushReturn h logs finished hlogs => exact LogSystem.pushed_step hlogs nofun
  | popCall logs hpop hlogs => exact LogSystem.pushed_step hlogs nofun
  | popReturn ret logs hpc hlogs => exact LogSystem.pushed_step hlogs nofun
  | closeEnter logs hlogs => exact LogSystem.pushed_step hlogs nofun
  | close e e' logs he' hlogs =>
    rcases he' with rfl | rfl
    all_goals exact LogSystem.pushed_step hlogs nofun
  | _ => rfl

theorem step_logs {e : LogEvent ℕ Unit Unit} (hs : step resolve s (.logs e) = some s') :
    ∃ logs, s.logs.step e = some logs ∧ { s with logs := logs } = s' := by
  unfold step at hs
  replace hs := (ite_eq_iff.mp hs).resolve_left (by simp) |>.2
  simp only [next] at hs
  split_ifs at hs
  exact Option.map_eq_some_iff.mp hs

/-- What a step does to the producers. -/
theorem producer_step (w : s.engine.Wf) (hs : Effect resolve s e s') (h : ℕ) :
    s'.engine.producer h = s.engine.producer h ∨
      s.engine.producer h = none ∧ ∃ i, s'.engine.producer h = some i ∧ s.engine.Settled i h := by
  cases hs with
  | engine e engine he => exact w.producer_step (Engine.step_effect he) h
  | _ => exact Or.inl rfl

/-- The text fields of every request that arrives are terminated inside their fields. -/
def RequestTerminated (s : Pipeline F) : PipelineEvent → Prop
  | .engine e => Engine.RequestTerminated s.engine e
  | _ => True

instance (s : Pipeline F) (e : PipelineEvent) : Decidable (RequestTerminated s e) := by
  unfold RequestTerminated
  split <;> infer_instance

/-- The conditions on the starts. -/
def StartsApart (resolve : CStr → F) (s : Pipeline F) : PipelineEvent → Prop
  | .engine e => s.engine.StartsApart resolve e
  | _ => True

instance (s : Pipeline F) (e : PipelineEvent) : Decidable (StartsApart resolve s e) := by
  unfold StartsApart
  split <;> infer_instance

theorem engine_run_apart {files : F → List UInt8}
    (hr : Transition.Run (step resolve) (StartsApart resolve) (init files) s) :
    Transition.Run Engine.step (Engine.StartsApart resolve) Engine.init s.engine := by
  refine hr.map Pipeline.engine fun t e u _ hc hs => ?_
  cases step_effect hs with
  | engine e engine he => exact Or.inr ⟨e, hc, he⟩
  | _ => exact Or.inl rfl

end Pipeline

/-- The pipeline with the entries that each producer has pushed, in order. -/
structure Traced (F : Type) where
  pipeline : Pipeline F
  accepted : ℕ → List LogEntry

namespace Traced

variable {F : Type} [DecidableEq F]

/-- `run_supervisor` at its accept loop. -/
def init (files : F → List UInt8) : Traced F :=
  ⟨Pipeline.init files, fun _ => []⟩

/-- A push is accepted in the section after which it returns `0`. -/
def accept (s : Traced F) (p : Pipeline F) : PipelineEvent → ℕ → List LogEntry
  | .logs (.pushEnter h _) =>
    if p.logs.pushPc h = .unlock 0 then
      Function.update s.accepted h (s.accepted h ++ (s.pipeline.logs.view.pending h).toList)
    else s.accepted
  | _ => s.accepted

/-- One step. -/
def step (resolve : CStr → F) (s : Traced F) (e : PipelineEvent) : Option (Traced F) :=
  (s.pipeline.step resolve e).map fun p => ⟨p, s.accept p e⟩

/-- The conditions on the starts. -/
def StartsApart (resolve : CStr → F) (s : Traced F) (e : PipelineEvent) : Prop :=
  s.pipeline.StartsApart resolve e

instance (resolve : CStr → F) (s : Traced F) (e : PipelineEvent) :
    Decidable (StartsApart resolve s e) :=
  inferInstanceAs (Decidable (s.pipeline.StartsApart resolve e))

variable {resolve : CStr → F} {s s' : Traced F} {e : PipelineEvent} {files : F → List UInt8}
  {h : ℕ} {i : Slot}

theorem step_pipeline (hs : step resolve s e = some s') :
    s.pipeline.step resolve e = some s'.pipeline ∧ s'.accepted = s.accept s'.pipeline e := by
  obtain ⟨p, hp, rfl⟩ := Option.map_eq_some_iff.mp hs
  exact ⟨hp, rfl⟩

theorem pipeline_run (hr : Transition.Run (step resolve) (StartsApart resolve) (init files) s) :
    Transition.Run (Pipeline.step resolve) (Pipeline.StartsApart resolve) (Pipeline.init files)
      s.pipeline := by
  refine hr.map Traced.pipeline fun t e u _ hc hs => ?_
  exact Or.inr ⟨e, hc, (step_pipeline hs).1⟩

theorem accept_eq {p : Pipeline F} (he : ∀ h w, e ≠ .logs (.pushEnter h w)) :
    s.accept p e = s.accepted := by
  unfold accept
  split
  · rename_i h w
    exact absurd rfl (he h w)
  · rfl

/-- What a producer has pushed are the chunks of its slot. -/
structure Accepted (s : Traced F) : Prop where
  chunks : ∀ h i, s.pipeline.engine.producer h = some i →
    (s.accepted h).flatMap LogEntry.bytes = Pipeline.chunks i s.pipeline.logs.pushed
  none : ∀ h, s.pipeline.engine.producer h = none → s.accepted h = []

theorem Accepted.push_step {w : Option Unit} (a : Accepted s) (t : s.pipeline.Tagged)
    (wf : s.pipeline.engine.Wf) {logs : LogSystem ℕ Unit Unit}
    (hlogs : s.pipeline.logs.step (.pushEnter h w) = some logs) :
    Accepted ⟨{ s.pipeline with logs := logs },
      s.accept { s.pipeline with logs := logs } (.logs (.pushEnter h w))⟩ := by
  rcases LogSystem.pushEnter_cases hlogs with ⟨entry, hp, hpc, hpushed⟩ | ⟨hpc, hpushed⟩
  · obtain ⟨i, hi, hidx⟩ := t.pending h entry hp
    have hacc : s.accept { s.pipeline with logs := logs } (.logs (.pushEnter h w)) =
        Function.update s.accepted h (s.accepted h ++ [entry]) := by
      simp [accept, hpc, hp]
    rw [hacc]
    refine ⟨fun g j hj => ?_, fun g hg => ?_⟩
    · change _ = Pipeline.chunks j logs.pushed
      rw [hpushed, Pipeline.chunks_append, ← a.chunks g j hj]
      rcases eq_or_ne g h with rfl | hne
      · obtain rfl : i = j := Option.some.inj (hi.symm.trans hj)
        simp [Pipeline.chunks_singleton hidx]
      · have hij : j ≠ i := by
          rintro rfl
          exact hne (wf.producer_inj hj hi)
        simp [hne, Pipeline.chunks_singleton_of_ne hidx hij]
    · have hne : g ≠ h := by
        rintro rfl
        exact absurd (hi.symm.trans hg) (by simp)
      exact (Function.update_of_ne hne _ _).trans (a.none g hg)
  · have hacc : s.accept { s.pipeline with logs := logs } (.logs (.pushEnter h w)) =
        s.accepted := by
      simp [accept, hpc]
    rw [hacc]
    refine ⟨fun g j hj => ?_, a.none⟩
    change _ = Pipeline.chunks j logs.pushed
    rw [hpushed]
    exact a.chunks g j hj

theorem Accepted.step (a : Accepted s) (t : s.pipeline.Tagged) (wf : s.pipeline.engine.Wf)
    (hs : Traced.step resolve s e = some s') : Accepted s' := by
  obtain ⟨p, hp, rfl⟩ := Option.map_eq_some_iff.mp hs
  by_cases he : ∃ h w, e = .logs (.pushEnter h w)
  · obtain ⟨h, w, rfl⟩ := he
    obtain ⟨logs, hlogs, rfl⟩ := Pipeline.step_logs hp
    exact a.push_step t wf hlogs
  · have hne : ∀ h w, e ≠ .logs (.pushEnter h w) := fun h w heq => he ⟨h, w, heq⟩
    have heff := Pipeline.step_effect hp
    have hpushed := Pipeline.pushed_step heff hne
    rw [accept_eq hne]
    refine ⟨fun h i hi => ?_, fun h hh => ?_⟩
    · change _ = Pipeline.chunks i p.logs.pushed
      rw [hpushed]
      rcases Pipeline.producer_step wf heff h with heq | ⟨hnone, j, hj, hset⟩
      · exact a.chunks h i (heq ▸ hi)
      · obtain rfl : i = j := Option.some.inj (hi.symm.trans hj)
        rw [(t.chunks_of_new wf hnone hset).1, a.none h hnone]
        rfl
    · rcases Pipeline.producer_step wf heff h with heq | ⟨-, j, hj, -⟩
      · exact a.none h (heq ▸ hh)
      · exact absurd (hj.symm.trans hh) (by simp)

theorem Accepted.of_run
    (hr : Transition.Run (Traced.step resolve) (StartsApart resolve) (init files) s) :
    Accepted s := by
  refine hr.invariant_of_reached ⟨fun h i hi => ?_, fun _ _ => rfl⟩ ?_
  · simp [init, Pipeline.init, Engine.init] at hi
  · intro t e u ht a _ hs
    have hp := pipeline_run ht
    exact a.step (Pipeline.Routed.of_run hp).tagged (.of_run (Pipeline.engine_run hp)) hs

/-- What a slot's owner has pushed are the chunks of the slot. -/
theorem Accepted.of_owner (a : Accepted s) (t : s.pipeline.Tagged) (wf : s.pipeline.engine.Wf)
    (ho : s.pipeline.engine.owner i = some h) :
    (s.accepted h).flatMap LogEntry.bytes = Pipeline.chunks i s.pipeline.logs.pushed := by
  cases hp : s.pipeline.engine.producer h with
  | some j =>
    obtain rfl : i = j := wf.owner_inj i j h ho (wf.producer h j hp).1
    exact a.chunks h i hp
  | none =>
    have hnil : Pipeline.chunks i s.pipeline.logs.pushed = [] := by
      refine Pipeline.chunks_eq_nil fun entry hmem hidx => ?_
      obtain ⟨g, j, hj, hidx'⟩ := t.pushed entry hmem
      obtain rfl : i = j := Fin.ext (by omega)
      obtain rfl : g = h := Option.some.inj ((wf.producer g i hj).1.symm.trans ho)
      exact absurd (hj.symm.trans hp) (by simp)
    rw [a.none h hp, hnil]
    rfl

/-- The path of an entry leads to the log file of a used slot only if it carries the slot's
index. -/
theorem resolve_logPath_iff
    (hr : Transition.Run (step resolve) (StartsApart resolve) (init files) s)
    (hu : (s.pipeline.engine.table i).used = true) {entry : LogEntry}
    (hmem : entry ∈ s.pipeline.logs.pushed) :
    resolve (logPath s.pipeline.engine.table entry.containerIndex) =
        resolve (logFileOf (s.pipeline.engine.table i).id) ↔ entry.containerIndex = (i : ℕ) := by
  have hp := pipeline_run hr
  have hre := Pipeline.engine_run hp
  have hapart := Pipeline.engine_run_apart hp
  have wf := Engine.Wf.of_run hre
  obtain ⟨h, j, hj, hidx⟩ := (Pipeline.Routed.of_run hp).tagged.pushed entry hmem
  have huj := wf.used_of_settled (wf.producer h j hj)
  rw [Pipeline.logPath_of_tag hre hj hidx,
    ← Engine.logNames_of_run (hapart.mono fun _ _ h => h.1) hu, hidx]
  refine ⟨fun heq => ?_, fun heq => ?_⟩
  · rw [Engine.LogFilesApart.of_run hapart j i huj hu heq]
  · obtain rfl : j = i := Fin.ext (by omega)
    rfl

/-- What has been appended to the log file of a used slot are the chunks of the slot. -/
theorem files_eq (hr : Transition.Run (step resolve) (StartsApart resolve) (init files) s)
    (hu : (s.pipeline.engine.table i).used = true) :
    s.pipeline.files (resolve (logFileOf (s.pipeline.engine.table i).id)) =
      files (resolve (logFileOf (s.pipeline.engine.table i).id)) ++
        Pipeline.chunks i s.pipeline.appended := by
  have hp := pipeline_run hr
  have d := Pipeline.Routed.of_run hp
  rw [d.stored.content, Pipeline.chunks]
  congr 2
  refine List.filter_congr fun entry hmem => ?_
  have hpushed := d.consumed.mem_pushed (Pipeline.logs_run hp) (List.mem_append_left _ hmem)
  exact decide_eq_decide.mpr (resolve_logPath_iff hr hu hpushed)

/-- The bytes of the slot `i` that have been pushed and not written : in the hands of the
consumer, or of its pop, and in the ring. -/
def unwritten (s : Traced F) (i : Slot) : List UInt8 :=
  Pipeline.chunks i ((Pipeline.hand s.pipeline.consumer).toList ++
      (s.pipeline.logs.view.taken ()).toList) ++
    Pipeline.chunks i (s.pipeline.logs.buf.contents LOG_BUFFER_CAPACITY)

/-- If no start gets past its checks with the log file of a container in the table, then in every
reachable state, for every used slot : what has been appended to the file of `logs/X.log` for its id
`X`, followed by the chunk of `X` that the consumer holds and by the chunks of `X` in the ring, is
what the producer of `X` has pushed; the chunk that the consumer is about to append to this file
carries the index of this slot. The consumer finds a path for every chunk it looks up, so every
popped chunk is appended, or still in its hands. And the first start that does not meet the
condition gives two containers one log file. -/
theorem log_chunks_routed
    (hr : Transition.Run (step resolve) (StartsApart resolve) (init files) s) :
    (∀ i h, (s.pipeline.engine.table i).used = true → s.pipeline.engine.owner i = some h →
        (∃ appended, s.pipeline.files (resolve (logFileOf (s.pipeline.engine.table i).id)) =
            files (resolve (logFileOf (s.pipeline.engine.table i).id)) ++ appended ∧
          appended ++ s.unwritten i = (s.accepted h).flatMap LogEntry.bytes) ∧
        ∀ path entry, s.pipeline.consumer = .write path entry →
          resolve path = resolve (logFileOf (s.pipeline.engine.table i).id) →
            entry.containerIndex = (i : ℕ)) ∧
      (∀ entry, s.pipeline.consumer = .lookup entry →
        logPath s.pipeline.engine.table entry.containerIndex ≠ []) ∧
      s.pipeline.logs.popped = s.pipeline.appended ++
        (Pipeline.hand s.pipeline.consumer).toList ++ (s.pipeline.logs.view.taken ()).toList ∧
      ∀ e engine, s.pipeline.engine.step e = some engine →
        s.pipeline.engine.RequestTerminated e →
          (engine.LogFilesApart resolve ↔ s.pipeline.engine.OwnLogFile resolve e) := by
  have hp := pipeline_run hr
  have hre := Pipeline.engine_run hp
  have hapart := Pipeline.engine_run_apart hp
  have hl := Pipeline.logs_run hp
  have d := Pipeline.Routed.of_run hp
  have hnamed : Engine.Named s.pipeline.engine := .of_run (hapart.mono fun _ _ h => h.1)
  have hhand {entry : LogEntry} (hc : Pipeline.hand s.pipeline.consumer = some entry) :
      entry ∈ s.pipeline.logs.pushed :=
    d.consumed.mem_pushed hl (by simp [hc])
  refine ⟨fun i h hu ho => ⟨⟨_, files_eq hr hu, ?_⟩, fun path entry hc hfile => ?_⟩,
    fun entry hc => ?_, d.consumed.popped, fun e engine he hterm => ⟨fun x => ?_, fun hown => ?_⟩⟩
  · rw [(Accepted.of_run hr).of_owner d.tagged (.of_run hre) ho, ← hl.queue.content,
      d.consumed.popped]
    simp only [unwritten, Pipeline.chunks_append, List.append_assoc]
  · refine (resolve_logPath_iff hr hu (hhand (by rw [hc]; rfl))).mp ?_
    rw [← d.stored.path path entry hc, hfile]
  · exact d.tagged.logPath_ne_nil hre (hhand (by rw [hc]; rfl))
  · exact x.ownLogFile hnamed he
  · exact (Engine.LogFilesApart.of_run hapart).step hnamed (Engine.step_effect he) hown

/-- The file that a path leads to from the directory `cwd`, when `..` and links are taken as
names. -/
def fileAt (cwd : List CStr) (path : CStr) : List CStr :=
  PathName.resolve 47 46 cwd path

/-- Two containers that write one byte each; the first byte is in its file, the second in the
ring. -/
theorem log_chunks_routed_two : ∃ s : Traced (List CStr),
    s.pipeline.files (fileAt [] (logFileOf (cstr "a"))) = [104] ∧ s.unwritten 1 = [105] ∧
      s.pipeline.files (fileAt [] (logFileOf (cstr "b"))) ++ s.unwritten 1 =
        (s.accepted 1).flatMap LogEntry.bytes := by
  obtain ⟨s, hr, hu, ho, hid, ha, hb⟩ := Transition.exists_run_of_exec (step (fileAt []))
    (StartsApart (fileAt [])) (init fun _ => [])
    ((Engine.playClone 0 REQ_START "a" 7 ++ Engine.playPublish 0 ++
        Engine.playClone 1 REQ_START "b" 8 ++ Engine.playPublish 1).map .engine ++
      [.read 0 [104], .logs (.pushEnter 0 none), .pushReturn 0, .read 1 [105],
        .logs (.pushEnter 1 none), .pushReturn 1, .popCall, .logs (.popEnter () none), .popReturn,
        .lookup, .append])
    (fun s => (s.pipeline.engine.table 1).used = true ∧ s.pipeline.engine.owner 1 = some 1 ∧
      (s.pipeline.engine.table 1).id = cstr "b" ∧
      s.pipeline.files (fileAt [] (logFileOf (cstr "a"))) = [104] ∧ s.unwritten 1 = [105])
    (by decide)
  obtain ⟨appended, hfile, heq⟩ := ((log_chunks_routed hr).1 1 1 hu ho).1
  refine ⟨s, ha, hb, ?_⟩
  rwa [← hid, hfile, List.nil_append]

/-- The ids `a` and `./a` have one log file, from every directory. -/
theorem fileAt_dot (cwd : List CStr) :
    fileAt cwd (logFileOf (cstr "./a")) = fileAt cwd (logFileOf (cstr "a")) :=
  PathName.resolve_dot (p := cstr "logs") (q := cstr "a.log") (by decide)

/-- Containers `a` and `./a` run, whose log files are one file from every directory, and only the
second one writes. Its byte is in the log file of the first, whose producer has pushed nothing. -/
theorem log_files_shared : ∃ s : Traced (List CStr),
    Transition.Run (step (fileAt [])) (fun t e => t.pipeline.RequestTerminated e)
        (init fun _ => []) s ∧
      (s.pipeline.engine.table 0).used = true ∧ s.pipeline.engine.owner 0 = some 0 ∧
      (s.pipeline.engine.table 0).id = cstr "a" ∧
      (∀ cwd, fileAt cwd (s.pipeline.engine.table 1).logFile =
        fileAt cwd (logFileOf (cstr "a"))) ∧
      s.pipeline.files (fileAt [] (logFileOf (cstr "a"))) = [105] ∧ s.accepted 0 = [] ∧
      ¬∃ appended, s.pipeline.files (fileAt [] (logFileOf (cstr "a"))) = [] ++ appended ∧
        appended ++ s.unwritten 0 = (s.accepted 0).flatMap LogEntry.bytes := by
  obtain ⟨s, hr, hu, ho, hid, hlog, hfile, hacc⟩ := Transition.exists_run_of_exec
    (step (fileAt [])) (fun t e => t.pipeline.RequestTerminated e) (init fun _ => [])
    ((Engine.playClone 0 REQ_START "a" 7 ++ Engine.playPublish 0 ++
        Engine.playClone 1 REQ_START "./a" 8 ++ Engine.playPublish 1).map .engine ++
      [.read 1 [105], .logs (.pushEnter 1 none), .pushReturn 1, .popCall,
        .logs (.popEnter () none), .popReturn, .lookup, .append])
    (fun s => (s.pipeline.engine.table 0).used = true ∧ s.pipeline.engine.owner 0 = some 0 ∧
      (s.pipeline.engine.table 0).id = cstr "a" ∧
      (s.pipeline.engine.table 1).logFile = logFileOf (cstr "./a") ∧
      s.pipeline.files (fileAt [] (logFileOf (cstr "a"))) = [105] ∧ s.accepted 0 = []) (by decide)
  refine ⟨s, hr, hu, ho, hid, fun cwd => hlog ▸ fileAt_dot cwd, hfile, hacc, ?_⟩
  rintro ⟨appended, happ, heq⟩
  have hnil : appended = [] := by
    rw [hacc, List.flatMap_nil, List.append_eq_nil_iff] at heq
    exact heq.1
  simp [hfile, hnil] at happ

end Traced

end Jackfruit
