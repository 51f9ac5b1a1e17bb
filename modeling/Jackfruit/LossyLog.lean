import Jackfruit.CutTexts
import Jackfruit.LogRouting

/-!
# Log files that cannot be written

`log_consumer_main` gives up an entry whose file it cannot open, and does not look at what `write`
returns : a full disk or a signal may cut an entry short, and nothing writes the rest. No other
thread learns of it, so the pipeline goes on as if every write had succeeded, and only the files are
not the same. A container that was cloned while the consumer had a log file open has inherited its
descriptor, so its programs may change this file too.

A log file that nobody else has changed has bytes of its own container only, each at most once and
in order. They are, with those that the writes to this file have lost and those that are still on
their way, as many as the producer has pushed (`log_files_lossy`).
-/

set_option linter.unusedSectionVars false

open CutTexts

namespace Jackfruit

/-- What becomes of an entry in `log_consumer_main`. -/
inductive WriteResult
  | openFails
  /-- `write` returns `-1`. -/
  | error
  /-- `write` returns `n`. -/
  | bytes (n : ℕ)
  deriving DecidableEq

/-- How many bytes are in the file. -/
def WriteResult.count : WriteResult → ℕ
  | .bytes n => n
  | _ => 0

/-- The pipeline with the files as they are, and every write with its count. The files of `traced`
are those that there would be if every write succeeded; no step reads them. -/
structure LossyLog (F : Type) where
  traced : Traced F
  files : F → List UInt8
  written : List (LogEntry × ℕ)
  /-- The files that somebody else has changed. No step reads it. -/
  changed : F → Bool

/-- What happens next. -/
inductive LossyEvent (F : Type)
  /-- Any step off the log files. -/
  | pipeline (e : PipelineEvent)
  | write (res : WriteResult)
  /-- Somebody else changes a file, such as a program that has inherited a descriptor of it. -/
  | change (f : F) (content : List UInt8)

namespace LossyLog

variable {F : Type} [DecidableEq F]

/-- `run_supervisor` at its accept loop. -/
def init (files : F → List UInt8) : LossyLog F :=
  ⟨Traced.init files, files, [], fun _ => false⟩

/-- `open`, `write` and `close` of the consumer. -/
def writeStep (resolve : CStr → F) (s : LossyLog F) (res : WriteResult) : Option (LossyLog F) :=
  match s.traced.pipeline.consumer with
  | .write path entry =>
    if res.count ≤ entry.bytes.length then
      (s.traced.step resolve .append).map fun traced => { s with
        traced := traced
        files := Function.update s.files (resolve path)
          (s.files (resolve path) ++ entry.bytes.take res.count)
        written := s.written ++ [(entry, res.count)] }
    else none
  | _ => none

/-- One step. The pipeline goes on as it does when every write succeeds, but for the files. -/
def step (resolve : CStr → F) (s : LossyLog F) : LossyEvent F → Option (LossyLog F)
  | .pipeline .append => none
  | .pipeline e => (s.traced.step resolve e).map fun traced => { s with traced := traced }
  | .write res => s.writeStep resolve res
  | .change f content => some { s with
      files := Function.update s.files f content
      changed := Function.update s.changed f true }

/-- The conditions on the starts. -/
def StartsApart (resolve : CStr → F) (s : LossyLog F) : LossyEvent F → Prop
  | .pipeline e => s.traced.StartsApart resolve e
  | _ => True

instance (resolve : CStr → F) (s : LossyLog F) (e : LossyEvent F) :
    Decidable (StartsApart resolve s e) := by
  cases e <;> dsimp only [StartsApart] <;> infer_instance

variable {resolve : CStr → F} {s s' : LossyLog F} {e : LossyEvent F} {files : F → List UInt8}
  {h : ℕ} {i : Slot}

/-- Everything that an event can do. -/
inductive Effect (resolve : CStr → F) (s : LossyLog F) : LossyEvent F → LossyLog F → Prop
  | pipeline (e : PipelineEvent) (traced : Traced F) : e ≠ .append →
      s.traced.step resolve e = some traced →
      Effect resolve s (.pipeline e) { s with traced := traced }
  | write (res : WriteResult) (path : CStr) (entry : LogEntry) (traced : Traced F) :
      s.traced.pipeline.consumer = .write path entry →
      s.traced.step resolve .append = some traced →
      Effect resolve s (.write res) { s with
        traced := traced
        files := Function.update s.files (resolve path)
          (s.files (resolve path) ++ entry.bytes.take res.count)
        written := s.written ++ [(entry, res.count)] }
  | change (f : F) (content : List UInt8) : Effect resolve s (.change f content) { s with
      files := Function.update s.files f content
      changed := Function.update s.changed f true }

theorem step_effect (hs : step resolve s e = some s') : Effect resolve s e s' := by
  cases e with
  | pipeline e =>
    by_cases he : e = .append
    · subst he
      cases hs
    · have hs' : (s.traced.step resolve e).map (fun traced => { s with traced := traced }) =
          some s' := by
        cases e <;> first | exact hs | exact absurd rfl he
      obtain ⟨traced, ht, rfl⟩ := Option.map_eq_some_iff.mp hs'
      exact .pipeline e traced he ht
  | write res =>
    change s.writeStep resolve res = some s' at hs
    unfold writeStep at hs
    split at hs
    · rename_i path entry hc
      obtain ⟨-, hs⟩ := Option.ite_none_right_eq_some.mp hs
      obtain ⟨traced, ht, rfl⟩ := Option.map_eq_some_iff.mp hs
      exact .write res path entry traced hc ht
    · cases hs
  | change f content =>
    cases hs
    exact .change f content

/-- The pipeline does not see what becomes of the files. -/
theorem traced_run (hr : Transition.Run (step resolve) (StartsApart resolve) (init files) s) :
    Transition.Run (Traced.step resolve) (Traced.StartsApart resolve) (Traced.init files)
      s.traced := by
  refine hr.map LossyLog.traced fun t e u _ hc hs => ?_
  cases step_effect hs with
  | pipeline e traced _ ht => exact .inr ⟨e, hc, ht⟩
  | write res path entry traced _ ht => exact .inr ⟨.append, trivial, ht⟩
  | change => exact .inl rfl

/-! ## The files -/

/-- The entries of the slot `i` that were written, each with its count. -/
def pieces (s : LossyLog F) (i : Slot) : List (List UInt8 × ℕ) :=
  (s.written.filter fun p => p.1.containerIndex = ((i : ℕ) : ℤ)).map fun p => (p.1.bytes, p.2)

/-- Every entry was written once, to the file that its slot leads to. -/
structure Written (resolve : CStr → F) (files : F → List UInt8) (s : LossyLog F) : Prop where
  entries : s.written.map Prod.fst = s.traced.pipeline.appended
  content : ∀ f, s.changed f = false → s.files f = files f ++ (s.written.filter fun p =>
    resolve (logPath s.traced.pipeline.engine.table p.1.containerIndex) = f).flatMap fun p =>
      p.1.bytes.take p.2

/-- The step of the consumer that writes. -/
theorem append_step {p p' : Pipeline F} {path : CStr} {entry : LogEntry}
    (hc : p.consumer = .write path entry)
    (hs : p.step resolve .append = some p') :
    p'.appended = p.appended ++ [entry] ∧ p'.engine = p.engine := by
  unfold Pipeline.step at hs
  replace hs := (ite_eq_iff.mp hs).resolve_left (by simp) |>.2
  simp only [Pipeline.next, hc] at hs
  cases hs
  exact ⟨rfl, rfl⟩

/-- The other steps write nothing. -/
theorem appended_step {p p' : Pipeline F} {e : PipelineEvent} (he : e ≠ .append)
    (hs : p.step resolve e = some p') :
    p'.appended = p.appended ∧
      (p'.engine = p.engine ∨ ∃ e, p.engine.step e = some p'.engine) := by
  cases Pipeline.step_effect hs with
  | engine e engine hstep => exact ⟨rfl, .inr ⟨e, hstep⟩⟩
  | append => exact absurd rfl he
  | _ => exact ⟨rfl, .inl rfl⟩

theorem Written.step (w : Written resolve files s)
    (hr : Transition.Run (LossyLog.step resolve) (StartsApart resolve) (init files) s)
    (hs : LossyLog.step resolve s e = some s') : Written resolve files s' := by
  have hp := Traced.pipeline_run (traced_run hr)
  have d := Pipeline.Routed.of_run hp
  cases step_effect hs with
  | pipeline e traced he ht =>
    obtain ⟨happ, heng⟩ := appended_step he (Traced.step_pipeline ht).1
    refine ⟨w.entries.trans happ.symm, fun f hf => (w.content f hf).trans ?_⟩
    congr 2
    refine List.filter_congr fun p hmem => ?_
    rcases heng with heng | ⟨e, hstep⟩
    · rw [heng]
    · have hold : p.1 ∈ s.traced.pipeline.appended := by
        rw [← w.entries]
        exact List.mem_map_of_mem hmem
      rw [d.tagged.logPath_kept (Pipeline.engine_run hp) hstep
        (d.consumed.mem_pushed (Pipeline.logs_run hp) (List.mem_append_left _ hold))]
  | write res path entry traced hc ht =>
    obtain ⟨happ, heng⟩ := append_step hc (Traced.step_pipeline ht).1
    refine ⟨by rw [List.map_append, w.entries, happ]; rfl, fun f hchanged => ?_⟩
    have hpath := d.stored.path path entry hc
    have hold := w.content f hchanged
    rw [heng, List.filter_append, List.flatMap_append]
    rcases eq_or_ne f (resolve path) with rfl | hf
    · simp [hold, ← hpath]
    · simp [hold, ← hpath, hf, hf.symm]
  | change f content =>
    refine ⟨w.entries, fun g hg => ?_⟩
    have hne : g ≠ f := by
      rintro rfl
      simp at hg
    simp only [Function.update_of_ne hne] at hg ⊢
    exact w.content g hg

theorem Written.of_run
    (hr : Transition.Run (LossyLog.step resolve) (StartsApart resolve) (init files) s) :
    Written resolve files s :=
  hr.invariant_of_reached ⟨rfl, fun f _ => by simp [init]⟩ fun _ _ _ ht w _ hs => w.step ht hs

/-- The file of a used slot has the pieces of its slot, if nobody else has changed it. -/
theorem files_eq (hr : Transition.Run (step resolve) (StartsApart resolve) (init files) s)
    (hu : (s.traced.pipeline.engine.table i).used = true)
    (hf : s.changed (resolve (logFileOf (s.traced.pipeline.engine.table i).id)) = false) :
    s.files (resolve (logFileOf (s.traced.pipeline.engine.table i).id)) =
      files (resolve (logFileOf (s.traced.pipeline.engine.table i).id)) ++ kept (s.pieces i) := by
  have ht := traced_run hr
  have hp := Traced.pipeline_run ht
  have w := Written.of_run hr
  rw [w.content _ hf, kept, pieces, List.flatMap_map]
  congr 2
  refine List.filter_congr fun p hmem => decide_eq_decide.mpr (Traced.resolve_logPath_iff ht hu ?_)
  refine (Pipeline.Routed.of_run hp).consumed.mem_pushed (Pipeline.logs_run hp)
    (List.mem_append_left _ ?_)
  rw [← w.entries]
  exact List.mem_map_of_mem hmem

/-- The entries that were written for a slot and those on their way are what its producer has
pushed. -/
theorem whole_pieces (hr : Transition.Run (step resolve) (StartsApart resolve) (init files) s)
    (ho : s.traced.pipeline.engine.owner i = some h) :
    whole (s.pieces i) ++ s.traced.unwritten i =
      (s.traced.accepted h).flatMap LogEntry.bytes := by
  have ht := traced_run hr
  have hp := Traced.pipeline_run ht
  have hl := Pipeline.logs_run hp
  have d := Pipeline.Routed.of_run hp
  have hwhole : whole (s.pieces i) = Pipeline.chunks i s.traced.pipeline.appended := by
    rw [← (Written.of_run hr).entries, Pipeline.chunks, List.filter_map, List.flatMap_map, whole,
      pieces, List.flatMap_map]
    rfl
  rw [hwhole, (Traced.Accepted.of_run ht).of_owner d.tagged (.of_run (Pipeline.engine_run hp)) ho,
    ← hl.queue.content, d.consumed.popped]
  simp only [Traced.unwritten, Pipeline.chunks_append, List.append_assoc]

/-- A consumer that has finished has left nothing on its way. -/
theorem unwritten_of_finished
    (hr : Transition.Run (step resolve) (StartsApart resolve) (init files) s)
    (hfin : s.traced.pipeline.consumer = .finished) : s.traced.unwritten i = [] := by
  have hp := Traced.pipeline_run (traced_run hr)
  have hl := Pipeline.logs_run hp
  have d := Pipeline.Routed.of_run hp
  obtain ⟨-, hpopped⟩ := Pipeline.consumer_finished hp hfin
  have hring : s.traced.pipeline.logs.buf.contents LOG_BUFFER_CAPACITY = [] := by
    have hcontent := hl.queue.content
    rwa [hpopped, List.append_right_eq_self] at hcontent
  have htaken : s.traced.pipeline.logs.view.taken () = none := by
    simp [LogSystem.view, d.consumed.idle (by simp [hfin]), LogSystem.takenOf]
  rw [Traced.unwritten, hring, hfin, htaken]
  rfl

/-- If no start gets past its checks with the log file of a container in the table, then in every
reachable state, whatever files cannot be opened and whatever writes fail or are cut short, for
every used slot whose file nobody else has changed : what is in `logs/X.log` for its id `X`, behind
what was there before, are bytes that the producer of `X` has pushed, each at most once and in
order; with the bytes that the writes of its own entries have lost and those in the ring or in the
hands of the consumer they are as many as it has pushed; if its own writes have lost none, they are
exactly these, whatever the writes to other files have lost. When the consumer has finished, nothing
is on its way any more. -/
theorem log_files_lossy
    (hr : Transition.Run (step resolve) (StartsApart resolve) (init files) s)
    (hu : (s.traced.pipeline.engine.table i).used = true)
    (ho : s.traced.pipeline.engine.owner i = some h)
    (hf : s.changed (resolve (logFileOf (s.traced.pipeline.engine.table i).id)) = false) :
    ∃ content, s.files (resolve (logFileOf (s.traced.pipeline.engine.table i).id)) =
        files (resolve (logFileOf (s.traced.pipeline.engine.table i).id)) ++ content ∧
      (content ++ s.traced.unwritten i).Sublist
        ((s.traced.accepted h).flatMap LogEntry.bytes) ∧
      content.length + lost (s.pieces i) + (s.traced.unwritten i).length =
        ((s.traced.accepted h).flatMap LogEntry.bytes).length ∧
      (lost (s.pieces i) = 0 →
        content ++ s.traced.unwritten i = (s.traced.accepted h).flatMap LogEntry.bytes) ∧
      (s.traced.pipeline.consumer = .finished → s.traced.unwritten i = []) := by
  have hwhole := whole_pieces hr ho
  refine ⟨kept (s.pieces i), files_eq hr hu hf, ?_, ?_, fun hlost => ?_, unwritten_of_finished hr⟩
  · rw [← hwhole]
    exact (kept_sublist _).append_right _
  · rw [← hwhole, length_kept, List.length_append]
  · rw [← hwhole, kept_eq_whole hlost]

/-- Two containers that write two bytes each. The write of the first is cut short, the second's file
is whole. A program has changed a third file. -/
theorem log_files_lossy_two : ∃ s : LossyLog (List CStr),
    s.files (Traced.fileAt [] (logFileOf (cstr "a"))) = [104] ∧ lost (s.pieces 0) = 1 ∧
      s.files (Traced.fileAt [] (logFileOf (cstr "b"))) ++ s.traced.unwritten 1 =
        (s.traced.accepted 1).flatMap LogEntry.bytes := by
  let started : List PipelineEvent :=
    (Engine.playClone 0 REQ_START "a" 7 ++ Engine.playPublish 0 ++
      Engine.playClone 1 REQ_START "b" 8 ++ Engine.playPublish 1).map .engine
  let pushed : List PipelineEvent := [.read 0 [104, 105], .logs (.pushEnter 0 none), .pushReturn 0,
    .read 1 [106, 107], .logs (.pushEnter 1 none), .pushReturn 1]
  let popped : List PipelineEvent := [.popCall, .logs (.popEnter () none), .popReturn, .lookup]
  obtain ⟨s, hr, hu, ho, hid, hchanged, ha, hlost, hb⟩ := Transition.exists_run_of_exec
    (step (Traced.fileAt [])) (StartsApart (Traced.fileAt [])) (init fun _ => [])
    ((started ++ pushed ++ popped).map .pipeline ++ [.write (.bytes 1)] ++
      popped.map .pipeline ++ [.write (.bytes 2), .change [cstr "c"] [108]])
    (fun s => (s.traced.pipeline.engine.table 1).used = true ∧
      s.traced.pipeline.engine.owner 1 = some 1 ∧
      (s.traced.pipeline.engine.table 1).id = cstr "b" ∧
      s.changed (Traced.fileAt [] (logFileOf (cstr "b"))) = false ∧
      s.files (Traced.fileAt [] (logFileOf (cstr "a"))) = [104] ∧
      lost (s.pieces 0) = 1 ∧ lost (s.pieces 1) = 0)
    (by decide)
  obtain ⟨content, hfile, -, -, hwhole, -⟩ := log_files_lossy hr hu ho (by rw [hid, hchanged])
  refine ⟨s, ha, hlost, ?_⟩
  rw [← hid, hfile, List.nil_append, hwhole hb]

end LossyLog

end Jackfruit
