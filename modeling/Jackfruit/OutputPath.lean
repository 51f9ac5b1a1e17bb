import Jackfruit.LogPipe
import Jackfruit.LogReads
import Jackfruit.LossyLog

/-!
# From a container's descriptors to its log file

`Output` puts the processes with their descriptors (`Processes`) and the pipeline with its failing
writes (`LossyLog`) together : they share the supervisor, and between them are the pipes. A process
of a container writes to any descriptor that leads to the write end of a pipe, and the producer
reads what is in the pipe. A container inherits read ends too, its own among them, and a program
that reads from one takes bytes away from the producer. A program that holds either end of a pipe
may open the other one through `/proc/self/fd`, and it may pass an end on over a socket, to any
program, which may pass it on again.

What a log file has gained and what is on its way to it has been written to the container's pipe, in
this order, and the bytes that are missing are told apart : lost by a failing write, refused by the
log buffer after its shutdown, or taken by a container (`output_reaches_log`).
-/

set_option linter.unusedSectionVars false

open CutTexts

namespace Jackfruit

/-! ## The whole path -/

/-- The start whose pipe is read through this file. -/
def File.reader : File → Option ℕ
  | .pipeRead h => some h
  | _ => none

/-- The start one end of whose pipe this is. -/
def File.pipe : File → Option ℕ
  | .pipeRead h | .pipeWrite h => some h
  | _ => none

/-- How a program gets at a pipe. -/
inductive Access
  /-- The process `k` of a container by its descriptor `n`. -/
  | fd (k n : ℕ)
  /-- The process `k` by an end of the pipe of `h` that its container has opened anew. -/
  | reopened (k h : ℕ)
  /-- Any program by an end of the pipe of `h` that was passed on. -/
  | passed (h : ℕ)
  deriving DecidableEq

/-- Bytes that a program has written to a pipe. -/
structure Writing where
  /-- The start of the container, for a program in one. -/
  writer : ℕ
  access : Access
  bytes : List UInt8

/-- The processes and the pipeline of one supervisor, with the pipes between them. -/
structure Output (F : Type) where
  procs : Processes
  lossy : LossyLog F
  /-- What is in the pipe of each start. -/
  pipe : ℕ → List UInt8
  /-- The pipes of which a container has opened an end anew. -/
  reopened : ℕ → List ℕ
  /-- Who has passed an end of each pipe on, in order. -/
  passed : ℕ → List ℕ
  /-- What has been written to the pipe. No step reads it. -/
  wrote : ℕ → List Writing
  /-- The containers that were cloned while the supervisor had an end of the pipe open. No step
  reads it. -/
  heirs : ℕ → List ℕ
  /-- How many bytes of each producer the log buffer has refused. No step reads it. -/
  refused : ℕ → ℕ
  /-- How many bytes the containers have read from the pipe. No step reads it. -/
  taken : ℕ → ℕ

/-- What happens next. -/
inductive OutputEvent (F : Type)
  /-- A step of the supervisor's threads off the log files and the descriptors. -/
  | engine (e : Event)
  | process (e : ProcessEvent)
  | log (e : LossyEvent F)
  /-- The process `k` of the container of `g` opens the pipe behind its descriptor `n` anew. -/
  | reopen (g k n : ℕ)
  /-- A program, in the container of `g` if it is in one, passes an end of a pipe on. -/
  | pass (g : ℕ) (access : Access)
  /-- Such a program writes to a pipe. -/
  | write (g : ℕ) (access : Access) (bytes : List UInt8)
  /-- It reads `m` bytes at most. -/
  | take (g : ℕ) (access : Access) (m : ℕ)
  /-- The producer of `h` reads. -/
  | read (h : ℕ) (chunk : List UInt8)

/-- The steps that the processes and the pipeline take together, or on a pipe. -/
def LossyEvent.isJoint {F : Type} : LossyEvent F → Bool
  | .pipeline (.engine _) | .pipeline (.read _ _) => true
  | _ => false

namespace Output

variable {F : Type} [DecidableEq F]

/-- `run_supervisor` at its accept loop. -/
def init (files : F → List UInt8) : Output F where
  procs := Processes.init
  lossy := LossyLog.init files
  pipe _ := []
  reopened _ := []
  passed _ := []
  wrote _ := []
  heirs _ := []
  refused _ := 0
  taken _ := 0

variable (resolve : CStr → F) (s : Output F)

/-- The file behind a descriptor of a process in a container. -/
def fileOf (g k n : ℕ) : Option File :=
  (s.procs.proc g k).bind fun p => p.fds.file n

/-- The pipe that a program gets at, in the container of `g` through the ends that `pick` says or
through an end opened anew, and anywhere through an end that was passed on. -/
def via (g : ℕ) (pick : File → Option ℕ) : Access → Option ℕ
  | .fd k n => (s.fileOf g k n).bind pick
  | .reopened k h => if (s.procs.proc g k).isSome ∧ h ∈ s.reopened g then some h else none
  | .passed h => if s.passed h = [] then none else some h

/-- A new container inherits the ends that the supervisor has open. -/
def heirsAfter : Event → ℕ → List ℕ
  | .clone g (.ok _), h =>
    if s.procs.fds.Holds (.pipeRead h) ∨ s.procs.fds.Holds (.pipeWrite h) then g :: s.heirs h
    else s.heirs h
  | _, h => s.heirs h

/-- A producer closes its read end when it has left its loop. -/
def ProducerDone : ProcessEvent → Prop
  | .producerClose h => s.lossy.traced.pipeline.finished h = true
  | _ => True

instance (e : ProcessEvent) : Decidable (s.ProducerDone e) := by
  cases e <;> dsimp only [ProducerDone] <;> infer_instance

/-- How many bytes of each producer this step of the pipeline refuses. -/
def refusedAfter (lossy : LossyLog F) : LossyEvent F → ℕ → ℕ
  | .pipeline e, h => s.refused h + (Traced.refusedBytes s.lossy.traced lossy.traced h e).length
  | _, h => s.refused h

/-- One step. A write to a pipe that nobody reads any more fails; here it may as well succeed. -/
def step : OutputEvent F → Option (Output F)
  | .engine e =>
    (s.procs.step (.engine e)).bind fun procs =>
      (s.lossy.step resolve (.pipeline (.engine e))).map fun lossy =>
        { s with procs := procs, lossy := lossy, heirs := s.heirsAfter e }
  | .process (.engine _) => none
  | .process e =>
    if s.ProducerDone e then (s.procs.step e).map fun procs => { s with procs := procs } else none
  | .log e =>
    if e.isJoint then none
    else (s.lossy.step resolve e).map fun lossy =>
      { s with lossy := lossy, refused := s.refusedAfter lossy e }
  | .reopen g k n =>
    match (s.fileOf g k n).bind File.pipe with
    | some h => some { s with reopened := Function.update s.reopened g (h :: s.reopened g) }
    | none => none
  | .pass g access =>
    match s.via g File.pipe access with
    | some h => some { s with passed := Function.update s.passed h (s.passed h ++ [g]) }
    | none => none
  | .write g access bytes =>
    match s.via g File.writer access with
    | some h => some { s with
        pipe := Function.update s.pipe h (s.pipe h ++ bytes)
        wrote := Function.update s.wrote h (s.wrote h ++ [⟨g, access, bytes⟩]) }
    | none => none
  | .take g access m =>
    match s.via g File.reader access with
    | some h => some { s with
        pipe := Function.update s.pipe h ((s.pipe h).drop m)
        taken := Function.update s.taken h (s.taken h + ((s.pipe h).take m).length) }
    | none => none
  | .read h chunk =>
    if chunk = (s.pipe h).take chunk.length then
      (s.lossy.step resolve (.pipeline (.read h chunk))).map fun lossy =>
        { s with lossy := lossy, pipe := Function.update s.pipe h ((s.pipe h).drop chunk.length) }
    else none

/-- The conditions on the starts. -/
def StartsApart : OutputEvent F → Prop
  | .engine e => s.procs.engine.StartsApart resolve e
  | _ => True

/-- When a start clones its child, no other start has its write end open. -/
def ClonesAlone : OutputEvent F → Prop
  | .engine e => s.procs.ClonesAlone (.engine e)
  | _ => True

instance (e : OutputEvent F) : Decidable (s.StartsApart resolve e) := by
  cases e <;> dsimp only [StartsApart] <;> infer_instance

instance (e : OutputEvent F) : Decidable (s.ClonesAlone e) := by
  cases e <;> dsimp only [ClonesAlone] <;> infer_instance

variable {resolve s} {s' : Output F} {e : OutputEvent F} {files : F → List UInt8}
  {g h k n : ℕ} {i : Slot}

/-- Everything that an event can do. -/
inductive Effect (resolve : CStr → F) (s : Output F) : OutputEvent F → Output F → Prop
  | engine (e : Event) (procs : Processes) (lossy : LossyLog F) :
      s.procs.step (.engine e) = some procs →
      s.lossy.step resolve (.pipeline (.engine e)) = some lossy →
      Effect resolve s (.engine e)
        { s with procs := procs, lossy := lossy, heirs := s.heirsAfter e }
  | process (e : ProcessEvent) (procs : Processes) : (∀ e', e ≠ .engine e') →
      s.procs.step e = some procs → Effect resolve s (.process e) { s with procs := procs }
  | log (e : LossyEvent F) (lossy : LossyLog F) : e.isJoint = false →
      s.lossy.step resolve e = some lossy →
      Effect resolve s (.log e) { s with lossy := lossy, refused := s.refusedAfter lossy e }
  | reopen (g k n h : ℕ) : (s.fileOf g k n).bind File.pipe = some h →
      Effect resolve s (.reopen g k n)
        { s with reopened := Function.update s.reopened g (h :: s.reopened g) }
  | pass (g h : ℕ) (access : Access) : s.via g File.pipe access = some h →
      Effect resolve s (.pass g access)
        { s with passed := Function.update s.passed h (s.passed h ++ [g]) }
  | write (g h : ℕ) (access : Access) (bytes : List UInt8) :
      s.via g File.writer access = some h →
      Effect resolve s (.write g access bytes) { s with
        pipe := Function.update s.pipe h (s.pipe h ++ bytes)
        wrote := Function.update s.wrote h (s.wrote h ++ [⟨g, access, bytes⟩]) }
  | take (g h : ℕ) (access : Access) (m : ℕ) : Effect resolve s (.take g access m) { s with
        pipe := Function.update s.pipe h ((s.pipe h).drop m)
        taken := Function.update s.taken h (s.taken h + ((s.pipe h).take m).length) }
  | read (h : ℕ) (chunk : List UInt8) (lossy : LossyLog F) :
      chunk = (s.pipe h).take chunk.length →
      s.lossy.step resolve (.pipeline (.read h chunk)) = some lossy →
      Effect resolve s (.read h chunk) { s with
        lossy := lossy
        pipe := Function.update s.pipe h ((s.pipe h).drop chunk.length) }

theorem step_effect (hs : s.step resolve e = some s') : Effect resolve s e s' := by
  cases e with
  | engine e =>
    obtain ⟨procs, hp, hs⟩ := Option.bind_eq_some_iff.mp hs
    obtain ⟨lossy, hl, rfl⟩ := Option.map_eq_some_iff.mp hs
    exact .engine e procs lossy hp hl
  | process e =>
    by_cases he : ∃ e', e = .engine e'
    · obtain ⟨e', rfl⟩ := he
      cases hs
    · have hs' : (if s.ProducerDone e then
          (s.procs.step e).map fun procs => { s with procs := procs } else none) = some s' := by
        cases e <;> first | exact hs | exact absurd ⟨_, rfl⟩ he
      obtain ⟨-, hs'⟩ := Option.ite_none_right_eq_some.mp hs'
      obtain ⟨procs, hp, rfl⟩ := Option.map_eq_some_iff.mp hs'
      exact .process e procs (fun e' heq => he ⟨e', heq⟩) hp
  | log e =>
    simp only [step] at hs
    split_ifs at hs with he
    obtain ⟨lossy, hl, rfl⟩ := Option.map_eq_some_iff.mp hs
    exact .log e lossy (Bool.eq_false_iff.mpr he) hl
  | reopen g k n =>
    simp only [step] at hs
    split at hs
    · rename_i h hf
      cases hs
      exact .reopen g k n h hf
    · cases hs
  | pass g access =>
    simp only [step] at hs
    split at hs
    · rename_i h hf
      cases hs
      exact .pass g h access hf
    · cases hs
  | write g access bytes =>
    simp only [step] at hs
    split at hs
    · rename_i h hf
      cases hs
      exact .write g h access bytes hf
    · cases hs
  | take g access m =>
    simp only [step] at hs
    split at hs
    · rename_i h hf
      cases hs
      exact .take g h access m
    · cases hs
  | read h chunk =>
    obtain ⟨hchunk, hs⟩ := Option.ite_none_right_eq_some.mp hs
    obtain ⟨lossy, hl, rfl⟩ := Option.map_eq_some_iff.mp hs
    exact .read h chunk lossy hchunk hl

/-! ## The parts run by their own rules -/

theorem procs_run {C : Output F → OutputEvent F → Prop} {D : Processes → ProcessEvent → Prop}
    (hengine : ∀ t e, C t (.engine e) → D t.procs (.engine e))
    (hprocess : ∀ t e, (∀ e', e ≠ .engine e') → D t e)
    (hr : Transition.Run (step resolve) C (init files) s) :
    Transition.Run Processes.step D Processes.init s.procs := by
  refine hr.map Output.procs fun t e u _ hc hs => ?_
  cases step_effect hs with
  | engine e procs lossy hp => exact .inr ⟨.engine e, hengine t e hc, hp⟩
  | process e procs he hp => exact .inr ⟨e, hprocess t.procs e he, hp⟩
  | _ => exact .inl rfl

/-- What the pipeline does in a step of `LossyLog`. -/
theorem pipeline_step {l l' : LossyLog F} {e : PipelineEvent}
    (hs : l.step resolve (.pipeline e) = some l') : l.traced.step resolve e = some l'.traced := by
  cases LossyLog.step_effect hs with
  | pipeline e traced _ ht => exact ht

/-- The two have the same engine. -/
theorem engines_agree {C : Output F → OutputEvent F → Prop}
    (hr : Transition.Run (step resolve) C (init files) s) :
    s.procs.engine = s.lossy.traced.pipeline.engine := by
  refine hr.invariant_of_reached
    (I := fun t => t.procs.engine = t.lossy.traced.pipeline.engine) rfl fun t e u ht ih _ hs => ?_
  cases step_effect hs with
  | engine e procs lossy hp hl =>
    have hp' := (Processes.step_engine hp).engine
    have hl' := (Pipeline.engine_step (Traced.step_pipeline (pipeline_step hl)).1).1
    rw [ih] at hp'
    exact Option.some.inj (hp'.symm.trans hl')
  | process e procs he hp =>
    have a : Processes.Accounts t.procs := .of_run (C := Transition.Always)
      (procs_run (fun _ _ _ => trivial) (fun _ _ _ => trivial) ht)
    rcases a.step_engine hp with heq | ⟨e', heq, -⟩
    · exact heq.trans ih
    · exact absurd heq (he e')
  | log e lossy he hl =>
    refine ih.trans ?_
    cases LossyLog.step_effect hl with
    | pipeline e traced _ htr =>
      refine (Pipeline.engine_kept (Traced.step_pipeline htr).1 ?_).symm
      rintro e' rfl
      cases he
    | write res path entry traced hc htr =>
      exact (LossyLog.append_step hc (Traced.step_pipeline htr).1).2.symm
    | change => rfl
  | read h chunk lossy _ hl =>
    exact ih.trans (Pipeline.engine_kept (Traced.step_pipeline (pipeline_step hl)).1 (by simp)).symm
  | _ => exact ih

theorem lossy_run (hr : Transition.Run (step resolve) (StartsApart resolve) (init files) s) :
    Transition.Run (LossyLog.step resolve) (LossyLog.StartsApart resolve) (LossyLog.init files)
      s.lossy := by
  refine hr.map Output.lossy fun t e u ht hc hs => ?_
  cases step_effect hs with
  | engine e procs lossy _ hl =>
    change t.procs.engine.StartsApart resolve e at hc
    rw [engines_agree ht] at hc
    exact .inr ⟨.pipeline (.engine e), hc, hl⟩
  | log e lossy he hl =>
    refine .inr ⟨e, ?_, hl⟩
    rcases e with (_ | _ | _ | _ | _ | _ | _ | _ | _ | _ | _ | _) | _ | _ <;>
      first | exact trivial | cases he
  | read h chunk lossy _ hl => exact .inr ⟨.pipeline (.read h chunk), trivial, hl⟩
  | _ => exact .inl rfl

/-! ## What is on its way -/

/-- What has been written to the pipe of `h`. -/
def written (s : Output F) (h : ℕ) : List UInt8 :=
  (s.wrote h).flatMap Writing.bytes

/-- The producer `h` of a pipeline is idle when it has left its loop, and has no more than a
chunk in its hands. -/
structure Loops (p : Pipeline F) (h : ℕ) : Prop where
  idle : p.finished h = true → p.logs.pushPc h = .idle
  short : ∀ entry, LogSystem.pendingOf (p.logs.pushPc h) = some entry →
    entry.bytes.length ≤ LOG_CHUNK_SIZE

theorem Loops.step {p p' : Pipeline F} {e : PipelineEvent} (hl : Loops p h)
    (hs : p.step resolve e = some p') : Loops p' h := by
  have hturn := Pipeline.producer_turn hs h
  generalize hpc : p'.logs.pushPc h = pc at hturn
  generalize hfin : p'.finished h = fin at hturn
  refine ⟨fun h' => hpc.trans ?_, fun entry hentry => ?_⟩
  · rw [hfin] at h'
    cases hturn with
    | same => exact hl.idle h'
    | read => cases h'
    | enter w entry pc hentry =>
      rw [hl.idle h'] at hentry
      cases hentry
    | pushReturn | readEnd => rfl
  · rw [hpc] at hentry
    cases hturn with
    | same => exact hl.short entry hentry
    | read i chunk _ _ hlen =>
      cases hentry
      rwa [bytes_logEntry]
    | enter w entry' pc hentry' hcases =>
      rcases hcases with rfl | rfl | rfl <;> cases hentry
      exact hl.short _ hentry'
    | pushReturn | readEnd => cases hentry

/-- What is on its way has been written to the pipe, in this order; what is missing was taken by a
container or refused once, after the shutdown. -/
structure Carried (s : Output F) (h : ℕ) : Prop where
  sublist : (s.lossy.traced.heldBytes h ++ s.pipe h).Sublist (s.written h)
  length : (s.lossy.traced.heldBytes h).length + s.refused h + s.taken h + (s.pipe h).length =
    (s.written h).length
  loops : Loops s.lossy.traced.pipeline h
  once : s.refused h ≠ 0 → s.lossy.traced.pipeline.finished h = true ∨
    s.lossy.traced.pipeline.logs.pushPc h = .unlock (-1)
  chunk : s.refused h ≤ LOG_CHUNK_SIZE
  shut : s.lossy.traced.pipeline.logs.buf.shutdown = false → s.refused h = 0

/-- A step of the pipeline, with what it refuses of the producer. -/
theorem Carried.refuses (c : Carried s h) {e : PipelineEvent} {t : Traced F}
    (ht : s.lossy.traced.step resolve e = some t) {r : ℕ}
    (hr : r = s.refused h + (Traced.refusedBytes s.lossy.traced t h e).length) :
    Loops t.pipeline h ∧ (r ≠ 0 → t.pipeline.finished h = true ∨
        t.pipeline.logs.pushPc h = .unlock (-1)) ∧ r ≤ LOG_CHUNK_SIZE ∧
      (t.pipeline.logs.buf.shutdown = false → r = 0) := by
  obtain ⟨hp, -⟩ := Traced.step_pipeline ht
  refine ⟨c.loops.step hp, ?_⟩
  rcases Traced.refusedBytes_cases ht h with hnil | ⟨entry, hentry, hbytes, hpc, hd⟩
  · obtain rfl : r = s.refused h := by rw [hr, hnil, List.length_nil, Nat.add_zero]
    refine ⟨fun hne => ?_, c.chunk, fun hopen => c.shut (Pipeline.open_step hp hopen)⟩
    have hturn := Pipeline.producer_turn hp h
    generalize t.pipeline.logs.pushPc h = pc at hturn ⊢
    generalize t.pipeline.finished h = fin at hturn ⊢
    -- A producer of which an entry was refused is on its way out of its loop.
    have hout := c.once hne
    cases hturn with
    | same => exact hout
    | read i chunk hidle hfin =>
      rcases hout with hout | hout
      · exact absurd (hfin.symm.trans hout) (by simp)
      · exact absurd (hidle.symm.trans hout) (by simp)
    | enter w entry pc hentry =>
      rcases hout with hout | hout
      · exact .inl hout
      · rw [hout] at hentry
        cases hentry
    | pushReturn ret hret =>
      rcases hout with hout | hout
      · exact absurd ((c.loops.idle hout).symm.trans hret) (by simp)
      · obtain rfl : ret = -1 := by simpa using hret.symm.trans hout
        exact .inl rfl
    | readEnd => exact .inl rfl
  · have hzero : s.refused h = 0 := by
      by_contra hne
      rcases c.once hne with hout | hout
      · have hidle := c.loops.idle hout
        simp [LogSystem.view, hidle, LogSystem.pendingOf] at hentry
      · simp [LogSystem.view, hout, LogSystem.pendingOf] at hentry
    rw [hzero, hbytes, Nat.zero_add] at hr
    subst hr
    refine ⟨fun _ => .inr hpc, c.loops.short entry hentry, fun hopen => ?_⟩
    have hno := Pipeline.open_step hp hopen
    rw [hd] at hno
    cases hno

/-- A step of the pipeline in which the producer does not read. -/
theorem Carried.of_traced (c : Carried s h) {e : PipelineEvent} {t : Traced F}
    (ht : s.lossy.traced.step resolve e = some t) (hread : Traced.readBytes h e = [])
    {s' : Output F} (hs : s'.lossy.traced = t)
    (hr : s'.refused h = s.refused h + (Traced.refusedBytes s.lossy.traced t h e).length)
    (hpipe : s'.pipe h = s.pipe h) (hwrote : s'.wrote h = s.wrote h)
    (htaken : s'.taken h = s.taken h) : Carried s' h := by
  have hheld := Traced.heldBytes_step ht h
  rw [hread, List.append_nil] at hheld
  obtain ⟨hloops, honce, hchunk, hshut⟩ := c.refuses ht hr
  have hwritten : s'.written h = s.written h := congrArg (List.flatMap Writing.bytes) hwrote
  subst hs
  refine ⟨?_, ?_, hloops, honce, hchunk, hshut⟩
  · rw [hpipe, hwritten]
    refine List.Sublist.trans ?_ c.sublist
    rw [← hheld]
    exact (List.sublist_append_left _ _).append_right _
  · have hlen := c.length
    rw [← hheld, List.length_append] at hlen
    rw [hpipe, hwritten, htaken, hr]
    omega

/-- A step that leaves the pipeline and the pipe of `h` alone. -/
theorem Carried.frame (c : Carried s h) (hl : s'.lossy.traced = s.lossy.traced)
    (hr : s'.refused h = s.refused h) (hpipe : s'.pipe h = s.pipe h)
    (hwrote : s'.wrote h = s.wrote h) (htaken : s'.taken h = s.taken h) : Carried s' h := by
  have hwritten : s'.written h = s.written h := congrArg (List.flatMap Writing.bytes) hwrote
  refine ⟨?_, ?_, hl ▸ c.loops, fun hne => ?_, hr ▸ c.chunk, fun hopen => ?_⟩
  · rw [hl, hpipe, hwritten]
    exact c.sublist
  · rw [hl, hr, htaken, hpipe, hwritten]
    exact c.length
  · rw [hl]
    exact c.once (hr ▸ hne)
  · rw [hr]
    exact c.shut (hl ▸ hopen)

/-- What is written to the pipe comes after everything before it. -/
theorem Carried.write (c : Carried s h) (w : Writing) : Carried { s with
    pipe := Function.update s.pipe h (s.pipe h ++ w.bytes)
    wrote := Function.update s.wrote h (s.wrote h ++ [w]) } h := by
  refine ⟨?_, ?_, c.loops, c.once, c.chunk, c.shut⟩
  · simp only [written, Function.update_self, List.flatMap_append, List.flatMap_singleton,
      ← List.append_assoc]
    exact c.sublist.append_right w.bytes
  · have hlen := c.length
    simp only [written, Function.update_self, List.flatMap_append, List.flatMap_singleton,
      List.length_append] at hlen ⊢
    omega

/-- What a container takes is missing. -/
theorem Carried.take (c : Carried s h) (m : ℕ) : Carried { s with
    pipe := Function.update s.pipe h ((s.pipe h).drop m)
    taken := Function.update s.taken h (s.taken h + ((s.pipe h).take m).length) } h := by
  refine ⟨?_, ?_, c.loops, c.once, c.chunk, c.shut⟩
  · simp only [Function.update_self]
    exact ((List.drop_sublist m _).append_left _).trans c.sublist
  · have hlen := c.length
    have hpipe := congrArg List.length (List.take_append_drop m (s.pipe h))
    rw [List.length_append] at hpipe
    simp only [Function.update_self]
    change _ = (s.written h).length
    omega

/-- What the producer reads goes from the pipe to what it holds. -/
theorem Carried.read (c : Carried s h) {chunk : List UInt8} {lossy : LossyLog F}
    (hchunk : chunk = (s.pipe h).take chunk.length)
    (hl : s.lossy.step resolve (.pipeline (.read h chunk)) = some lossy) : Carried { s with
      lossy := lossy
      pipe := Function.update s.pipe h ((s.pipe h).drop chunk.length) } h := by
  have ht := pipeline_step hl
  have hheld := Traced.heldBytes_step ht h
  have hread : Traced.readBytes h (.read h chunk) = chunk := if_pos rfl
  have hrefused : Traced.refusedBytes s.lossy.traced lossy.traced h (.read h chunk) = [] := rfl
  have hpipe : chunk ++ (s.pipe h).drop chunk.length = s.pipe h := by
    nth_rewrite 1 [hchunk]
    exact List.take_append_drop _ _
  obtain ⟨hloops, honce, hc, hshut⟩ := c.refuses ht (r := s.refused h) (by simp [hrefused])
  rw [hread, hrefused, List.append_nil] at hheld
  refine ⟨?_, ?_, hloops, honce, hc, hshut⟩
  · simp only [Function.update_self]
    rw [hheld, List.append_assoc, hpipe]
    exact c.sublist
  · have hlen := c.length
    rw [← hpipe, List.length_append] at hlen
    simp only [Function.update_self]
    rw [hheld, List.length_append]
    change _ = (s.written h).length
    omega

theorem Carried.step (c : Carried s h) (hs : s.step resolve e = some s') : Carried s' h := by
  cases step_effect hs with
  | engine e procs lossy _ hl =>
    exact c.of_traced (pipeline_step hl) rfl rfl rfl rfl rfl rfl
  | process | reopen | pass => exact c.frame rfl rfl rfl rfl rfl
  | log e lossy he hl =>
    cases LossyLog.step_effect hl with
    | pipeline e traced _ ht =>
      refine c.of_traced ht ?_ rfl rfl rfl rfl rfl
      cases e <;> first | rfl | cases he
    | write res path entry traced _ ht =>
      exact c.of_traced ht rfl rfl rfl rfl rfl rfl
    | change => exact c.frame rfl rfl rfl rfl rfl
  | write g h' access bytes =>
    by_cases hh : h = h'
    · subst hh
      exact c.write ⟨g, access, bytes⟩
    · exact c.frame rfl rfl (Function.update_of_ne hh ..) (Function.update_of_ne hh ..) rfl
  | take g h' access m =>
    by_cases hh : h = h'
    · subst hh
      exact c.take m
    · exact c.frame rfl rfl (Function.update_of_ne hh ..) rfl (Function.update_of_ne hh ..)
  | read h' chunk lossy hchunk hl =>
    by_cases hh : h = h'
    · subst hh
      exact c.read hchunk hl
    · have hne : h' ≠ h := fun heq => hh heq.symm
      exact c.of_traced (pipeline_step hl) (if_neg hne) rfl rfl (Function.update_of_ne hh ..) rfl
        rfl

theorem Carried.of_run {C : Output F → OutputEvent F → Prop}
    (hr : Transition.Run (Output.step resolve) C (init files) s) (h : ℕ) : Carried s h :=
  hr.invariant (I := fun t => Carried t h)
    ⟨List.Sublist.refl _, rfl, ⟨fun _ => rfl, fun _ hp => by cases hp⟩, fun hne => absurd rfl hne,
      Nat.zero_le _, fun _ => rfl⟩ fun _ _ _ c _ hs => c.step hs

/-! ## Who writes -/

theorem eq_of_writer {f : File} (hf : f.writer = some h) : f = .pipeWrite h := by
  cases f <;> cases hf
  rfl

theorem pipe_of_writer {f : File} (hf : f.writer = some h) : f.pipe = some h := by
  rw [eq_of_writer hf]
  rfl

/-- A container that has an end of a pipe or has opened one anew, was the first to pass one on, or
has written to it through one that was not passed on, was cloned while the supervisor had an end of
it open. -/
structure Inherited (s : Output F) : Prop where
  held : ∀ g k p f h, s.procs.proc g k = some p → p.fds.Holds f → f.pipe = some h →
    g ∈ s.heirs h
  reopened : ∀ g h, h ∈ s.reopened g → g ∈ s.heirs h
  passed : ∀ h g, (s.passed h).head? = some g → g ∈ s.heirs h
  wrote : ∀ h, ∀ w ∈ s.wrote h, w.writer ∈ s.heirs h ∨ w.access = .passed h

theorem mem_heirsAfter (e : Event) (hg : g ∈ s.heirs h) : g ∈ s.heirsAfter e h := by
  unfold heirsAfter
  split
  · split_ifs
    · exact List.mem_cons_of_mem _ hg
    · exact hg
  · exact hg

theorem mem_heirsAfter_clone {pid : ℤ} {f : File} (hf : s.procs.fds.Holds f)
    (hpipe : f.pipe = some h) : g ∈ s.heirsAfter (.clone g (.ok pid)) h := by
  have hends : s.procs.fds.Holds (.pipeRead h) ∨ s.procs.fds.Holds (.pipeWrite h) := by
    cases f <;> cases hpipe
    · exact .inl hf
    · exact .inr hf
  rw [heirsAfter, if_pos hends]
  exact List.mem_cons_self

/-- What a process holds after a step came to its container by inheritance, too. -/
theorem Inherited.held_step (d : Inherited s) {e : ProcessEvent} {procs : Processes}
    {heirs : ℕ → List ℕ} (hs : s.procs.step e = some procs)
    (hmono : ∀ g h, g ∈ s.heirs h → g ∈ heirs h)
    (hclone : ∀ g pid f h, e = .engine (.clone g (.ok pid)) → s.procs.fds.Holds f →
      f.pipe = some h → g ∈ heirs h) {p : Proc} {f : File} (hp : procs.proc g k = some p)
    (hh : p.fds.Holds f) (hf : f.pipe = some h) : g ∈ heirs h := by
  rcases Processes.holds_step hs hp hh with rfl | rfl | ⟨k₀, p₀, hold, hh⟩ | ⟨pid, he, hh⟩
  · cases hf
  · cases hf
  · exact hmono g h (d.held g k₀ p₀ f h hold hh hf)
  · exact hclone g pid f h he hh hf

/-- Who gets at a pipe has inherited an end of it, or has got it from somebody. -/
theorem Inherited.via (d : Inherited s) {pick : File → Option ℕ} {access : Access}
    (hpick : ∀ f h, pick f = some h → f.pipe = some h) (hv : s.via g pick access = some h) :
    g ∈ s.heirs h ∨ access = .passed h ∧ s.passed h ≠ [] := by
  cases access with
  | fd k n =>
    obtain ⟨f, hf, hp⟩ := Option.bind_eq_some_iff.mp hv
    obtain ⟨p, hproc, hfile⟩ := Option.bind_eq_some_iff.mp hf
    exact .inl (d.held g k p f h hproc (FdTable.holds_iff.mpr ⟨n, hfile⟩) (hpick f h hp))
  | reopened k h' =>
    obtain ⟨⟨-, hmem⟩, heq⟩ := Option.ite_none_right_eq_some.mp hv
    obtain rfl := Option.some.inj heq
    exact .inl (d.reopened g h' hmem)
  | passed h' =>
    obtain ⟨hne, heq⟩ := Option.ite_none_left_eq_some.mp hv
    obtain rfl := Option.some.inj heq
    exact .inr ⟨rfl, hne⟩

theorem Inherited.step (d : Inherited s) (hs : s.step resolve e = some s') : Inherited s' := by
  cases step_effect hs with
  | engine e procs lossy hp =>
    refine ⟨fun g k p f h => d.held_step hp (fun _ _ => mem_heirsAfter e) ?_,
      fun g h hmem => mem_heirsAfter e (d.reopened g h hmem),
      fun h g hg => mem_heirsAfter e (d.passed h g hg),
      fun h w hw => (d.wrote h w hw).imp_left (mem_heirsAfter e)⟩
    intro g pid f h he hh hf
    obtain rfl := ProcessEvent.engine.inj he
    exact mem_heirsAfter_clone hh hf
  | process e procs he hp =>
    refine ⟨fun g k p f h => d.held_step hp (fun _ _ hg => hg) ?_, d.reopened, d.passed, d.wrote⟩
    exact fun _ _ _ _ heq => absurd heq (he _)
  | log | take | read => exact ⟨d.held, d.reopened, d.passed, d.wrote⟩
  | reopen g k n h hf =>
    refine ⟨d.held, fun g' h' hmem => ?_, d.passed, d.wrote⟩
    by_cases hg : g' = g
    · subst hg
      simp only [Function.update_self] at hmem
      rcases List.mem_cons.mp hmem with rfl | hmem
      · have hv : s.via _ File.pipe (.fd k n) = some h' := hf
        exact (d.via (fun _ _ hp => hp) hv).resolve_right (by simp)
      · exact d.reopened g' h' hmem
    · simp only [Function.update_of_ne hg] at hmem
      exact d.reopened g' h' hmem
  | pass g h access hv =>
    refine ⟨d.held, d.reopened, fun h' g' hhead => ?_, d.wrote⟩
    by_cases hh : h' = h
    · subst hh
      simp only [Function.update_self, List.head?_append] at hhead
      cases hfirst : (s.passed h').head? with
      | some g₀ =>
        rw [hfirst] at hhead
        exact Option.some.inj hhead ▸ d.passed h' g₀ hfirst
      | none =>
        -- Nobody has passed an end of this pipe on before.
        rw [hfirst] at hhead
        obtain rfl := Option.some.inj hhead
        exact (d.via (fun _ _ hp => hp) hv).resolve_right fun hg =>
          hg.2 (List.head?_eq_none_iff.mp hfirst)
    · simp only [Function.update_of_ne hh] at hhead
      exact d.passed h' g' hhead
  | write g h access bytes hv =>
    refine ⟨d.held, d.reopened, d.passed, fun h' w hw => ?_⟩
    by_cases hh : h' = h
    · subst hh
      simp only [Function.update_self] at hw
      rcases List.mem_append.mp hw with hw | hw
      · exact d.wrote h' w hw
      · rw [List.mem_singleton.mp hw]
        exact (d.via (fun _ _ => pipe_of_writer) hv).imp_right And.left
    · simp only [Function.update_of_ne hh] at hw
      exact d.wrote h' w hw

theorem Inherited.of_run {C : Output F → OutputEvent F → Prop}
    (hr : Transition.Run (Output.step resolve) C (init files) s) : Inherited s :=
  hr.invariant
    ⟨fun _ _ _ _ _ hp => by simp [init, Processes.init] at hp,
      fun _ _ hmem => by simp [init] at hmem, fun _ _ hg => by simp [init] at hg,
      fun _ _ hw => by simp [init] at hw⟩
    fun _ _ _ d _ hs => d.step hs

/-- What is on its way to the log file of a slot. -/
def way (s : Output F) (i : Slot) (h : ℕ) : List UInt8 :=
  s.lossy.traced.unwritten i ++ entryBytes (s.lossy.traced.pipeline.logs.view.pending h) ++ s.pipe h

theorem whole_way
    (hr : Transition.Run (Output.step resolve) (StartsApart resolve) (init files) s)
    (ho : s.lossy.traced.pipeline.engine.owner i = some h) :
    (whole (s.lossy.pieces i) ++ s.way i h).Sublist (s.written h) ∧
      (whole (s.lossy.pieces i)).length + (s.way i h).length + s.refused h + s.taken h =
        (s.written h).length := by
  have c := Carried.of_run hr h
  have hlen := c.length
  have hsub := c.sublist
  rw [Traced.heldBytes, ← LossyLog.whole_pieces (lossy_run hr) ho] at hlen hsub
  simp only [way, List.length_append, List.append_assoc] at hlen hsub ⊢
  exact ⟨hsub, by omega⟩

/-- The container `a` is started for the handler `0`, and writes two bytes to its pipe. -/
def playOutput (F : Type) : List (OutputEvent F) :=
  [.engine .loopTest, .engine (.accept 0),
    .engine (.recv 0 ⟨REQ_START, cstr "a", cstr "r", cstr "echo", 40, 64, 0⟩),
    .engine (.reserve 0 0), .engine (.pipe 0 none), .engine (.mallocStack 0 true),
    .engine (.mallocChild 0 true), .engine (.clone 0 (.ok 7)), .process (.cleanup 0),
    .process (.cleanup 0), .engine (.mallocArg 0 true), .engine (.publish 0),
    .engine (.createProducer 0 true), .process (.child 0 true),
    .write 0 (.fd 0 1) [104, 105]]

end Output

end Jackfruit
