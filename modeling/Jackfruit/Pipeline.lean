import Jackfruit.LifeCycle
import Jackfruit.LogView

/-!
# From the containers' pipes to the log files

The supervisor's threads, the log buffer, the producers (`log_producer_main`) and the consumer
(`log_consumer_main`) as one machine. A producer is named by the handler that created it, and the
main thread is the log buffer's only closer. Each of them does its sections on the log buffer as
a thread of `LogSystem`, and everything else between two of them is a step of its own. A producer
that has read a chunk is at the mutex of the log buffer.

Opening and writing a log file always succeed. Which file a path leads to is given by `resolve`;
two paths may lead to the same file.

`captured` are the bytes that a producer has read while the shutdown flag was not set, and
`appended` the entries the consumer has written. No step reads them.
-/

set_option linter.unusedSectionVars false

namespace Jackfruit

/-- The entry of a chunk : zeroed, with the chunk copied to its front. -/
def logEntry (i : Slot) (chunk : List UInt8) : LogEntry where
  containerIndex := (i : ℕ)
  len := chunk.length
  data := chunk ++ List.replicate (LOG_CHUNK_SIZE - chunk.length) 0

/-- What `write(fd, entry.data, entry.len)` writes. -/
def LogEntry.bytes (entry : LogEntry) : List UInt8 :=
  entry.data.take entry.len

@[simp] theorem bytes_logEntry (i : Slot) (chunk : List UInt8) :
    (logEntry i chunk).bytes = chunk := by
  simp [logEntry, LogEntry.bytes]

/-- `log_path` after the consumer's critical section. -/
def logPath (t : Table) (index : ℤ) : CStr :=
  if h : 0 ≤ index ∧ index.toNat < MAX_CONTAINERS then
    if (t ⟨index.toNat, h.2⟩).used then safeStrcpy (t ⟨index.toNat, h.2⟩).logFile MAX_PATH_LEN
    else []
  else []

/-- Where `log_consumer_main` is. -/
inductive ConsumerPc
  /-- In `log_buffer_pop`, or about to call it. -/
  | pop
  | lookup (entry : LogEntry)
  | write (path : CStr) (entry : LogEntry)
  | finished
  deriving DecidableEq

/-- The supervisor with the log buffer, the producers, the consumer and the log files. -/
structure Pipeline (F : Type) where
  engine : Engine
  logs : LogSystem ℕ Unit Unit
  /-- The producers that have left their loop. -/
  finished : ℕ → Bool
  consumer : ConsumerPc
  files : F → List UInt8
  captured : ℕ → List UInt8
  appended : List LogEntry

/-- A step of the supervisor, of a producer, of the consumer, or of the main thread in
`log_buffer_shutdown`. -/
inductive PipelineEvent
  | engine (e : Event)
  /-- A section of a push or a pop, or a spurious wake-up. -/
  | logs (e : LogEvent ℕ Unit Unit)
  /-- `read` returns a chunk, and the producer calls `log_buffer_push`. -/
  | read (h : ℕ) (chunk : List UInt8)
  /-- `read` returns `0` or fails. -/
  | readEnd (h : ℕ)
  | pushReturn (h : ℕ)
  | popCall
  | popReturn
  | lookup
  | append
  | closeCall
  | closeEnter
  | closeReturn

namespace Pipeline

variable {F : Type} [DecidableEq F]

/-- `run_supervisor` at its accept loop. -/
def init (files : F → List UInt8) : Pipeline F where
  engine := Engine.init
  logs := LogSystem.init
  finished _ := false
  consumer := .pop
  files := files
  captured _ := []
  appended := []

/-- What an event does. -/
def next (resolve : CStr → F) (s : Pipeline F) : PipelineEvent → Option (Pipeline F)
  | .engine .joinConsumer =>
    -- `pthread_join` of the consumer comes after `log_buffer_shutdown`.
    if s.consumer = .finished ∧ s.logs.closePc () = .idle then
      (s.engine.step .joinConsumer).map fun engine => { s with engine := engine }
    else none
  | .engine e => (s.engine.step e).map fun engine => { s with engine := engine }
  | .logs e =>
    if e.isSection then (s.logs.step e).map fun logs => { s with logs := logs } else none
  | .read h chunk =>
    match s.engine.producer h with
    | some i =>
      if s.finished h = false ∧ chunk ≠ [] ∧ chunk.length ≤ LOG_CHUNK_SIZE then
        (s.logs.step (.pushCall h (logEntry i chunk))).map fun logs =>
          { s with
            logs := logs
            captured := if s.logs.buf.shutdown then s.captured
              else Function.update s.captured h (s.captured h ++ chunk) }
      else none
    | none => none
  | .readEnd h =>
    if s.engine.producer h ≠ none ∧ s.logs.pushPc h = .idle then
      some { s with finished := Function.update s.finished h true }
    else none
  | .pushReturn h =>
    match s.logs.pushPc h with
    | .unlock ret =>
      (s.logs.step (.pushReturn h)).map fun logs =>
        { s with
          logs := logs
          finished := if ret = 0 then s.finished else Function.update s.finished h true }
    | _ => none
  | .popCall =>
    if s.consumer = .pop then
      (s.logs.step (.popCall ())).map fun logs => { s with logs := logs }
    else none
  | .popReturn =>
    match s.logs.popPc () with
    | .unlock ret =>
      (s.logs.step (.popReturn ())).map fun logs =>
        { s with
          logs := logs
          consumer := match ret with
            | some entry => .lookup entry
            | none => .finished }
    | _ => none
  | .lookup =>
    match s.consumer with
    | .lookup entry =>
      let path := logPath s.engine.table entry.containerIndex
      some { s with consumer := if path = [] then .pop else .write path entry }
    | _ => none
  | .append =>
    match s.consumer with
    | .write path entry =>
      some { s with
        files := Function.update s.files (resolve path) (s.files (resolve path) ++ entry.bytes)
        consumer := .pop
        appended := s.appended ++ [entry] }
    | _ => none
  | .closeCall =>
    if s.engine.main = .joinConsumer ∧ s.logs.buf.shutdown = false then
      (s.logs.step (.closeCall ())).map fun logs => { s with logs := logs }
    else none
  | .closeEnter => (s.logs.step (.closeEnter ())).map fun logs => { s with logs := logs }
  | .closeReturn => (s.logs.step (.closeReturn ())).map fun logs => { s with logs := logs }

/-- One step; none once `run_supervisor` has returned. -/
def step (resolve : CStr → F) (s : Pipeline F) (e : PipelineEvent) : Option (Pipeline F) :=
  if s.engine.main = .returned then none else s.next resolve e

/-- Everything that an event can do. -/
inductive Effect (resolve : CStr → F) (s : Pipeline F) : PipelineEvent → Pipeline F → Prop
  | engine (e : Event) (engine : Engine) : s.engine.step e = some engine →
      (engine.main.Joined → s.engine.main.Joined ∨ s.consumer = .finished) →
      Effect resolve s (.engine e) { s with engine := engine }
  | logs (e : LogEvent ℕ Unit Unit) (logs : LogSystem ℕ Unit Unit) : s.logs.step e = some logs →
      e.isSection = true → Effect resolve s (.logs e) { s with logs := logs }
  | read (h : ℕ) (i : Slot) (chunk : List UInt8) (logs : LogSystem ℕ Unit Unit) :
      s.engine.producer h = some i →
      s.logs.step (.pushCall h (logEntry i chunk)) = some logs →
      Effect resolve s (.read h chunk) { s with
        logs := logs
        captured := if s.logs.buf.shutdown then s.captured
          else Function.update s.captured h (s.captured h ++ chunk) }
  | finish (e : PipelineEvent) (finished : ℕ → Bool) :
      Effect resolve s e { s with finished := finished }
  | pushReturn (h : ℕ) (logs : LogSystem ℕ Unit Unit) (finished : ℕ → Bool) :
      s.logs.step (.pushReturn h) = some logs →
      Effect resolve s (.pushReturn h) { s with logs := logs, finished := finished }
  | popCall (logs : LogSystem ℕ Unit Unit) : s.consumer = .pop →
      s.logs.step (.popCall ()) = some logs →
      Effect resolve s .popCall { s with logs := logs }
  | popReturn (ret : Option LogEntry) (logs : LogSystem ℕ Unit Unit) :
      s.logs.popPc () = .unlock ret → s.logs.step (.popReturn ()) = some logs →
      Effect resolve s .popReturn { s with
        logs := logs
        consumer := match ret with
          | some entry => .lookup entry
          | none => .finished }
  | lookup (entry : LogEntry) : s.consumer = .lookup entry →
      Effect resolve s .lookup { s with
        consumer := if logPath s.engine.table entry.containerIndex = [] then .pop
          else .write (logPath s.engine.table entry.containerIndex) entry }
  | append (path : CStr) (entry : LogEntry) : s.consumer = .write path entry →
      Effect resolve s .append { s with
        files := Function.update s.files (resolve path) (s.files (resolve path) ++ entry.bytes)
        consumer := .pop
        appended := s.appended ++ [entry] }
  | closeEnter (logs : LogSystem ℕ Unit Unit) : s.logs.step (.closeEnter ()) = some logs →
      Effect resolve s .closeEnter { s with logs := logs }
  | close (e : PipelineEvent) (e' : LogEvent ℕ Unit Unit) (logs : LogSystem ℕ Unit Unit) :
      e' = .closeCall () ∨ e' = .closeReturn () → s.logs.step e' = some logs →
      Effect resolve s e { s with logs := logs }

variable {resolve : CStr → F} {s s' : Pipeline F} {e : PipelineEvent}

theorem step_effect (hs : step resolve s e = some s') : Effect resolve s e s' := by
  unfold step at hs
  replace hs := (ite_eq_iff.mp hs).resolve_left (by simp) |>.2
  cases e with
  | engine e =>
    by_cases he : e = .joinConsumer
    · subst he
      simp only [next] at hs
      split_ifs at hs with hfin
      obtain ⟨engine, heng, rfl⟩ := Option.map_eq_some_iff.mp hs
      exact .engine _ engine heng fun _ => Or.inr hfin.1
    · have hs' : (s.engine.step e).map (fun engine => { s with engine := engine }) = some s' := by
        cases e <;> first | exact hs | exact absurd rfl he
      obtain ⟨engine, heng, rfl⟩ := Option.map_eq_some_iff.mp hs'
      refine .engine _ engine heng fun hj => ?_
      exact Or.inl ((Engine.step_joined (Engine.step_effect heng) hj).resolve_right he)
  | logs e =>
    simp only [next] at hs
    split_ifs at hs with he
    obtain ⟨logs, hlogs, rfl⟩ := Option.map_eq_some_iff.mp hs
    exact .logs e logs hlogs he
  | read h chunk =>
    simp only [next] at hs
    split at hs
    · rename_i i hi
      split at hs
      · obtain ⟨logs, hlogs, rfl⟩ := Option.map_eq_some_iff.mp hs
        exact .read h i chunk logs hi hlogs
      · cases hs
    · cases hs
  | readEnd h =>
    simp only [next] at hs
    split_ifs at hs
    cases hs
    exact .finish _ _
  | pushReturn h =>
    simp only [next] at hs
    split at hs
    · obtain ⟨logs, hlogs, rfl⟩ := Option.map_eq_some_iff.mp hs
      exact .pushReturn h logs _ hlogs
    · cases hs
  | popCall =>
    simp only [next] at hs
    split_ifs at hs with hc
    obtain ⟨logs, hlogs, rfl⟩ := Option.map_eq_some_iff.mp hs
    exact .popCall logs hc hlogs
  | popReturn =>
    simp only [next] at hs
    split at hs
    · rename_i ret hpc
      obtain ⟨logs, hlogs, rfl⟩ := Option.map_eq_some_iff.mp hs
      exact .popReturn ret logs hpc hlogs
    · cases hs
  | lookup =>
    simp only [next] at hs
    split at hs
    · rename_i entry hc
      cases hs
      exact .lookup entry hc
    · cases hs
  | append =>
    simp only [next] at hs
    split at hs
    · rename_i path entry hc
      cases hs
      exact .append path entry hc
    · cases hs
  | closeCall =>
    simp only [next] at hs
    split_ifs at hs
    obtain ⟨logs, hlogs, rfl⟩ := Option.map_eq_some_iff.mp hs
    exact .close _ _ logs (Or.inl rfl) hlogs
  | closeEnter =>
    simp only [next] at hs
    obtain ⟨logs, hlogs, rfl⟩ := Option.map_eq_some_iff.mp hs
    exact .closeEnter logs hlogs
  | closeReturn =>
    simp only [next] at hs
    obtain ⟨logs, hlogs, rfl⟩ := Option.map_eq_some_iff.mp hs
    exact .close _ _ logs (Or.inr rfl) hlogs

/-! ## The parts run by their own rules -/

theorem engine_run {C : Pipeline F → PipelineEvent → Prop} {files : F → List UInt8}
    (hr : Transition.Run (step resolve) C (init files) s) : s.engine.Reachable := by
  refine hr.map Pipeline.engine fun t e u _ _ hs => ?_
  cases step_effect hs with
  | engine e engine he => exact Or.inr ⟨e, trivial, he⟩
  | _ => exact Or.inl rfl

theorem logs_run {C : Pipeline F → PipelineEvent → Prop} {files : F → List UInt8}
    (hr : Transition.Run (step resolve) C (init files) s) : s.logs.Reachable := by
  refine hr.map Pipeline.logs fun t e u _ _ hs => ?_
  cases step_effect hs with
  | logs e logs hlogs => exact Or.inr ⟨e, trivial, hlogs⟩
  | read h i chunk logs hi hlogs => exact Or.inr ⟨_, trivial, hlogs⟩
  | pushReturn h logs finished hlogs => exact Or.inr ⟨_, trivial, hlogs⟩
  | popCall logs hc hlogs => exact Or.inr ⟨_, trivial, hlogs⟩
  | popReturn ret logs hpc hlogs => exact Or.inr ⟨_, trivial, hlogs⟩
  | closeEnter logs hlogs => exact Or.inr ⟨_, trivial, hlogs⟩
  | close e e' logs he hlogs => exact Or.inr ⟨e', trivial, hlogs⟩
  | _ => exact Or.inl rfl

end Pipeline

end Jackfruit
