import Jackfruit.LogWork
import Jackfruit.OutputPath

/-!
# Output does not get stuck

Where the bytes of a container are is told in `Jackfruit.OutputPath`; here, that they go on.
`undrained` counts the steps that are left until the pipe of a container and the log buffer are
empty : those of the producers in their pushes, of the consumer, and of the container's producer
when it reads. Whatever the other threads and the containers do, these steps are at most as many as
that, but for what each write to a pipe, each read of another producer and each spurious wake-up
adds. And until everything has been carried on one of them can be taken : no order of the wake-ups,
no failing write and no other container leaves the producers and the consumer waiting for each
other, as long as no send to a client that has closed kills the process (`output_drains`).
-/

set_option linter.unusedSectionVars false

open CutTexts
open Transition (PeerEvent WithPeers)

namespace Jackfruit

/-- The steps that carry the output of the container of `h` on : those of the log buffer and the log
files, and the reads of its own producer. -/
def OutputEvent.carries {F : Type} (h : ℕ) : OutputEvent F → Bool
  | .log (.pipeline e) => e.carries
  | .log (.write _) => true
  | .read g _ => decide (g = h)
  | _ => false

/-- The handler to whose client a step sends. -/
def OutputEvent.client {F : Type} : OutputEvent F → Option ℕ
  | .engine e => e.client
  | _ => none

/-- What the other steps add. -/
def OutputEvent.added {F : Type} (h : ℕ) : OutputEvent F → ℕ
  | .log (.pipeline e) => e.added
  | .read g _ => if g = h then 0 else 13
  | .write _ _ bytes => 14 * bytes.length
  | _ => 0

namespace Output

variable {F : Type} [DecidableEq F] {resolve : CStr → F} {s s' : Output F} {e : OutputEvent F}
  {files : F → List UInt8} {h : ℕ} {i : Slot}

/-- The steps that are left until everything that the container of `h` has written is in its log
file. -/
def undrained (h : ℕ) (s : Output F) : ℕ :=
  s.lossy.traced.pipeline.unlogged + 14 * (s.pipe h).length

/-- The pipeline runs by its own rules, whatever the log files are. -/
theorem pipeline_run {C : Output F → OutputEvent F → Prop}
    (hr : Transition.Run (Output.step resolve) C (init files) s) :
    Transition.Run (Pipeline.step resolve) Transition.Always (Pipeline.init files)
      s.lossy.traced.pipeline := by
  refine hr.map (fun t => t.lossy.traced.pipeline) fun t e u _ _ hs => ?_
  cases step_effect hs with
  | engine e procs lossy _ hl =>
    exact .inr ⟨.engine e, trivial, (Traced.step_pipeline (pipeline_step hl)).1⟩
  | log e lossy _ hl =>
    cases LossyLog.step_effect hl with
    | pipeline e traced _ ht => exact .inr ⟨e, trivial, (Traced.step_pipeline ht).1⟩
    | write res path entry traced _ ht =>
      exact .inr ⟨.append, trivial, (Traced.step_pipeline ht).1⟩
    | change => exact .inl rfl
  | read h chunk lossy _ hl =>
    exact .inr ⟨.read h chunk, trivial, (Traced.step_pipeline (pipeline_step hl)).1⟩
  | _ => exact .inl rfl

theorem undrained_step {C : Output F → OutputEvent F → Prop}
    (hr : Transition.Run (Output.step resolve) C (init files) s)
    (hs : s.step resolve e = some s') :
    s'.undrained h + (e.carries h).toNat ≤ s.undrained h + e.added h := by
  have hp := pipeline_run hr
  cases step_effect hs with
  | engine e procs lossy _ hl =>
    have hwork := Pipeline.unlogged_step hp (Traced.step_pipeline (pipeline_step hl)).1
    simp only [PipelineEvent.carries, PipelineEvent.added] at hwork
    simp only [undrained, OutputEvent.carries, OutputEvent.added]
    omega
  | process e procs => exact Nat.le_refl _
  | log e lossy he hl =>
    cases LossyLog.step_effect hl with
    | pipeline e traced _ ht =>
      have hwork := Pipeline.unlogged_step hp (Traced.step_pipeline ht).1
      simp only [undrained, OutputEvent.carries, OutputEvent.added]
      omega
    | write res path entry traced _ ht =>
      have hwork := Pipeline.unlogged_step hp (Traced.step_pipeline ht).1
      simp only [PipelineEvent.carries, PipelineEvent.added] at hwork
      simp only [undrained, OutputEvent.carries, OutputEvent.added]
      omega
    | change => exact Nat.le_refl _
  | reopen | pass => exact Nat.le_refl _
  | write g h' access bytes hv =>
    simp only [undrained, OutputEvent.carries, OutputEvent.added, Bool.toNat_false]
    by_cases hh : h = h'
    · subst hh
      rw [Function.update_self, List.length_append]
      omega
    · rw [Function.update_of_ne hh]
      omega
  | take g h' access m =>
    simp only [undrained, OutputEvent.carries, OutputEvent.added, Bool.toNat_false]
    by_cases hh : h = h'
    · subst hh
      rw [Function.update_self, List.length_drop]
      omega
    · rw [Function.update_of_ne hh]
  | read h' chunk lossy hchunk hl =>
    have hread := (Traced.step_pipeline (pipeline_step hl)).1
    have hwork := Pipeline.unlogged_step hp hread
    simp only [PipelineEvent.carries, PipelineEvent.added] at hwork
    simp only [undrained, OutputEvent.carries, OutputEvent.added]
    by_cases hh : h = h'
    · subst hh
      have hpos := List.length_pos_of_ne_nil (Pipeline.read_step hread).1
      have hlen := congrArg List.length hchunk
      rw [List.length_take] at hlen
      simp only [Function.update_self, List.length_drop, decide_true, Bool.toNat_true, if_true]
      omega
    · have hne : h' ≠ h := fun heq => hh heq.symm
      simp only [Function.update_of_ne hh, hne, decide_false, Bool.toNat_false, if_false]
      omega

/-- Nothing of the container of `h` is on its way any more. -/
structure Drained (s : Output F) (h : ℕ) : Prop where
  quiet : s.lossy.traced.pipeline.Quiet
  /-- Unless its producer has left its loop. -/
  empty : s.lossy.traced.pipeline.engine.producer h ≠ none →
    s.lossy.traced.pipeline.finished h = false → s.pipe h = []

/-- A write that writes all of its entry. -/
def Whole (s : Output F) : OutputEvent F → Prop
  | .log (.write res) =>
    res.count = (entryBytes (Pipeline.hand s.lossy.traced.pipeline.consumer)).length
  | _ => True

/-- A step that carries the output of `h` on, with no byte lost. -/
def Carries (h : ℕ) (s : Output F) (e : OutputEvent F) : Prop :=
  e.carries h = true ∧ s.Whole e

instance (s : Output F) (e : OutputEvent F) : Decidable (s.Whole e) := by
  rcases e with _ | _ | (_ | _ | _) <;> dsimp only [Whole] <;> infer_instance

instance (h : ℕ) (s : Output F) (e : OutputEvent F) : Decidable (Carries h s e) :=
  inferInstanceAs (Decidable (_ ∧ _))

/-- A step of the pipeline that is missing nothing. -/
theorem carries_pipeline (hm : s.lossy.traced.pipeline.engine.main ≠ .returned) {e : PipelineEvent}
    (he : e.carries = true) (hadded : e.added = 0)
    (hs : (s.lossy.traced.pipeline.next resolve e).isSome = true) :
    ∃ e', Carries h s e' ∧ e'.added h = 0 ∧ (Output.step resolve s e').isSome = true := by
  have ht : (s.lossy.traced.step resolve e).isSome = true := by
    rw [Traced.step, Option.isSome_map, Pipeline.step, if_neg hm]
    exact hs
  by_cases happend : e = .append
  · subst happend
    cases hc : s.lossy.traced.pipeline.consumer with
    | write path entry =>
      refine ⟨.log (.write (.bytes entry.bytes.length)), ⟨rfl, ?_⟩, rfl, ?_⟩
      · simp [Whole, hc, Pipeline.hand, entryBytes, WriteResult.count]
      · simpa [Output.step, LossyEvent.isJoint, LossyLog.step, LossyLog.writeStep, hc,
          WriteResult.count] using ht
    | pop | lookup | finished => simp [Pipeline.next, hc] at hs
  · refine ⟨.log (.pipeline e), ⟨he, trivial⟩, hadded, ?_⟩
    have hl : s.lossy.step resolve (.pipeline e) =
        (s.lossy.traced.step resolve e).map fun traced => { s.lossy with traced := traced } := by
      cases e <;> first | rfl | exact absurd rfl happend
    have hjoint : (LossyEvent.pipeline (F := F) e).isJoint = false := by
      cases e <;> first | rfl | cases he
    rw [Output.step, hjoint, if_neg Bool.false_ne_true, Option.isSome_map, hl, Option.isSome_map]
    exact ht

/-- Until nothing is on its way one of the steps can be taken. -/
theorem drained_or_carries {C : Output F → OutputEvent F → Prop}
    (hr : Transition.Run (Output.step resolve) C (init files) s)
    (hm : s.lossy.traced.pipeline.engine.main ≠ .returned) (h : ℕ) :
    Drained s h ∨ ∃ e, Carries h s e ∧ e.added h = 0 ∧ (Output.step resolve s e).isSome = true := by
  rcases Pipeline.quiet_or_carries (pipeline_run hr) with hq | ⟨e, he, hadded, hs⟩
  · by_cases hempty : s.lossy.traced.pipeline.engine.producer h ≠ none →
        s.lossy.traced.pipeline.finished h = false → s.pipe h = []
    · exact .inl ⟨hq, hempty⟩
    · push Not at hempty
      obtain ⟨hprod, hfin, hpipe⟩ := hempty
      obtain ⟨i, hi⟩ := Option.ne_none_iff_exists'.mp hprod
      right
      cases hpc : s.lossy.traced.pipeline.logs.pushPc h with
      | idle =>
        refine ⟨.read h ((s.pipe h).take LOG_CHUNK_SIZE), ⟨by simp [OutputEvent.carries], trivial⟩,
          if_pos rfl, ?_⟩
        have hne : (s.pipe h).take LOG_CHUNK_SIZE ≠ [] := by
          simpa [LOG_CHUNK_SIZE] using hpipe
        have htake : (s.pipe h).take LOG_CHUNK_SIZE =
            (s.pipe h).take ((s.pipe h).take LOG_CHUNK_SIZE).length := by
          rw [List.length_take, ← List.take_eq_take_min]
        rw [Output.step, if_pos htake, Option.isSome_map]
        simp [LossyLog.step, Traced.step, Pipeline.step, hm, Pipeline.next, hi, hfin, hne,
          LogSystem.step, hpc]
      | unlock ret =>
        exact carries_pipeline (e := .pushReturn h) hm rfl rfl
          (by simp [Pipeline.next, LogSystem.step, hpc])
      | lock entry | wait entry =>
        have hnone := hq.pending h
        simp [LogSystem.view, LogSystem.pendingOf, hpc] at hnone
  · exact .inr (carries_pipeline hm he hadded hs)

/-- A write of a whole entry loses nothing. -/
theorem lost_write {l l' : LossyLog F} {res : WriteResult}
    (hs : l.step resolve (.write res) = some l')
    (hres : res.count = (entryBytes (Pipeline.hand l.traced.pipeline.consumer)).length) (i : Slot) :
    lost (l'.pieces i) = lost (l.pieces i) := by
  cases LossyLog.step_effect hs with
  | write res path entry traced hc =>
    rw [hc] at hres
    have hcount : res.count = entry.bytes.length := hres
    simp only [LossyLog.pieces, List.filter_append, List.map_append, lost_append]
    by_cases hidx : entry.containerIndex = ((i : ℕ) : ℤ) <;> simp [lost, hidx, hcount]

/-- Nothing of a quiet pipeline is on its way to a file. -/
theorem way_of_drained (hd : Drained s h)
    (hprod : s.lossy.traced.pipeline.engine.producer h ≠ none)
    (hfin : s.lossy.traced.pipeline.finished h = false) : s.way i h = [] := by
  have hring : s.lossy.traced.pipeline.logs.buf.contents LOG_BUFFER_CAPACITY = [] := by
    rw [RingBuffer.contents, hd.quiet.ring]
    rfl
  rw [way, Traced.unwritten, hd.quiet.hand, hd.quiet.taken, hd.quiet.pending, hring,
    hd.empty hprod hfin]
  rfl

/-- From `s` on only the output of `h` has been carried on. -/
structure OnlyCarried (resolve : CStr → F) (files : F → List UInt8) (h : ℕ) (i : Slot)
    (s t : Output F) : Prop where
  run : Transition.Run (Output.step resolve) Transition.Always (init files) t
  apart : Transition.Run (Output.step resolve) (StartsApart resolve) (init files) s →
    Transition.Run (Output.step resolve) (StartsApart resolve) (init files) t
  procs : t.procs = s.procs
  wrote : t.wrote = s.wrote
  taken : t.taken = s.taken
  changed : t.lossy.changed = s.lossy.changed
  losses : lost (t.lossy.pieces i) = lost (s.lossy.pieces i)
  opened : t.lossy.traced.pipeline.logs.buf.shutdown = false
  finished : t.lossy.traced.pipeline.finished h = s.lossy.traced.pipeline.finished h

theorem OnlyCarried.step {t u : Output F} (f : OnlyCarried resolve files h i s t)
    (hc : Carries h t e) (hs : Output.step resolve t e = some u) :
    OnlyCarried resolve files h i s u := by
  have hl := Pipeline.logs_run (pipeline_run f.run)
  cases step_effect hs with
  | engine | process | reopen | pass | write | take => cases hc.1
  | log e lossy he hlossy =>
    have hpipeline : (∃ e', e'.carries = true ∧
        t.lossy.traced.pipeline.step resolve e' = some lossy.traced.pipeline) ∧
        lossy.changed = t.lossy.changed := by
      cases LossyLog.step_effect hlossy with
      | pipeline e traced _ ht => exact ⟨⟨e, hc.1, (Traced.step_pipeline ht).1⟩, rfl⟩
      | write res path entry traced _ ht =>
        exact ⟨⟨.append, rfl, (Traced.step_pipeline ht).1⟩, rfl⟩
      | change => cases hc.1
    obtain ⟨⟨e', he', hp⟩, hchanged⟩ := hpipeline
    obtain ⟨hopen, hfin⟩ := Pipeline.carries_kept hl hp (.inl he') f.opened h
    refine ⟨.tail (.log e) f.run trivial hs, fun hr => .tail (.log e) (f.apart hr) trivial hs,
      f.procs, f.wrote, f.taken, hchanged.trans f.changed, ?_, hopen, hfin.trans f.finished⟩
    refine Eq.trans ?_ f.losses
    cases e with
    | pipeline e =>
      cases LossyLog.step_effect hlossy with
      | pipeline => rfl
    | write res => exact lost_write hlossy hc.2 i
    | change => cases hc.1
  | read g chunk lossy _ hlossy =>
    have hp := (Traced.step_pipeline (pipeline_step hlossy)).1
    obtain ⟨hopen, hfin⟩ := Pipeline.carries_kept hl hp (.inr ⟨g, chunk, rfl⟩) f.opened h
    have hsame : lossy.changed = t.lossy.changed ∧
        lost (lossy.pieces i) = lost (t.lossy.pieces i) := by
      cases LossyLog.step_effect hlossy with
      | pipeline => exact ⟨rfl, rfl⟩
    exact ⟨.tail (.read g chunk) f.run trivial hs,
      fun hr => .tail (.read g chunk) (f.apart hr) trivial hs, f.procs, f.wrote, f.taken,
      hsame.1.trans f.changed, hsame.2.trans f.losses, hopen, hfin.trans f.finished⟩

/-- What has been written is in the log file when nothing is on its way and nothing was lost. -/
theorem OnlyCarried.content {t : Output F} (f : OnlyCarried resolve files h i s t)
    (hd : Drained t h) (hi : s.procs.engine.producer h = some i)
    (hfin : s.lossy.traced.pipeline.finished h = false)
    (hr : Transition.Run (Output.step resolve) (StartsApart resolve) (init files) s)
    (hchanged : s.lossy.changed (resolve (logFileOf (s.procs.engine.table i).id)) = false)
    (hlost : lost (s.lossy.pieces i) = 0) (htaken : s.taken h = 0) :
    t.lossy.files (resolve (logFileOf (s.procs.engine.table i).id)) =
      files (resolve (logFileOf (s.procs.engine.table i).id)) ++ s.written h := by
  have heng := engines_agree f.run
  have hapart := f.apart hr
  have hre := Pipeline.engine_run (pipeline_run f.run)
  rw [← f.changed] at hchanged
  rw [← f.procs, heng] at hi hchanged ⊢
  have w := Engine.Wf.of_run hre
  have hsettled := w.producer h i hi
  obtain ⟨hsub, hlen⟩ := whole_way hapart hsettled.1
  have hway : t.way i h = [] := way_of_drained hd (by simp [hi]) (f.finished.trans hfin)
  rw [hway, List.append_nil] at hsub
  rw [hway, (Carried.of_run f.run h).shut f.opened, f.taken, htaken] at hlen
  have hwritten : t.written h = s.written h := by rw [written, written, f.wrote]
  rw [LossyLog.files_eq (lossy_run hapart) (w.used_of_settled hsettled) hchanged,
    kept_eq_whole (f.losses.trans hlost), hsub.eq_of_length (by simpa using hlen), hwritten]

/-- The output of the container of `h`, with clients that all wait for their answers : the steps
that carry it on are bounded but for what the others add, one of them can be taken unless nothing is
on its way, and before the shutdown they alone bring it to the log file. -/
theorem drains_alone (hr : Transition.Run (Output.step resolve) Transition.Always (init files) s)
    (hm : s.procs.engine.main ≠ .returned) (h : ℕ) :
    (∀ es t, Transition.exec (Output.step resolve) Transition.Always s es = some t →
        es.countP (OutputEvent.carries h) ≤ 8 * LOG_BUFFER_CAPACITY + 16 +
          13 * s.procs.engine.cloned.length + 14 * (s.pipe h).length +
          (es.map (OutputEvent.added h)).sum) ∧
      (Drained s h ∨
        ∃ e, Carries h s e ∧ e.added h = 0 ∧ (Output.step resolve s e).isSome = true) ∧
      ∀ i, s.procs.engine.producer h = some i →
        s.lossy.traced.pipeline.finished h = false →
        s.lossy.traced.pipeline.logs.buf.shutdown = false →
        ∃ es t, Transition.exec (Output.step resolve) (Carries h) s es = some t ∧
          (∀ e ∈ es, e.carries h = true) ∧ Drained t h ∧ OnlyCarried resolve files h i s t := by
  have hagree := engines_agree hr
  refine ⟨fun es t hes => ?_, drained_or_carries hr (hagree ▸ hm) h, fun i hi hfin hopen => ?_⟩
  · have hvariant : Transition.Variant (Output.step resolve) Transition.Always
        (Transition.Run (Output.step resolve) Transition.Always (init files))
        (OutputEvent.carries h) (OutputEvent.added h) (undrained h) :=
      ⟨fun _ e _ ht hc hs => .tail e ht hc hs, fun _ _ _ ht _ hs => undrained_step ht hs⟩
    have hcount := hvariant.count_le hr hes
    have hle := Pipeline.unlogged_le (pipeline_run hr)
    rw [hagree]
    simp only [undrained] at hcount
    omega
  · have hvariant : Transition.Variant (Output.step resolve) (Carries h)
        (OnlyCarried resolve files h i s) (OutputEvent.carries h) (OutputEvent.added h)
        (undrained h) :=
      ⟨fun _ _ _ ht hc hs => ht.step hc hs, fun _ _ _ ht _ hs => undrained_step ht.run hs⟩
    have hprogress (t : Output F) (f : OnlyCarried resolve files h i s t) (hd : ¬Drained t h) :
        ∃ e, e.carries h = true ∧ e.added h = 0 ∧ Carries h t e ∧
          (Output.step resolve t e).isSome = true := by
      have hreturned : t.lossy.traced.pipeline.engine.main ≠ .returned := by
        rw [← engines_agree f.run, f.procs]
        exact hm
      obtain ⟨e, hc, hadded, hs⟩ := (drained_or_carries f.run hreturned h).resolve_left hd
      exact ⟨e, hc.1, hadded, hc, hs⟩
    obtain ⟨es, t, hes, hall, f, hd⟩ :=
      hvariant.exists_run hprogress ⟨hr, id, rfl, rfl, rfl, rfl, rfl, hopen, rfl⟩
    exact ⟨es, t, hes, hall, hd, f⟩

/-! ## With clients -/

/-- One step of the supervisor with its containers and clients : a send to a client that has closed
raises SIGPIPE, which kills it. -/
abbrev serve (resolve : CStr → F) :=
  WithPeers.step (ι := ℕ) (Output.step resolve) OutputEvent.client

/-- No handler sends to a client that has closed, or whose connection a container that has inherited
it has shut down. -/
abbrev SendsToOpen (s : WithPeers (Output F) ℕ) (e : PeerEvent (OutputEvent F) ℕ) : Prop :=
  s.Sparing OutputEvent.client Transition.Always e

theorem client_of_carries (he : e.carries h = true) : e.client = none := by
  cases e <;> first | rfl | cases he

/-- In every reachable state of the supervisor with its containers, their pipes, the log buffer, the
log files and the clients, for every start `h`, until `run_supervisor` returns and as long as no
handler sends to a client that has closed : in every schedule, with whatever the containers and the
other threads do, the producers in their pushes, the consumer and the reads of `h`'s producer take a
bounded number of steps, but for those that each write to a pipe, each read of another producer,
each spurious wake-up and the shutdown add; unless the pipe is empty and nobody has an entry in
hand, one of these steps can be taken; and before the shutdown these steps alone bring what the
container has written to its log file, all of it if no byte has been lost or taken by a container so
far, nobody else has changed the file, and no start had the log file of another container. -/
theorem output_drains {s : WithPeers (Output F) ℕ}
    (hr : Transition.Run (serve resolve) SendsToOpen (.init (init files)) s)
    (hm : s.inner.procs.engine.main ≠ .returned) (h : ℕ) :
    (∀ (es : List (PeerEvent (OutputEvent F) ℕ)) (t : WithPeers (Output F) ℕ),
        Transition.exec (serve resolve) SendsToOpen s es = some t →
        (es.filterMap PeerEvent.inner?).countP (OutputEvent.carries h) ≤
          8 * LOG_BUFFER_CAPACITY + 16 + 13 * s.inner.procs.engine.cloned.length +
            14 * (s.inner.pipe h).length +
            ((es.filterMap PeerEvent.inner?).map (OutputEvent.added h)).sum) ∧
      (Drained s.inner h ∨
        ∃ e, Carries h s.inner e ∧ e.added h = 0 ∧ SendsToOpen s (.inner e) ∧
          (serve resolve s (.inner e)).isSome = true) ∧
      ∀ i, s.inner.procs.engine.producer h = some i →
        s.inner.lossy.traced.pipeline.finished h = false →
        s.inner.lossy.traced.pipeline.logs.buf.shutdown = false →
        ∃ (es : List (OutputEvent F)) (t : WithPeers (Output F) ℕ),
          Transition.exec (serve resolve) SendsToOpen s (es.map .inner) = some t ∧
          Transition.exec (Output.step resolve) (Carries h) s.inner es = some t.inner ∧
          Drained t.inner h ∧ t.inner.procs = s.inner.procs ∧ t.inner.wrote = s.inner.wrote ∧
          (Transition.Run (Output.step resolve) (StartsApart resolve) (init files) s.inner →
            s.inner.lossy.changed
              (resolve (logFileOf (s.inner.procs.engine.table i).id)) = false →
            lost (s.inner.lossy.pieces i) = 0 → s.inner.taken h = 0 →
              t.inner.lossy.files (resolve (logFileOf (s.inner.procs.engine.table i).id)) =
                files (resolve (logFileOf (s.inner.procs.engine.table i).id)) ++
                  s.inner.written h) := by
  obtain ⟨hr, halive⟩ := WithPeers.inner_run hr
  obtain ⟨hbound, hgo, hdrain⟩ := drains_alone hr hm h
  have hsafe {e : OutputEvent F} (he : e.carries h = true) : (e.client).any s.gone = false := by
    rw [client_of_carries he]
    rfl
  refine ⟨fun es t hes => hbound _ _ (WithPeers.exec_project hes), hgo.imp_right ?_,
    fun i hi hfin hopen => ?_⟩
  · rintro ⟨e, hc, hadded, hs⟩
    exact ⟨e, hc, hadded, ⟨hsafe hc.1, trivial⟩, WithPeers.isSome_step halive hs⟩
  · obtain ⟨es, t, hes, hall, hd, f⟩ := hdrain i hi hfin hopen
    have halways := Transition.exec_mono (D := Transition.Always) (fun _ _ _ => trivial) hes
    exact ⟨es, _, WithPeers.exec_inner halive (fun e he => hsafe (hall e he)) halways, hes, hd,
      f.procs, f.wrote, f.content hd hi hfin⟩

/-- The two bytes that a container has written are brought to its log file. The client that started
it has read its answer and closed. -/
theorem output_drains_one : ∃ s : WithPeers (Output (List CStr)) ℕ,
    s.inner.pipe 0 = [104, 105] ∧ s.gone 0 = true ∧
      ∃ (es : List (OutputEvent (List CStr))) (t : WithPeers (Output (List CStr)) ℕ),
        Transition.exec (serve (Traced.fileAt [])) SendsToOpen s (es.map .inner) = some t ∧
        Drained t.inner 0 ∧
        t.inner.lossy.files (Traced.fileAt [] (logFileOf (cstr "a"))) = [104, 105] := by
  let started : List (OutputEvent (List CStr)) :=
    playOutput (List CStr) ++ [.engine (.register 0), .engine (.send 0)]
  obtain ⟨s, hr, hm, hi, hid, hfin, hopen, hpipe, hwritten, hlost, htaken, hchanged, hgone⟩ :=
    Transition.exists_run_of_exec (serve (Traced.fileAt []))
      (WithPeers.Sparing OutputEvent.client (StartsApart (Traced.fileAt [])))
      (.init (init fun _ => [])) (started.map .inner ++ [.leave 0])
      (fun s => s.inner.procs.engine.main ≠ .returned ∧
        s.inner.procs.engine.producer 0 = some 0 ∧
        (s.inner.procs.engine.table 0).id = cstr "a" ∧
        s.inner.lossy.traced.pipeline.finished 0 = false ∧
        s.inner.lossy.traced.pipeline.logs.buf.shutdown = false ∧
        s.inner.pipe 0 = [104, 105] ∧ s.inner.written 0 = [104, 105] ∧
        lost (s.inner.lossy.pieces 0) = 0 ∧ s.inner.taken 0 = 0 ∧
        s.inner.lossy.changed (Traced.fileAt [] (logFileOf (cstr "a"))) = false ∧
        s.gone 0 = true)
      (by decide)
  have hsends :
      Transition.Run (serve (Traced.fileAt [])) SendsToOpen (.init (init fun _ => [])) s :=
    hr.mono fun t e hc => by
      cases e with
      | inner e => exact ⟨hc.1, trivial⟩
      | leave => trivial
  obtain ⟨es, t, hes, -, hd, -, -, hfile⟩ := (output_drains hsends hm 0).2.2 0 hi hfin hopen
  refine ⟨s, hpipe, hgone, es, t, hes, hd, ?_⟩
  rw [← hid, hfile (WithPeers.inner_run hr).1 (by rw [hid, hchanged]) hlost htaken, hwritten]
  rfl

end Output

end Jackfruit
