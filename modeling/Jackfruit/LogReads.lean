import Jackfruit.LogRouting

/-!
# What a producer has read

A chunk that a producer has read is in its hands until the section of `log_buffer_push` stores it,
or refuses it after the shutdown. So what the producer has pushed, with the chunk that it holds,
grows by what it reads (`Traced.heldBytes_step`), but for what is refused
(`Traced.refusedBytes_cases`).
-/

set_option linter.unusedSectionVars false

namespace Jackfruit

/-- The bytes of an entry, if any. -/
def entryBytes (entry : Option LogEntry) : List UInt8 :=
  entry.elim [] LogEntry.bytes

namespace LogSystem

variable {P C M : Type} [DecidableEq P] [DecidableEq C] [DecidableEq M] {s s' : LogSystem P C M}

/-- Only the call and the section of a push move the entry of a producer. -/
theorem pending_step {e : LogEvent P C M} (h : step s e = some s')
    (hcall : ∀ p entry, e ≠ .pushCall p entry) (henter : ∀ p w, e ≠ .pushEnter p w) :
    s'.view.pending = s.view.pending := by
  cases step_cases h with
  | pushCall p entry => exact absurd rfl (hcall p entry)
  | pushWait p w | pushRefused p w | pushStored p w => exact absurd rfl (henter p w)
  | pushReturn p => exact congrArg LogView.pending (view_pushReturn h)
  | _ => rfl

/-- The flag is never taken back. -/
theorem open_step {e : LogEvent P C M} (h : step s e = some s') (hopen : s'.buf.shutdown = false) :
    s.buf.shutdown = false := by
  cases step_cases h with
  | closeEnter => cases hopen
  | _ => exact hopen

/-- What a section of a push does to the entries of the producers : it keeps its own, stores it, or
refuses it after the shutdown. -/
theorem pushEnter_pending {p : P} {w : Option C} (h : step s (.pushEnter p w) = some s') :
    (s'.view.pending = s.view.pending ∧ ∀ ret, s'.pushPc p ≠ .unlock ret) ∨
      s'.view.pending = Function.update s.view.pending p none ∧
        (s'.pushPc p = .unlock 0 ∨ s'.pushPc p = .unlock (-1) ∧ s.buf.shutdown = true) := by
  cases step_pushEnter h with
  | pushWait p w entry _ hentry =>
    have hp := pending_of_contends hentry
    exact .inl ⟨view_pushPc hp.symm, by simp⟩
  | pushRefused p w entry _ hentry hd => exact .inr ⟨pendingOf_update _, .inr ⟨by simp, hd⟩⟩
  | pushStored => exact .inr ⟨pendingOf_update _, .inl (by simp)⟩

end LogSystem

namespace Pipeline

variable {F : Type} [DecidableEq F] {resolve : CStr → F} {s s' : Pipeline F} {e : PipelineEvent}

theorem next_of_step (hs : s.step resolve e = some s') : s.next resolve e = some s' := by
  unfold step at hs
  exact (ite_eq_iff.mp hs).resolve_left (by simp) |>.2

/-- A producer that has read a chunk brings it to the log buffer. -/
theorem read_step {h : ℕ} {chunk : List UInt8} (hs : s.step resolve (.read h chunk) = some s') :
    chunk ≠ [] ∧ ∃ i, s.engine.producer h = some i ∧
      s.logs.step (.pushCall h (logEntry i chunk)) = some s'.logs := by
  have hnext := next_of_step hs
  simp only [next] at hnext
  split at hnext
  · rename_i i hi
    obtain ⟨⟨-, hchunk, -⟩, hnext⟩ := Option.ite_none_right_eq_some.mp hnext
    obtain ⟨logs, hlogs, rfl⟩ := Option.map_eq_some_iff.mp hnext
    exact ⟨hchunk, i, hi, hlogs⟩
  · cases hnext

/-- A step of the engine leaves the rest alone. -/
theorem engine_step {e : Event} (hs : s.step resolve (.engine e) = some s') :
    s.engine.step e = some s'.engine ∧ s' = { s with engine := s'.engine } := by
  have hnext := next_of_step hs
  by_cases he : e = .joinConsumer
  · subst he
    obtain ⟨-, hnext⟩ := Option.ite_none_right_eq_some.mp hnext
    obtain ⟨engine, heng, rfl⟩ := Option.map_eq_some_iff.mp hnext
    exact ⟨heng, rfl⟩
  · have hnext' : (s.engine.step e).map (fun engine => { s with engine := engine }) = some s' := by
      cases e <;> first | exact hnext | exact absurd rfl he
    obtain ⟨engine, heng, rfl⟩ := Option.map_eq_some_iff.mp hnext'
    exact ⟨heng, rfl⟩

/-- The other steps leave the engine alone. -/
theorem engine_kept (hs : s.step resolve e = some s') (he : ∀ e', e ≠ .engine e') :
    s'.engine = s.engine := by
  cases step_effect hs with
  | engine e' => exact absurd rfl (he e')
  | _ => rfl

/-- The flag of the log buffer is never taken back. -/
theorem open_step (hs : s.step resolve e = some s') (hopen : s'.logs.buf.shutdown = false) :
    s.logs.buf.shutdown = false := by
  cases step_effect hs with
  | logs e logs hlogs | pushReturn h logs finished hlogs | popCall logs hpop hlogs
  | popReturn ret logs hpc hlogs | closeEnter logs hlogs | close e e' logs he hlogs
  | read h i chunk logs hi hlogs => exact LogSystem.open_step hlogs hopen
  | _ => exact hopen

/-- The other steps leave the entries of the producers where they are. -/
theorem pending_step (hs : s.step resolve e = some s') (hread : ∀ h chunk, e ≠ .read h chunk)
    (henter : ∀ h w, e ≠ .logs (.pushEnter h w)) :
    s'.logs.view.pending = s.logs.view.pending := by
  cases step_effect hs with
  | logs e logs hlogs he =>
    refine LogSystem.pending_step hlogs ?_ fun p w heq => henter p w (heq ▸ rfl)
    rintro p entry rfl
    cases he
  | read h i chunk => exact absurd rfl (hread h chunk)
  | pushReturn h logs finished hlogs => exact LogSystem.pending_step hlogs (by simp) (by simp)
  | popCall logs hpop hlogs => exact LogSystem.pending_step hlogs (by simp) (by simp)
  | popReturn ret logs hpc hlogs => exact LogSystem.pending_step hlogs (by simp) (by simp)
  | closeEnter logs hlogs => exact LogSystem.pending_step hlogs (by simp) (by simp)
  | close e e' logs he' hlogs =>
    rcases he' with rfl | rfl
    all_goals exact LogSystem.pending_step hlogs (by simp) (by simp)
  | _ => rfl

/-- What a step does to the producer `h` : where it is in `log_buffer_push`, and whether it has left
its loop. -/
inductive ProducerTurn (s : Pipeline F) (h : ℕ) :
    PipelineEvent → CallPc LogEntry ℤ → Bool → Prop
  | same (e : PipelineEvent) : (∀ w, e ≠ .logs (.pushEnter h w)) →
      ProducerTurn s h e (s.logs.pushPc h) (s.finished h)
  | read (i : Slot) (chunk : List UInt8) : s.logs.pushPc h = .idle → s.finished h = false →
      chunk.length ≤ LOG_CHUNK_SIZE →
      ProducerTurn s h (.read h chunk) (.lock (logEntry i chunk)) false
  | enter (w : Option Unit) (entry : LogEntry) (pc : CallPc LogEntry ℤ) :
      LogSystem.pendingOf (s.logs.pushPc h) = some entry →
      pc = .wait entry ∨ pc = .unlock 0 ∨ pc = .unlock (-1) →
      ProducerTurn s h (.logs (.pushEnter h w)) pc (s.finished h)
  | pushReturn (ret : ℤ) : s.logs.pushPc h = .unlock ret →
      ProducerTurn s h (.pushReturn h) .idle (if ret = 0 then s.finished h else true)
  | readEnd : s.logs.pushPc h = .idle → ProducerTurn s h (.readEnd h) .idle true

/-- The consumer and the closer do nothing to the producers. -/
theorem producer_kept (hs : s.step resolve e = some s') (hlogs : ∀ e', e ≠ .logs e')
    (hread : ∀ h chunk, e ≠ .read h chunk) (hend : ∀ h, e ≠ .readEnd h)
    (hret : ∀ h, e ≠ .pushReturn h) :
    s'.logs.pushPc = s.logs.pushPc ∧ s'.finished = s.finished := by
  have hnext := next_of_step hs
  cases e with
  | engine e => exact (engine_step hs).2 ▸ ⟨rfl, rfl⟩
  | logs e => exact absurd rfl (hlogs e)
  | read h chunk => exact absurd rfl (hread h chunk)
  | readEnd h => exact absurd rfl (hend h)
  | pushReturn h => exact absurd rfl (hret h)
  | lookup | append =>
    simp only [next] at hnext
    split at hnext <;> cases hnext
    exact ⟨rfl, rfl⟩
  | popCall | closeCall =>
    simp only [next] at hnext
    split_ifs at hnext
    obtain ⟨logs, hstep, rfl⟩ := Option.map_eq_some_iff.mp hnext
    cases LogSystem.step_cases hstep
    exact ⟨rfl, rfl⟩
  | popReturn =>
    simp only [next] at hnext
    split at hnext
    · obtain ⟨logs, hstep, rfl⟩ := Option.map_eq_some_iff.mp hnext
      cases LogSystem.step_cases hstep
      exact ⟨rfl, rfl⟩
    · cases hnext
  | closeEnter | closeReturn =>
    obtain ⟨logs, hstep, rfl⟩ := Option.map_eq_some_iff.mp hnext
    cases LogSystem.step_cases hstep
    exact ⟨rfl, rfl⟩

theorem producer_turn_logs {e : LogEvent ℕ Unit Unit} (hs : s.step resolve (.logs e) = some s')
    (h : ℕ) : ProducerTurn s h (.logs e) (s'.logs.pushPc h) (s'.finished h) := by
  have hnext := next_of_step hs
  simp only [next] at hnext
  split_ifs at hnext with hsection
  obtain ⟨logs, hlogs, rfl⟩ := Option.map_eq_some_iff.mp hnext
  have henter {g : ℕ} (w : Option Unit) {entry : LogEntry} {pc : CallPc LogEntry ℤ}
      (hentry : LogSystem.contends s.logs.pushPc s.logs.notFull g = some entry)
      (hpc : pc = .wait entry ∨ pc = .unlock 0 ∨ pc = .unlock (-1)) :
      ProducerTurn s h (.logs (.pushEnter g w)) (Function.update s.logs.pushPc g pc h)
        (s.finished h) := by
    by_cases hg : h = g
    · subst hg
      rw [Function.update_self]
      exact .enter w entry pc (LogSystem.pending_of_contends hentry) hpc
    · rw [Function.update_of_ne hg]
      exact .same _ fun w' heq =>
        hg (LogEvent.pushEnter.inj (PipelineEvent.logs.inj heq)).1.symm
  cases LogSystem.step_cases hlogs with
  | pushCall | pushReturn | popCall | popReturn | closeCall | closeEnter | closeReturn =>
    cases hsection
  | pushWait g w entry _ hentry => exact henter w hentry (.inl rfl)
  | pushRefused g w entry _ hentry => exact henter w hentry (.inr (.inr rfl))
  | pushStored g w entry _ hentry => exact henter w hentry (.inr (.inl rfl))
  | _ => exact .same _ (by simp)

theorem producer_turn (hs : s.step resolve e = some s') (h : ℕ) :
    ProducerTurn s h e (s'.logs.pushPc h) (s'.finished h) := by
  have hnext := next_of_step hs
  cases e with
  | logs e => exact producer_turn_logs hs h
  | read g chunk =>
    simp only [next] at hnext
    split at hnext
    · rename_i i hi
      obtain ⟨⟨hfin, -, hlen⟩, hnext⟩ := Option.ite_none_right_eq_some.mp hnext
      obtain ⟨logs, hlogs, rfl⟩ := Option.map_eq_some_iff.mp hnext
      cases LogSystem.step_cases hlogs with
      | pushCall _ _ hidle =>
        change ProducerTurn s h _ (Function.update s.logs.pushPc g _ h) (s.finished h)
        by_cases hg : h = g
        · subst hg
          rw [Function.update_self, hfin]
          exact .read i chunk hidle hfin hlen
        · rw [Function.update_of_ne hg]
          exact .same _ (by simp)
    · cases hnext
  | readEnd g =>
    obtain ⟨⟨-, hidle⟩, hnext⟩ := Option.ite_none_right_eq_some.mp hnext
    cases hnext
    change ProducerTurn s h _ (s.logs.pushPc h) (Function.update s.finished g true h)
    by_cases hg : h = g
    · subst hg
      rw [Function.update_self, hidle]
      exact .readEnd hidle
    · rw [Function.update_of_ne hg]
      exact .same _ (by simp)
  | pushReturn g =>
    simp only [next] at hnext
    split at hnext
    · rename_i ret hpc
      obtain ⟨logs, hlogs, rfl⟩ := Option.map_eq_some_iff.mp hnext
      cases LogSystem.step_cases hlogs with
      | pushReturn =>
        change ProducerTurn s h _ (Function.update s.logs.pushPc g _ h)
          ((if ret = 0 then s.finished else Function.update s.finished g true) h)
        by_cases hg : h = g
        · subst hg
          have hturn := ProducerTurn.pushReturn (s := s) ret hpc
          rw [Function.update_self, apply_ite (fun f : ℕ → Bool => f h), Function.update_self]
          exact hturn
        · rw [Function.update_of_ne hg, apply_ite (fun f : ℕ → Bool => f h),
            Function.update_of_ne hg, ite_self]
          exact .same _ (by simp)
    · cases hnext
  | _ =>
    obtain ⟨hpc, hfin⟩ := producer_kept hs (by simp) (by simp) (by simp) (by simp)
    rw [hpc, hfin]
    exact .same _ (by simp)

end Pipeline

namespace Traced

variable {F : Type} [DecidableEq F] {resolve : CStr → F} {s s' : Traced F} {e : PipelineEvent}
  {h : ℕ}

/-- What a producer has read and not been refused : pushed, or at the log buffer. -/
def heldBytes (s : Traced F) (h : ℕ) : List UInt8 :=
  (s.accepted h).flatMap LogEntry.bytes ++ entryBytes (s.pipeline.logs.view.pending h)

/-- What is refused of the producer `h` in this step. -/
def refusedBytes (s s' : Traced F) (h : ℕ) : PipelineEvent → List UInt8
  | .logs (.pushEnter g _) =>
    if g = h ∧ s'.pipeline.logs.pushPc h = .unlock (-1) then
      entryBytes (s.pipeline.logs.view.pending h)
    else []
  | _ => []

/-- What the producer `h` reads in this step. -/
def readBytes (h : ℕ) : PipelineEvent → List UInt8
  | .read g chunk => if g = h then chunk else []
  | _ => []

theorem heldBytes_enter {g : ℕ} {w : Option Unit}
    (hs : step resolve s (.logs (.pushEnter g w)) = some s') (h : ℕ) :
    s'.heldBytes h ++ refusedBytes s s' h (.logs (.pushEnter g w)) = s.heldBytes h := by
  obtain ⟨p, hp, rfl⟩ := Option.map_eq_some_iff.mp hs
  obtain ⟨logs, hlogs, rfl⟩ := Pipeline.step_logs hp
  rcases LogSystem.pushEnter_pending hlogs with ⟨hpending, hpc⟩ | ⟨hpending, hpc⟩
  · have hno : ¬(g = h ∧ logs.pushPc h = .unlock (-1)) := by
      rintro ⟨rfl, hrefused⟩
      exact hpc _ hrefused
    simp [heldBytes, refusedBytes, accept, hpending, hpc, hno]
  · by_cases hg : g = h
    · subst hg
      rcases hpc with hpc | ⟨hpc, -⟩
      · cases hentry : s.pipeline.logs.view.pending g <;>
          simp [heldBytes, refusedBytes, accept, hpending, hpc, hentry, entryBytes]
      · simp [heldBytes, refusedBytes, accept, hpending, hpc, entryBytes]
    · have hne : h ≠ g := fun heq => hg heq.symm
      rcases hpc with hpc | ⟨hpc, -⟩ <;>
        simp [heldBytes, refusedBytes, accept, hpending, hpc, hg, hne]

/-- What a producer has read grows by what it reads, except for what is refused. -/
theorem heldBytes_step (hs : step resolve s e = some s') (h : ℕ) :
    s'.heldBytes h ++ refusedBytes s s' h e = s.heldBytes h ++ readBytes h e := by
  by_cases henter : ∃ g w, e = .logs (.pushEnter g w)
  · obtain ⟨g, w, rfl⟩ := henter
    have hnil : readBytes h (.logs (.pushEnter g w)) = [] := rfl
    rw [heldBytes_enter hs h, hnil, List.append_nil]
  · have hne : ∀ g w, e ≠ .logs (.pushEnter g w) := fun g w heq => henter ⟨g, w, heq⟩
    have hrefused : refusedBytes s s' h e = [] := by
      unfold refusedBytes
      split
      · exact absurd rfl (hne _ _)
      · rfl
    obtain ⟨hp, hacc⟩ := step_pipeline hs
    rw [accept_eq hne] at hacc
    rw [hrefused, List.append_nil, heldBytes, heldBytes, hacc, List.append_assoc]
    congr 1
    by_cases hread : ∃ g chunk, e = .read g chunk
    · obtain ⟨g, chunk, rfl⟩ := hread
      obtain ⟨-, i, -, hlogs⟩ := Pipeline.read_step hp
      obtain ⟨hidle, hv⟩ := LogSystem.view_pushCall hlogs
      rw [hv]
      by_cases hg : g = h
      · subst hg
        have hnone : s.pipeline.logs.view.pending g = none := by
          simp [LogSystem.view, hidle, LogSystem.pendingOf]
        simp [entryBytes, readBytes, hnone]
      · have hne : h ≠ g := fun heq => hg heq.symm
        simp [readBytes, hg, hne]
    · have hread' : ∀ g chunk, e ≠ .read g chunk := fun g chunk heq => hread ⟨g, chunk, heq⟩
      rw [Pipeline.pending_step hp hread' hne, readBytes]
      · exact (List.append_nil _).symm
      · exact hread'

/-- What is refused is the entry that the producer had in its hands, after the shutdown. -/
theorem refusedBytes_cases (hs : step resolve s e = some s') (h : ℕ) :
    refusedBytes s s' h e = [] ∨ ∃ entry, s.pipeline.logs.view.pending h = some entry ∧
      refusedBytes s s' h e = entry.bytes ∧ s'.pipeline.logs.pushPc h = .unlock (-1) ∧
      s.pipeline.logs.buf.shutdown = true := by
  unfold refusedBytes
  split
  · rename_i g w
    split_ifs with hrefused
    · obtain ⟨rfl, hpc⟩ := hrefused
      cases hentry : s.pipeline.logs.view.pending g with
      | none => exact .inl rfl
      | some entry =>
        refine .inr ⟨entry, rfl, rfl, hpc, ?_⟩
        obtain ⟨p, hp, rfl⟩ := Option.map_eq_some_iff.mp hs
        obtain ⟨logs, hlogs, rfl⟩ := Pipeline.step_logs hp
        rcases LogSystem.pushEnter_pending hlogs with ⟨-, hno⟩ | ⟨-, hzero | ⟨-, hd⟩⟩
        · exact absurd hpc (hno _)
        · exact absurd (hzero.symm.trans hpc) (by simp)
        · exact hd
    · exact .inl rfl
  · exact .inl rfl

end Traced

end Jackfruit
