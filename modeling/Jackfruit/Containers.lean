import Jackfruit.Accounts

/-!
# What happens in the containers

`ProcStep` lists everything that a step can do to the processes of a container : `clone` makes the
first one with the supervisor's table, `child_main` goes on by one statement, and after `exec` a
program forks and changes its own descriptors. A program never gets hold of a file of the
supervisor's that it did not have (`ProgramOp`).
-/

set_option linter.unusedSectionVars false

namespace FdTable

variable {F : Type*} {t : FdTable F} {n m : ℕ} {f g : F} {cloexec : Bool}

theorem Holds.of_openFile (h : (t.openFile f cloexec).Holds g) : g = f ∨ t.Holds g := by
  obtain ⟨n, hn⟩ := holds_iff.mp h
  rw [file_openFile] at hn
  split_ifs at hn
  · exact Or.inl (Option.some.inj hn).symm
  · exact Or.inr (holds_iff.mpr ⟨n, hn⟩)

theorem Holds.of_close (h : (t.close n).Holds f) : t.Holds f := by
  obtain ⟨m, hm⟩ := holds_iff.mp h
  rw [file_close] at hm
  split_ifs at hm
  exact holds_iff.mpr ⟨m, hm⟩

theorem Holds.of_dup2 (h : (t.dup2 n m).Holds f) : t.Holds f := by
  cases hn : t.file n with
  | none =>
    simp only [dup2, hn] at h
    exact h
  | some x =>
    obtain ⟨k, hk⟩ := holds_iff.mp h
    rw [file_dup2 hn] at hk
    dsimp only at hk
    split_ifs at hk
    · exact holds_iff.mpr ⟨n, hn.trans hk⟩
    · exact holds_iff.mpr ⟨k, hk⟩

theorem Holds.of_exec (h : t.exec.Holds f) : t.Holds f := by
  obtain ⟨n, hn⟩ := holds_iff.mp h
  refine holds_iff.mpr ⟨n, ?_⟩
  unfold file at hn ⊢
  rw [get_exec] at hn
  cases hd : t.get n with
  | none => simp [hd] at hn
  | some d =>
    rw [hd, Option.filter_some] at hn
    split_ifs at hn
    · exact hn
    · cases hn

end FdTable

namespace Jackfruit

/-- What `clone` makes of the arguments of a start. -/
def Proc.spawned (s : Processes) (h : ℕ) : Proc where
  arg := (s.engine.req h).childArg
  writeFd := (s.pipefd h).2
  pc := .dupStdout
  fds := s.fds
  inherited := s.fds
  hostname := none
  root := none
  command := none

/-- What a program does to its descriptors : it opens files of its own, duplicates and closes. -/
def ProgramOp (f : FdTable File → FdTable File) : Prop :=
  ∀ t x, (f t).Holds x → x = .other ∨ t.Holds x

namespace Processes

variable {s s' : Processes} {e : ProcessEvent} {g h k : ℕ} {p p' : Proc}

/-- Everything that a step can do to the process `k` of the container of `g`. -/
inductive ProcStep (s : Processes) (e : ProcessEvent) (g k : ℕ) : Proc → Prop
  | same (p : Proc) : s.proc g k = some p → ProcStep s e g k p
  | clone (pid : ℤ) : e = .engine (.clone g (.ok pid)) → k = 0 →
      ProcStep s e g k (Proc.spawned s g)
  | setup (p p' : Proc) (ok : Bool) : k = 0 → s.proc g 0 = some p → p.childStep ok = some p' →
      ProcStep s e g k p'
  | forked (k₀ : ℕ) (p : Proc) : s.proc g k₀ = some p → p.pc = .program → ProcStep s e g k p
  | program (p : Proc) (f : FdTable File → FdTable File) : s.proc g k = some p →
      p.pc = .program → ProgramOp f → ProcStep s e g k { p with fds := f p.fds }

/-- Only one process changes. -/
theorem proc_setProc {o : Option Proc} {h k' : ℕ} (hp : (s.setProc h k' o).proc g k = some p) :
    s.proc g k = some p ∨ g = h ∧ k = k' ∧ o = some p := by
  simp only [setProc] at hp
  rcases eq_or_ne g h with rfl | hgh
  · rw [Function.update_self] at hp
    rcases eq_or_ne k k' with rfl | hkk
    · rw [Function.update_self] at hp
      exact Or.inr ⟨rfl, rfl, hp⟩
    · rw [Function.update_of_ne hkk] at hp
      exact Or.inl hp
  · rw [Function.update_of_ne hgh] at hp
    exact Or.inl hp

theorem proc_closeFd {n : ℕ} : (s.closeFd n).proc = s.proc := by
  simp only [closeFd]
  split <;> rfl

theorem proc_perform {c : Cleanup} : (s.perform h c).proc = s.proc := by
  cases c <;> simp only [perform, proc_closeFd, release]

/-- What the supervisor's threads do to the processes of a container. -/
theorem proc_resources {e : Event} (hp : (s.resources e).proc g k = some p) :
    s.proc g k = some p ∨
      (∃ pid, e = .clone g (.ok pid)) ∧ k = 0 ∧ p = Proc.spawned s g := by
  cases e with
  | signal =>
    refine Or.inl ?_
    simp only [resources] at hp
    split at hp
    · exact proc_closeFd ▸ hp
    · exact hp
  | clone h res =>
    cases res with
    | error text => exact Or.inl hp
    | ok pid =>
      rcases proc_setProc (s := s) hp with hold | ⟨rfl, rfl, heq⟩
      · exact Or.inl hold
      · exact Or.inr ⟨⟨pid, rfl⟩, rfl, (Option.some.inj heq).symm⟩
  | pipe h err => cases err <;> exact Or.inl hp
  | mallocStack h ok | mallocChild h ok => cases ok <;> exact Or.inl hp
  | mallocArg h ok =>
    refine Or.inl ?_
    simp only [resources] at hp
    repeat' split at hp
    all_goals exact hp
  | exit h status =>
    refine Or.inl ?_
    simp only [resources] at hp
    rcases eq_or_ne g h with rfl | hgh
    · rw [Function.update_self] at hp
      cases hp
    · rwa [Function.update_of_ne hgh] at hp
  | reap =>
    refine Or.inl ?_
    simp only [resources, freeStack] at hp
    repeat' split at hp
    all_goals exact hp
  | _ => exact Or.inl hp

theorem ProgramOp.exec : ProgramOp FdTable.exec :=
  fun _ _ h => Or.inr h.of_exec

theorem ProgramOp.openFile (cloexec : Bool) : ProgramOp fun t => t.openFile .other cloexec :=
  fun _ _ h => h.of_openFile

theorem ProgramOp.dup (n m : ℕ) : ProgramOp fun t => t.dup2 n m :=
  fun _ _ h => Or.inr h.of_dup2

theorem ProgramOp.close (n : ℕ) : ProgramOp fun t => t.close n :=
  fun _ _ h => Or.inr h.of_close

/-- A program changes the descriptors of its own process. -/
theorem program_step {h k' : ℕ} {f : FdTable File → FdTable File} (hf : ProgramOp f)
    (hs : s.program h k' f = some s') (hp : s'.proc g k = some p) : ProcStep s e g k p := by
  unfold program at hs
  split at hs
  · rename_i p₀ hp₀
    split_ifs at hs with hpc
    cases hs
    rcases proc_setProc hp with hold | ⟨rfl, rfl, heq⟩
    · exact .same p hold
    · obtain rfl := Option.some.inj heq
      exact .program p₀ f hp₀ hpc hf
  · cases hs

/-- Everything that a step does to the processes of the containers. -/
theorem step_proc (hs : s.step e = some s') (hp : s'.proc g k = some p) : ProcStep s e g k p := by
  cases e with
  | engine e =>
    rw [(step_engine hs).proc] at hp
    rcases proc_resources hp with hold | ⟨⟨pid, rfl⟩, hk, rfl⟩
    · exact .same p hold
    · exact .clone pid rfl hk
  | cleanup h =>
    simp only [step] at hs
    split at hs
    · cases hs
      exact .same p (proc_perform (s := s) ▸ hp)
    · cases hs
  | producerFree h =>
    simp only [step] at hs
    split_ifs at hs
    cases hs
    exact .same p hp
  | producerClose h =>
    simp only [step] at hs
    split_ifs at hs
    cases hs
    exact .same p (proc_closeFd (s := s) ▸ hp)
  | openOther =>
    cases hs
    exact .same p hp
  | closeOther n =>
    simp only [step] at hs
    split_ifs at hs
    cases hs
    exact .same p (proc_closeFd (s := s) ▸ hp)
  | child h ok =>
    obtain ⟨p', hp', rfl⟩ := Option.map_eq_some_iff.mp hs
    obtain ⟨p₀, hp₀, hstep⟩ := Option.bind_eq_some_iff.mp hp'
    rcases proc_setProc hp with hold | ⟨rfl, rfl, heq⟩
    · exact .same p hold
    · obtain rfl := Option.some.inj heq
      exact .setup p₀ p' ok rfl hp₀ hstep
  | fork h k₀ k' =>
    simp only [step] at hs
    split at hs
    · rename_i p₀ hp₀ hnone
      split_ifs at hs with hpc
      cases hs
      rcases proc_setProc hp with hold | ⟨rfl, rfl, heq⟩
      · exact .same p hold
      · obtain rfl := Option.some.inj heq
        exact .forked k₀ p₀ hp₀ hpc
    · cases hs
  | execve h k' => exact program_step ProgramOp.exec hs hp
  | openFile h k' cloexec => exact program_step (ProgramOp.openFile cloexec) hs hp
  | dup h k' n m => exact program_step (ProgramOp.dup n m) hs hp
  | close h k' n => exact program_step (ProgramOp.close n) hs hp
  | exit h k' =>
    simp only [step] at hs
    split_ifs at hs
    cases hs
    rcases proc_setProc hp with hold | ⟨-, -, heq⟩
    · exact .same p hold
    · cases heq

end Processes

end Jackfruit
