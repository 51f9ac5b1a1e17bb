import Jackfruit.Containers

/-!
# The end of a container's log

A producer sees the end of its log when nobody holds the write end of the pipe any more
(`EndOfFile`). The start closes the supervisor's copy after its own `clone`, but another start may
`clone` before that, and its container gets a copy too, for as long as it lives
(`log_pipe_outlives_container`). If no start clones while another one has its write end open, the
write end is held by the container's own processes only (`log_pipe_ends_with_container`).
-/

set_option linter.unusedSectionVars false

namespace Jackfruit

/-- The start whose pipe is written through this file. -/
def File.writer : File → Option ℕ
  | .pipeWrite h => some h
  | _ => none

namespace Processes

variable {s s' : Processes} {e : ProcessEvent} {g h k : ℕ} {p : Proc}

/-- When a start clones its child, no other start has its write end open. -/
def ClonesAlone (s : Processes) : ProcessEvent → Prop
  | .engine (.clone h (.ok _)) => ∀ d ∈ s.fds, ∀ x ∈ d, ∀ g ∈ x.file.writer, g = h
  | _ => True

instance (s : Processes) (e : ProcessEvent) : Decidable (s.ClonesAlone e) := by
  unfold ClonesAlone
  split <;> infer_instance

theorem ClonesAlone.holds {pid : ℤ} (hc : s.ClonesAlone (.engine (.clone h (.ok pid))))
    (hg : s.fds.Holds (.pipeWrite g)) : g = h := by
  obtain ⟨d, hd, hfile⟩ := hg
  obtain ⟨x, rfl, hx⟩ := Option.map_eq_some_iff.mp hfile
  exact hc (some x) hd x rfl g (by rw [hx]; rfl)

/-- Nobody can write to the pipe of `h` : a read of it that finds it empty returns `0`. -/
def EndOfFile (s : Processes) (h : ℕ) : Prop :=
  ¬s.fds.Holds (.pipeWrite h) ∧ ∀ g k p, s.proc g k = some p → ¬p.fds.Holds (.pipeWrite h)

/-- The write ends that the containers hold are their own. -/
def OwnWriters (s : Processes) : Prop :=
  ∀ g k p, s.proc g k = some p → ∀ h, p.fds.Holds (.pipeWrite h) → h = g

/-- `child_main` opens nothing but `/dev/null`. -/
theorem holds_of_childStep {p' : Proc} {ok : Bool} {f : File} (hs : p.childStep ok = some p')
    (hh : p'.fds.Holds f) : f = .devNull ∨ p.fds.Holds f := by
  unfold Proc.childStep at hs
  split at hs
  case h_4 =>
    split_ifs at hs <;> cases hs
    · exact hh.of_openFile
    · exact .inr hh
  all_goals cases hs
  all_goals first
    | exact .inr hh
    | exact .inr hh.of_dup2
    | exact .inr hh.of_close
    | exact .inr hh.of_exec

/-- Besides what it opens, a process of a container holds what its container held before, or the
supervisor at its `clone`. -/
theorem holds_step {f : File} (hs : s.step e = some s') (hp : s'.proc g k = some p)
    (hh : p.fds.Holds f) :
    f = .devNull ∨ f = .other ∨ (∃ k₀ p₀, s.proc g k₀ = some p₀ ∧ p₀.fds.Holds f) ∨
      ∃ pid, e = .engine (.clone g (.ok pid)) ∧ s.fds.Holds f := by
  cases step_proc hs hp with
  | same _ hold => exact .inr (.inr (.inl ⟨k, p, hold, hh⟩))
  | clone pid he => exact .inr (.inr (.inr ⟨pid, he, hh⟩))
  | setup p₀ _ ok _ hold hstep =>
    rcases holds_of_childStep hstep hh with heq | hh
    · exact .inl heq
    · exact .inr (.inr (.inl ⟨0, p₀, hold, hh⟩))
  | forked k₀ _ hold => exact .inr (.inr (.inl ⟨k₀, p, hold, hh⟩))
  | program p₀ op hold _ hop =>
    rcases hop _ _ hh with heq | hh
    · exact .inr (.inl heq)
    · exact .inr (.inr (.inl ⟨k, p₀, hold, hh⟩))

theorem OwnWriters.step (ow : OwnWriters s) (hc : s.ClonesAlone e) (hs : s.step e = some s') :
    OwnWriters s' := by
  intro g k p hp h hh
  rcases holds_step hs hp hh with heq | heq | ⟨k₀, p₀, hold, hh⟩ | ⟨pid, rfl, hh⟩
  · cases heq
  · cases heq
  · exact ow g k₀ p₀ hold h hh
  · exact hc.holds hh

theorem OwnWriters.of_run (hr : Transition.Run Processes.step ClonesAlone init s) : OwnWriters s :=
  hr.invariant (fun _ _ _ hp => by simp [init] at hp) fun _ _ _ ow hc hs => ow.step hc hs

/-- Once a start has closed its write end the supervisor does not hold it. -/
theorem Accounts.not_holds_pipeWrite (a : Accounts s) (hrel : .writeEnd ∈ s.released h) :
    ¬s.fds.Holds (.pipeWrite h) := by
  have htracked : File.Tracked (.pipeWrite h) := trivial
  rw [a.tracks.holds_iff htracked, not_not]
  exact if_neg fun ho => ho.2 hrel

/-- If no start clones while another one has its write end open, then after a start has closed its
write end only the processes of its container hold it, and its producer sees end of file when they
are gone. -/
theorem log_pipe_ends_with_container (hr : Transition.Run step ClonesAlone init s)
    (hrel : .writeEnd ∈ s.released h) :
    ¬s.fds.Holds (.pipeWrite h) ∧
      (∀ g k p, s.proc g k = some p → p.fds.Holds (.pipeWrite h) → g = h) ∧
      ((∀ k, s.proc h k = none) → s.EndOfFile h) := by
  have hclosed := (Accounts.of_run hr).not_holds_pipeWrite hrel
  have hown (g k : ℕ) (p : Proc) (hp : s.proc g k = some p) (hh : p.fds.Holds (.pipeWrite h)) :
      g = h := (OwnWriters.of_run hr g k p hp h hh).symm
  refine ⟨hclosed, hown, fun hgone => ⟨hclosed, fun g k p hp hh => ?_⟩⟩
  obtain rfl := hown g k p hp hh
  exact absurd ((hgone k).symm.trans hp) nofun

/-- A container that has ended, after the start of another one. -/
theorem log_pipe_ends_with_container_example :
    ∃ s, Transition.Run step ClonesAlone init s ∧ s.proc 1 0 ≠ none ∧
      ¬s.fds.Holds (.pipeWrite 0) ∧
      (∀ g k p, s.proc g k = some p → p.fds.Holds (.pipeWrite 0) → g = 0) ∧
      ((∀ k, s.proc 0 k = none) → s.EndOfFile 0) := by
  obtain ⟨s, hr, hp, hrel⟩ := Transition.exists_run_of_exec step ClonesAlone init
    [.engine .loopTest, .engine (.accept 0),
      .engine (.recv 0 ⟨REQ_START, cstr "a", cstr "ra", cstr "true", 40, 64, 0⟩),
      .engine .loopTest, .engine (.accept 1),
      .engine (.recv 1 ⟨REQ_START, cstr "b", cstr "rb", cstr "sleep 9", 40, 64, 0⟩),
      .engine (.reserve 0 0), .engine (.pipe 0 none), .engine (.mallocStack 0 true),
      .engine (.mallocChild 0 true), .engine (.clone 0 (.ok 7)), .cleanup 0, .cleanup 0,
      .engine (.reserve 1 0), .engine (.pipe 1 none), .engine (.mallocStack 1 true),
      .engine (.mallocChild 1 true), .engine (.clone 1 (.ok 8)), .engine (.exit 0 0)]
    (fun s => s.proc 1 0 ≠ none ∧ .writeEnd ∈ s.released 0) (by decide)
  exact ⟨s, hr, hp, log_pipe_ends_with_container hr hrel⟩

/-- The container of `1` is cloned between the `pipe` of `0` and the `close` of its write end. The
container of `0` has ended, and the program in the other one holds the write end of its pipe. -/
theorem log_pipe_outlives_container :
    ∃ s : Processes, s.Reachable ∧ .writeEnd ∈ s.released 0 ∧
      s.engine.child 0 = some ⟨7, .zombie 0⟩ ∧
      ∃ p, s.proc 1 0 = some p ∧ p.pc = .program ∧ p.fds.Holds (.pipeWrite 0) := by
  obtain ⟨s, hr, hrel, hchild, hp⟩ := Transition.exists_run_of_exec step Transition.Always init
    [.engine .loopTest, .engine (.accept 0),
      .engine (.recv 0 ⟨REQ_START, cstr "a", cstr "ra", cstr "true", 40, 64, 0⟩),
      .engine .loopTest, .engine (.accept 1),
      .engine (.recv 1 ⟨REQ_START, cstr "b", cstr "rb", cstr "sleep 9", 40, 64, 0⟩),
      .engine (.reserve 0 0), .engine (.pipe 0 none), .engine (.mallocStack 0 true),
      .engine (.mallocChild 0 true), .engine (.reserve 1 0), .engine (.pipe 1 none),
      .engine (.mallocStack 1 true), .engine (.mallocChild 1 true), .engine (.clone 1 (.ok 8)),
      .engine (.clone 0 (.ok 7)), .cleanup 0, .cleanup 0, .engine (.exit 0 0),
      .child 1 true, .child 1 true, .child 1 true, .child 1 true, .child 1 true, .child 1 true,
      .child 1 true, .child 1 true, .child 1 true]
    (fun s => .writeEnd ∈ s.released 0 ∧ s.engine.child 0 = some ⟨7, .zombie 0⟩ ∧
      (s.proc 1 0).any (fun p => decide (p.pc = .program ∧ p.fds.Holds (.pipeWrite 0))) = true)
    (by decide)
  obtain ⟨p, hp, hheld⟩ := (Option.any_eq_true _ _).mp hp
  exact ⟨s, hr, hrel, hchild, p, hp, of_decide_eq_true hheld⟩

end Processes

end Jackfruit
