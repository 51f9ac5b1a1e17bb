import Jackfruit.Containers

/-!
# What a container inherits

`child_main` closes its own copy of the write end and replaces the standard streams. All other
descriptors are those that the supervisor had at the `clone`, and no one of them has close-on-exec:
a container gets the supervisor's control socket, the connections of all clients that are being
served, its own among them, and the read ends of all log pipes (`container_holds_channels`). It
inherits `supervisor_signal_handler` too, up to the `execl` : a SIGTERM that comes before makes it
close its control socket, which is not modelled.
-/

set_option linter.unusedSectionVars false

namespace Jackfruit

/-- The supervisor's channels : the control socket, a connection, or the read end of a log. -/
def File.Channel : File → Prop
  | .listening | .client _ | .pipeRead _ => True
  | _ => False

/-- No descriptor leads to a channel of the supervisor. -/
def Isolated (t : FdTable File) : Prop :=
  ∀ f : File, f.Channel → ¬t.Holds f

namespace Processes

variable {s s' : Processes} {e : ProcessEvent} {g h k : ℕ} {p : Proc}

/-- What a step does to the supervisor's descriptors. -/
inductive FdsStep (t : FdTable File) : FdTable File → Prop
  | same : FdsStep t t
  | opened (f : File) : FdsStep t (t.openFile f false)
  | piped (f f' : File) : FdsStep t ((t.openFile f false).openFile f' false)
  | closed (n : ℕ) (f : File) : t.file n = some f → f ≠ .std → FdsStep t (t.close n)

theorem Accounts.step_fds (a : Accounts s) (hs : s.step e = some s') : FdsStep s.fds s'.fds := by
  cases e with
  | engine e =>
    have st := Processes.step_engine hs
    rw [st.fds]
    have quiet (he : e.Quiet) : FdsStep s.fds (s.resources e).fds := by
      rw [(a.resources_quiet st.engine he).2.2.2]
      exact .same
    cases e with
    | signal =>
      simp only [resources]
      split
      · rename_i n hn
        rw [closeFd_other (a.file_listening hn) (by simp) (by simp)]
        exact .closed n _ (a.file_listening hn) (by simp)
      · exact .same
    | accept h => exact .opened _
    | pipe h err =>
      cases err with
      | none => exact .piped _ _
      | some text => exact quiet trivial
    | _ => exact quiet trivial
  | cleanup h =>
    simp only [Processes.step] at hs
    split at hs
    · rename_i c rest htodo
      cases hs
      have hmem : c ∈ s.todo h := by
        rw [htodo]
        exact List.mem_cons_self
      change FdsStep s.fds (s.perform h c).fds
      rw [(a.performed hmem).fds]
      cases c with
      | closeRead =>
        exact .closed _ _ (a.file_pipeRead ((a.balanced h).open_of_mem hmem rfl)) (by simp)
      | closeWrite =>
        exact .closed _ _ (a.file_pipeWrite ((a.balanced h).open_of_mem hmem rfl)) (by simp)
      | closeClient =>
        exact .closed _ _ (a.file_client ((a.balanced h).serves_of_mem hmem)) (by simp)
      | freeStack | freeChild | kill => exact .same
    · cases hs
  | producerFree h =>
    simp only [Processes.step] at hs
    split_ifs at hs
    cases hs
    exact .same
  | producerClose h =>
    simp only [Processes.step] at hs
    split_ifs at hs with hc
    cases hs
    have hf := a.file_pipeRead ⟨a.producer h hc.1, hc.2.2⟩
    rw [closeFd_pipeRead hf]
    exact .closed _ _ hf (by simp)
  | openOther =>
    cases hs
    exact .opened _
  | closeOther n =>
    simp only [Processes.step] at hs
    split_ifs at hs with hf
    cases hs
    rw [closeFd_other hf (by simp) (by simp)]
    exact .closed n _ hf (by simp)
  | _ =>
    rw [step_container rfl hs]
    exact .same

end Processes

/-! ## The supervisor's table -/

/-- The standard streams are open, and `exec` closes nothing. -/
structure Inheritable (t : FdTable File) : Prop where
  std : ∀ n < 3, t.file n = some .std
  kept : ∀ n d, t.get n = some d → d.cloexec = false

namespace Inheritable

variable {t : FdTable File} {f : File} {n m : ℕ}

theorem place {d : Desc File} (hk : ∀ n d, t.get n = some d → d.cloexec = false)
    (hd : d.cloexec = false) : ∀ n d', (t.place m d).get n = some d' → d'.cloexec = false := by
  intro n d' hn
  rw [FdTable.get_place] at hn
  split_ifs at hn
  · exact Option.some.inj hn ▸ hd
  · exact hk n d' hn

theorem openFile (hi : Inheritable t) : Inheritable (t.openFile f false) where
  std n hn := by
    rw [FdTable.file_openFile]
    split_ifs with heq
    · have hstd := hi.std n hn
      rw [heq, FdTable.file_lowest] at hstd
      cases hstd
    · exact hi.std n hn
  kept := place hi.kept rfl

theorem close (hi : Inheritable t) (hf : t.file n = some f) (hne : f ≠ .std) :
    Inheritable (t.close n) where
  std m hm := by
    rw [FdTable.file_close]
    split_ifs with heq
    · exact absurd (Option.some.inj (hf.symm.trans (heq ▸ hi.std m hm))) hne
    · exact hi.std m hm
  kept m d hd := by
    rw [FdTable.get_close] at hd
    split_ifs at hd
    exact hi.kept m d hd

theorem step {t' : FdTable File} (hi : Inheritable t) (hs : Processes.FdsStep t t') :
    Inheritable t' := by
  cases hs with
  | same => exact hi
  | opened f => exact hi.openFile
  | piped f f' => exact hi.openFile.openFile
  | closed n f hf hne => exact hi.close hf hne

theorem of_run {C : Processes → ProcessEvent → Prop} {s : Processes}
    (hr : Transition.Run Processes.step C Processes.init s) : Inheritable s.fds := by
  refine hr.invariant_of_reached (I := fun s => Inheritable s.fds) ?_ fun _ _ _ hr' hi _ hs =>
    hi.step ((Processes.Accounts.of_run hr').step_fds hs)
  constructor
  · decide
  · intro n d hd
    match n with
    | 0 | 1 | 2 | 3 =>
      obtain rfl := Option.some.inj hd
      rfl
    | n + 4 => simp [Processes.init, FdTable.get] at hd

end Inheritable

/-! ## The way of `child_main` to `execl` -/

/-- The descriptor that `child_main` has to itself at a program point, and the file there. -/
def ChildPc.scratch (pc : ChildPc) (writeFd h : ℕ) : Option (ℕ × File) :=
  match pc with
  | .dupStdout | .dupStderr | .closeWrite => some (writeFd, .pipeWrite h)
  | .dupNull devnull | .closeNull devnull => some (devnull, .devNull)
  | _ => none

/-- A process on its way through `child_main` : what it has inherited, and that the channels are
where they were. -/
structure Setup (h : ℕ) (p : Proc) : Prop where
  std : ∀ n < 3, p.inherited.file n = some .std
  client : p.inherited.Holds (.client h)
  readEnd : p.inherited.Holds (.pipeRead h)
  scratch : ∀ n f, p.pc.scratch p.writeFd h = some (n, f) → p.fds.file n = some f
  channels : ∀ f : File, f.Channel → ∀ n, p.fds.file n = some f ↔ p.inherited.file n = some f
  kept : ∀ n d, p.fds.get n = some d → d.cloexec = false

/-- The channels are where the inherited table has them. -/
def SameChannels (t inherited : FdTable File) : Prop :=
  ∀ f : File, f.Channel → ∀ n, t.file n = some f ↔ inherited.file n = some f

namespace SameChannels

variable {t inherited : FdTable File} {f : File} {n m : ℕ}

/-- A descriptor that holds no channel becomes another one that holds none. -/
theorem of_file {t' : FdTable File} (hc : SameChannels t inherited)
    (hfile : ∀ k, t'.file k = t.file k ∨
      (∀ f : File, f.Channel → t'.file k ≠ some f) ∧ ∀ f : File, f.Channel → t.file k ≠ some f) :
    SameChannels t' inherited := by
  intro f hf k
  rw [← hc f hf k]
  rcases hfile k with heq | ⟨hnew, hold⟩
  · rw [heq]
  · exact iff_of_false (hnew f hf) (hold f hf)

theorem dup2 (hc : SameChannels t inherited) (hstd : ∀ n < 3, inherited.file n = some .std)
    (hf : t.file n = some f) (hnc : ¬f.Channel) (hm : m < 3) :
    SameChannels (t.dup2 n m) inherited := by
  refine hc.of_file fun k => ?_
  rw [FdTable.file_dup2 hf]
  dsimp only
  split_ifs with hk
  · refine Or.inr ⟨fun f' hf' heq => hnc (Option.some.inj heq ▸ hf'), fun f' hf' heq => ?_⟩
    have hstd' := (hc f' hf' k).mp heq
    rw [hk, hstd m hm] at hstd'
    obtain rfl := Option.some.inj hstd'
    exact hf'
  · exact Or.inl rfl

theorem close (hc : SameChannels t inherited) (hf : t.file n = some f) (hnc : ¬f.Channel) :
    SameChannels (t.close n) inherited := by
  refine hc.of_file fun k => ?_
  rw [FdTable.file_close]
  split_ifs with hk
  · refine Or.inr ⟨fun _ _ => nofun, fun f' hf' heq => hnc ?_⟩
    rw [hk, hf] at heq
    exact Option.some.inj heq ▸ hf'
  · exact Or.inl rfl

theorem openFile {cloexec : Bool} (hc : SameChannels t inherited) (hnc : ¬f.Channel) :
    SameChannels (t.openFile f cloexec) inherited := by
  refine hc.of_file fun k => ?_
  rw [FdTable.file_openFile]
  split_ifs with hk
  · refine Or.inr ⟨fun f' hf' heq => hnc (Option.some.inj heq ▸ hf'), fun f' _ heq => ?_⟩
    rw [hk, FdTable.file_lowest] at heq
    cases heq
  · exact Or.inl rfl

end SameChannels

namespace Setup

variable {h : ℕ} {p p' : Proc}

theorem kept_dup2 {t : FdTable File} {n m : ℕ} (hk : ∀ n d, t.get n = some d → d.cloexec = false) :
    ∀ k d, (t.dup2 n m).get k = some d → d.cloexec = false := by
  unfold FdTable.dup2
  split
  · split_ifs
    · exact hk
    · exact Inheritable.place hk rfl
  · exact hk

theorem step {ok : Bool} (st : Setup h p) (hs : p.childStep ok = some p')
    (hpc : p'.pc ≠ .program) : Setup h p' := by
  obtain ⟨std, client, readEnd, scratch, channels, kept⟩ := st
  have hdup {n m : ℕ} {f : File} (hf : p.fds.file n = some f) :
      (p.fds.dup2 n m).file n = some f := by
    rw [FdTable.file_dup2 hf]
    dsimp only
    split_ifs
    · rfl
    · exact hf
  unfold Proc.childStep at hs
  split at hs
  case h_1 hp | h_2 hp =>
    cases hs
    have hf := scratch p.writeFd (.pipeWrite h) (by rw [hp]; rfl)
    refine ⟨std, client, readEnd, ?_, SameChannels.dup2 channels std hf nofun (by decide),
      kept_dup2 kept⟩
    intro n f hn
    obtain ⟨rfl, rfl⟩ := Prod.mk.inj (Option.some.inj hn)
    exact hdup hf
  case h_3 hp =>
    cases hs
    have hf := scratch p.writeFd (.pipeWrite h) (by rw [hp]; rfl)
    refine ⟨std, client, readEnd, nofun, SameChannels.close channels hf nofun, ?_⟩
    intro n d hd
    dsimp only at hd
    rw [FdTable.get_close] at hd
    split_ifs at hd
    exact kept n d hd
  case h_4 =>
    split_ifs at hs <;> cases hs
    · refine ⟨std, client, readEnd, ?_, SameChannels.openFile channels nofun,
        Inheritable.place kept rfl⟩
      intro n f hn
      obtain ⟨rfl, rfl⟩ := Prod.mk.inj (Option.some.inj hn)
      rw [FdTable.file_openFile, if_pos rfl]
    · exact ⟨std, client, readEnd, nofun, channels, kept⟩
  case h_5 devnull hp =>
    cases hs
    have hf := scratch devnull .devNull (by rw [hp]; rfl)
    refine ⟨std, client, readEnd, ?_, SameChannels.dup2 channels std hf nofun (by decide),
      kept_dup2 kept⟩
    intro n f hn
    obtain ⟨rfl, rfl⟩ := Prod.mk.inj (Option.some.inj hn)
    exact hdup hf
  case h_6 devnull hp =>
    cases hs
    have hf := scratch devnull .devNull (by rw [hp]; rfl)
    refine ⟨std, client, readEnd, nofun, SameChannels.close channels hf nofun, ?_⟩
    intro n d hd
    dsimp only at hd
    rw [FdTable.get_close] at hd
    split_ifs at hd
    exact kept n d hd
  case h_7 | h_8 =>
    cases hs
    exact ⟨std, client, readEnd, nofun, channels, kept⟩
  case h_9 =>
    cases hs
    exact absurd rfl hpc
  case h_10 => cases hs

/-- What `exec` leaves of a table without close-on-exec. -/
theorem file_exec {t : FdTable File} (hk : ∀ n d, t.get n = some d → d.cloexec = false) :
    t.exec.file = t.file := by
  funext n
  unfold FdTable.file
  rw [FdTable.get_exec]
  cases hd : t.get n with
  | none => rfl
  | some d => simp [Option.filter_some, hk n d hd]

theorem holds_exec (st : Setup h p) {f : File} (hf : f.Channel) :
    p.fds.exec.Holds f ↔ p.inherited.Holds f := by
  rw [FdTable.holds_iff, FdTable.holds_iff, file_exec st.kept]
  exact exists_congr fun n => st.channels f hf n

end Setup

namespace Processes

variable {s s' : Processes} {e : ProcessEvent} {g h k : ℕ} {p : Proc}

/-- What a new container starts with. -/
theorem setup_spawned {i : Slot} (a : Accounts s) (hi : Inheritable s.fds)
    (hpc : (s.engine.handler h).pc = .clone i) : Setup h (Proc.spawned s h) := by
  have hb := a.balanced h
  have hpc' : (s.account h).pc = .clone i := hpc
  have hacq : (s.account h).acquired = [.readEnd, .writeEnd, .stack, .childArg] :=
    hb.taken _ (by rw [hpc']; rfl)
  have hrel : (s.account h).released = [] := by
    have hbal := (hb.balance _ (by rw [hpc']; rfl)).length_eq
    rw [hacq] at hbal
    exact List.length_eq_zero_iff.mp (by simp at hbal; omega)
  have hopen (r : Resource) (hr : r ∈ [Resource.readEnd, .writeEnd]) : (s.account h).Open r := by
    refine ⟨?_, by simp [hrel]⟩
    rw [hacq]
    exact List.mem_append_left [.stack, .childArg] hr
  have hserves : (s.account h).Serves := by simp [Account.Serves, hpc']
  constructor
  case std => exact hi.std
  case client => exact FdTable.holds_iff.mpr ⟨_, a.file_client hserves⟩
  case readEnd => exact FdTable.holds_iff.mpr ⟨_, a.file_pipeRead (hopen _ (by simp))⟩
  case scratch =>
    intro n f hn
    obtain ⟨rfl, rfl⟩ := Prod.mk.inj (Option.some.inj hn)
    exact a.file_pipeWrite (hopen _ (by simp))
  case channels => exact fun _ _ _ => Iff.rfl
  case kept => exact hi.kept

/-- Every process before its `exec` is on its way through `child_main`. -/
theorem setup_of_run {C : Processes → ProcessEvent → Prop}
    (hr : Transition.Run Processes.step C init s) (hp : s.proc h k = some p)
    (hpc : p.pc ≠ .program) : Setup h p := by
  revert h k p
  refine hr.invariant_of_reached
    (I := fun s => ∀ {h k p}, s.proc h k = some p → p.pc ≠ .program → Setup h p)
    (fun hp => by simp [init] at hp) ?_
  intro u e v hu ih _ hs h k p hp hpc
  cases step_proc hs hp with
  | same _ hold => exact ih hold hpc
  | clone pid he =>
    subst he
    have st := step_engine hs
    obtain ⟨i, hclone⟩ : ∃ i, (u.engine.handler h).pc = .clone i := by
      rcases Engine.step_pc st.engine h with hm | ⟨hne, -⟩
      · generalize (u.engine.handler h).pc = pc at hm
        generalize (v.engine.handler h).pc = pc' at hm
        cases hm
        exact ⟨_, rfl⟩
      · exact absurd rfl hne
    exact setup_spawned (.of_run hu) (.of_run hu) hclone
  | setup p₀ _ ok _ hold hstep =>
    refine (ih hold ?_).step hstep hpc
    intro heq
    simp [Proc.childStep, heq] at hstep
  | forked k₀ _ _ hprog => exact absurd hprog hpc
  | program p₀ f _ hprog => exact absurd hprog hpc

/-- Every container has channels of the supervisor at its `execl`, and keeps them over it : the
connections and the logs that were open at its `clone`, its own client's connection and its own log
among them, and no control socket but one that was open then. -/
theorem container_holds_channels (hr : s.Reachable) (hp : s.proc h k = some p)
    (hpc : p.pc = .exec) :
    ¬Isolated p.fds ∧ ¬Isolated p.fds.exec ∧
      -- Not so the control socket: a SIGTERM before `execl` makes the container close it.
      (∀ f : File, f.Channel → f ≠ .listening → (p.fds.exec.Holds f ↔ p.inherited.Holds f)) ∧
      (p.fds.exec.Holds .listening → p.inherited.Holds .listening) ∧
      p.fds.exec.Holds (.client h) ∧ p.fds.exec.Holds (.pipeRead h) := by
  have st : Setup h p := setup_of_run hr hp (by rw [hpc]; nofun)
  have hchannel : (File.client h).Channel ∧ (File.pipeRead h).Channel := ⟨trivial, trivial⟩
  have hclient : p.fds.exec.Holds (.client h) := (st.holds_exec hchannel.1).mpr st.client
  have hread : p.fds.exec.Holds (.pipeRead h) := (st.holds_exec hchannel.2).mpr st.readEnd
  exact ⟨fun hiso => hiso (.client h) trivial hclient.of_exec,
    fun hiso => hiso (.client h) trivial hclient, fun f hf _ => st.holds_exec hf,
    (st.holds_exec (f := .listening) trivial).mp, hclient, hread⟩

/-- The first container on an idle supervisor. -/
theorem container_holds_channels_example :
    ∃ s p, Reachable s ∧ s.proc 0 0 = some p ∧ p.pc = .exec ∧ ¬Isolated p.fds ∧
      ¬Isolated p.fds.exec ∧ p.fds.exec.Holds (.client 0) := by
  obtain ⟨s, hr, hp⟩ := Transition.exists_run_of_exec step Transition.Always init
    [.engine .loopTest, .engine (.accept 0),
      .engine (.recv 0 ⟨REQ_START, cstr "a", cstr "ra", cstr "true", 40, 64, 0⟩),
      .engine (.reserve 0 0), .engine (.pipe 0 none), .engine (.mallocStack 0 true),
      .engine (.mallocChild 0 true), .engine (.clone 0 (.ok 7)), .child 0 true, .child 0 true,
      .child 0 true, .child 0 true, .child 0 true, .child 0 true, .child 0 true, .child 0 true]
    (fun s => (s.proc 0 0).any (fun p => decide (p.pc = .exec)) = true) (by decide)
  obtain ⟨p, hp, hpc⟩ := (Option.any_eq_true _ _).mp hp
  obtain ⟨hbefore, hafter, -, -, hclient, -⟩ :=
    container_holds_channels hr hp (of_decide_eq_true hpc)
  exact ⟨s, p, hr, hp, of_decide_eq_true hpc, hbefore, hafter, hclient⟩

/-- A second container has the control socket, the first client's connection and the first log. -/
theorem second_container_holds_channels :
    ∃ s p, Reachable s ∧ s.proc 1 0 = some p ∧ p.pc = .exec ∧ p.fds.Holds .listening ∧
      p.fds.Holds (.client 0) ∧ p.fds.Holds (.pipeRead 0) := by
  obtain ⟨s, hr, hp⟩ := Transition.exists_run_of_exec step Transition.Always init
    [.engine .loopTest, .engine (.accept 0),
      .engine (.recv 0 ⟨REQ_RUN, cstr "a", cstr "ra", cstr "sleep 9", 40, 64, 0⟩),
      .engine (.reserve 0 0), .engine (.pipe 0 none), .engine (.mallocStack 0 true),
      .engine (.mallocChild 0 true), .engine (.clone 0 (.ok 7)), .cleanup 0, .cleanup 0,
      .engine (.mallocArg 0 true), .engine (.publish 0), .engine (.createProducer 0 true),
      .engine (.register 0), .engine .loopTest, .engine (.accept 1),
      .engine (.recv 1 ⟨REQ_START, cstr "b", cstr "rb", cstr "true", 40, 64, 0⟩),
      .engine (.reserve 1 0), .engine (.pipe 1 none), .engine (.mallocStack 1 true),
      .engine (.mallocChild 1 true), .engine (.clone 1 (.ok 8)), .child 1 true, .child 1 true,
      .child 1 true, .child 1 true, .child 1 true, .child 1 true, .child 1 true, .child 1 true]
    (fun s => (s.proc 1 0).any (fun p => decide (p.pc = .exec ∧ p.fds.Holds .listening ∧
      p.fds.Holds (.client 0) ∧ p.fds.Holds (.pipeRead 0))) = true) (by decide)
  obtain ⟨p, hp, hheld⟩ := (Option.any_eq_true _ _).mp hp
  exact ⟨s, p, hr, hp, of_decide_eq_true hheld⟩

end Processes

end Jackfruit
