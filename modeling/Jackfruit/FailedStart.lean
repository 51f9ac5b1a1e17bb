import Jackfruit.Accounts

/-!
# A failed start leaves nothing behind

`tableWrite` is what a step writes to the table : to which slots, and what each becomes as a
function of what it was. `Replay h` runs the supervisor and, beside it, a second table to which only
the steps of the other threads are applied, from the call of the start of `h` on.

When the start returns `-1` the two tables have the same used slots with the same contents, whatever
the other threads did meanwhile, and everything that the start acquired has been released once
(`failed_start_leaves_nothing`).
-/

set_option linter.unusedSectionVars false

namespace Jackfruit

/-- What a critical section writes to the table. -/
structure TableWrite where
  slots : List Slot
  value : Container → Container

/-- The table after the write. -/
def TableWrite.apply (w : TableWrite) (t : Table) : Table :=
  fun i => if w.slots.contains i then w.value (t i) else t i

namespace Engine

variable {s s' : Engine} {e : Event} {i : Slot} {g h : ℕ}

/-- What an event writes to the table. -/
def tableWrite (s : Engine) : Event → TableWrite
  | .reserve h now =>
    match (s.handler h).pc, startContainerCheck s.table (s.req h) with
    | .reserve, .ok idx => ⟨[idx], fun c => c.reserve (s.req h) now⟩
    | _, _ => ⟨[], id⟩
  | .rollback h =>
    match (s.handler h).pc with
    | .rollback idx _ => ⟨[idx], Container.release⟩
    | _ => ⟨[], id⟩
  | .publish h =>
    match (s.handler h).pc with
    | .publish idx pid => ⟨[idx], fun c => c.publish pid h⟩
    | _ => ⟨[], id⟩
  | .runEnter h =>
    match s.runReady h with
    | some idx =>
      if isLiveState (s.table idx).state then
        ⟨[idx], fun c => { c with stateCv := (c.stateCv.resume h).wait h }⟩
      else ⟨[idx], fun c => { c with stateCv := c.stateCv.resume h }⟩
    | none => ⟨[], id⟩
  | .spurious h =>
    match (s.handler h).pc with
    | .runWait idx => ⟨[idx], fun c => { c with stateCv := c.stateCv.wake h }⟩
    | _ => ⟨[], id⟩
  | .stopEnter h =>
    match (s.handler h).pc, findContainerByIdLocked s.table (s.req h).id with
    | .stop, some idx =>
      if isLiveState (s.table idx).state then ⟨[idx], Container.requestStop⟩ else ⟨[], id⟩
    | _, _ => ⟨[], id⟩
  | .stopAll => ⟨liveSlots s.table, Container.requestStop⟩
  | .reap =>
    match s.reaper with
    | .holding h =>
      match s.child h with
      | some ⟨pid, .reaped status⟩ =>
        ⟨(findContainerByPid s.table pid).toList, fun c => c.reap status⟩
      | _ => ⟨[], id⟩
    | _ => ⟨[], id⟩
  | _ => ⟨[], id⟩

theorem apply_nil (t : Table) {f : Container → Container} : (⟨[], f⟩ : TableWrite).apply t = t :=
  funext fun _ => if_neg Bool.false_ne_true

theorem apply_single (t : Table) {f : Container → Container} :
    (⟨[i], f⟩ : TableWrite).apply t = Function.update t i (f (t i)) := by
  funext j
  rcases eq_or_ne j i with rfl | hji
  · simp [TableWrite.apply]
  · simp [TableWrite.apply, hji]

theorem startStep_table (he : e.handler = some h) (hs : s.startStep h e = some s') :
    s'.table = (s.tableWrite e).apply s.table := by
  cases e with
  | reserve h now =>
    obtain rfl := Option.some.inj he
    simp only [startStep] at hs
    split at hs
    · rename_i text hpc hck
      cases hs
      simp [tableWrite, hpc, hck, apply_nil, respond, setHandler]
    · rename_i idx hpc hck
      cases hs
      simp [tableWrite, hpc, hck, apply_single, setPc, setHandler, setSlot]
    · cases hs
  | rollback h | publish h =>
    obtain rfl := Option.some.inj he
    simp only [startStep] at hs
    split at hs
    · rename_i hpc
      cases hs
      simp [tableWrite, hpc, apply_single, setPc, respond, setHandler, setSlot]
    · cases hs
  | pipe | mallocStack | mallocChild | clone | mallocArg | createProducer | register =>
    obtain rfl := Option.some.inj he
    simp only [startStep] at hs
    repeat' split at hs
    all_goals cases hs
    all_goals exact (apply_nil _).symm
  | _ => cases hs

theorem handlerStep_table (he : e.handler = some h) (hs : s.handlerStep h e = some s') :
    s'.table = (s.tableWrite e).apply s.table := by
  cases e with
  | runEnter h =>
    obtain rfl := Option.some.inj he
    simp only [handlerStep] at hs
    split at hs
    · rename_i idx hready
      split_ifs at hs with hlive <;> cases hs <;>
        simp [tableWrite, hready, hlive, apply_single, setPc, respond, setHandler, setSlot]
    · cases hs
  | spurious h =>
    obtain rfl := Option.some.inj he
    simp only [handlerStep] at hs
    split at hs
    · rename_i idx hpc
      split_ifs at hs
      cases hs
      simp [tableWrite, hpc, apply_single, setSlot]
    · cases hs
  | stopEnter h =>
    obtain rfl := Option.some.inj he
    simp only [handlerStep] at hs
    split at hs
    · rename_i hpc hfind
      cases hs
      simp [tableWrite, hpc, hfind, apply_nil, respond, setHandler]
    · rename_i idx hpc hfind
      split_ifs at hs with hlive <;> cases hs <;>
        simp [tableWrite, hpc, hfind, hlive, apply_nil, apply_single, setPc, respond, setHandler,
          setSlot]
    · cases hs
  | recv | hangup | stopKill | read | send =>
    obtain rfl := Option.some.inj he
    simp only [handlerStep] at hs
    repeat' split at hs
    all_goals cases hs
    all_goals exact (apply_nil _).symm
  | _ => cases hs

theorem mainStep_table (hs : s.mainStep e = some s') :
    s'.table = (s.tableWrite e).apply s.table := by
  cases e with
  | stopAll =>
    simp only [mainStep] at hs
    split_ifs at hs
    cases hs
    funext i
    simp [tableWrite, TableWrite.apply, stopAllLiveContainers]
  | loopTest | accept | acceptFail | logShutdown | joinConsumer | joinReaper =>
    simp only [mainStep] at hs
    split_ifs at hs
    all_goals cases hs
    all_goals exact (apply_nil _).symm
  | _ => cases hs

theorem reaperStep_table (hs : s.reaperStep e = some s') :
    s'.table = (s.tableWrite e).apply s.table := by
  cases e with
  | reap =>
    simp only [reaperStep] at hs
    split at hs
    · rename_i h hr
      split at hs
      · rename_i pid status hchild
        cases hs
        simp only [tableWrite, hr, hchild, reaperUpdate]
        cases findContainerByPid s.table pid with
        | none => exact (apply_nil _).symm
        | some i => simp [apply_single]
      · cases hs
    · cases hs
  | exit | waitpid | reaperExit =>
    simp only [reaperStep] at hs
    repeat' split at hs
    all_goals cases hs
    all_goals exact (apply_nil _).symm
  | _ => cases hs

/-- A step writes the table as `tableWrite` says. -/
theorem step_table (hs : s.step e = some s') : s'.table = (s.tableWrite e).apply s.table := by
  replace hs := (step_next hs).2
  cases e with
  | signal =>
    cases hs
    exact (apply_nil _).symm
  | reserve | pipe | mallocStack | mallocChild | clone | mallocArg | publish | rollback
  | createProducer | register => exact startStep_table rfl hs
  | recv | hangup | runEnter | spurious | stopEnter | stopKill | read | send =>
    exact handlerStep_table rfl hs
  | exit | waitpid | reap | reaperExit => exact reaperStep_table hs
  | loopTest | accept | acceptFail | stopAll | logShutdown | joinConsumer | joinReaper =>
    exact mainStep_table hs

/-- No step of another thread frees or takes the slot that a start holds. -/
theorem Wf.tableWrite_used (w : Wf s) (ho : s.owner i = some h) (he : e.handler ≠ some h)
    (hi : i ∈ (s.tableWrite e).slots) (c : Container) :
    ((s.tableWrite e).value c).used = c.used := by
  have hu : (s.table i).used = true := (w.used_iff i).mpr ⟨h, ho⟩
  cases e with
  | reserve g now =>
    simp only [tableWrite] at hi ⊢
    split
    · rename_i idx hpc hck
      simp only [hpc, hck, List.mem_singleton] at hi
      subst hi
      have hfree := (startContainerCheck_ok hck).1
      rw [hu] at hfree
      cases hfree
    · rfl
  | rollback g =>
    simp only [tableWrite] at hi ⊢
    split
    · rename_i idx text hpc
      simp only [hpc, List.mem_singleton] at hi
      subst hi
      have hg : s.owner i = some g := (w.reserved g i (by rw [hpc]; rfl)).1
      exact absurd (hg.symm.trans ho) he
    · rfl
  | publish | runEnter | spurious | stopEnter | reap =>
    simp only [tableWrite]
    repeat' split
    all_goals rfl
  | _ => rfl

/-- The first critical section of a start. -/
theorem reserve_cases {now : ℤ} (hs : s.step (.reserve h now) = some s') :
    (s.handler h).pc = .reserve ∧
      ((∃ text, startContainerCheck s.table (s.req h) = .error text ∧
        s' = s.respond h (setResponse false (-1) text)) ∨
        ∃ idx, startContainerCheck s.table (s.req h) = .ok idx ∧ s' = s.reserved h idx now) := by
  replace hs := (step_next hs).2
  simp only [next, startStep] at hs
  split at hs
  · rename_i text hpc hck
    cases hs
    exact ⟨hpc, Or.inl ⟨text, hck, rfl⟩⟩
  · rename_i idx hpc hck
    cases hs
    exact ⟨hpc, Or.inr ⟨idx, hck, rfl⟩⟩
  · cases hs

/-- The third critical section of a start that failed. -/
theorem rollback_cases (hs : s.step (.rollback h) = some s') :
    ∃ idx text, (s.handler h).pc = .rollback idx text ∧ s' = s.rolledBack h idx text := by
  replace hs := (step_next hs).2
  simp only [next, startStep] at hs
  split at hs
  · rename_i idx text hpc
    cases hs
    exact ⟨idx, text, hpc, rfl⟩
  · cases hs

/-- A child was there before the step, with its pid, unless the step cloned it. -/
theorem child_of_step {c : Child} (hs : Effect s e s') (hc : s'.child h = some c)
    (he : ∀ pid, e ≠ .clone h (.ok pid)) : ∃ c₀, s.child h = some c₀ ∧ c₀.pid = c.pid := by
  have hstep := step_child hs h
  rw [hc] at hstep
  generalize ho : some c = o at hstep
  cases hstep with
  | same => exact ⟨c, ho.symm, rfl⟩
  | clone i pid he' => exact absurd he' (he pid)
  | exit pid status hold | waitpid pid status _ hold | reap pid status _ _ hold =>
    obtain rfl := Option.some.inj ho
    exact ⟨_, hold, rfl⟩

/-- The start of `h` returns `-1` in this step : a check refuses it, or it has given its slot
back. -/
def StartFails (s s' : Engine) (h : ℕ) : Prop :=
  ((s.handler h).pc = .reserve ∨ ∃ i text, (s.handler h).pc = .rollback i text) ∧
    (s'.handler h).pc = .send

end Engine

/-- The supervisor, and the table that the threads other than one start's produce. -/
structure Replay where
  processes : Processes
  others : Table

namespace Replay

/-- The steps of the handler `h` write only the supervisor's table. -/
def step (h : ℕ) (r : Replay) (e : ProcessEvent) : Option Replay :=
  (r.processes.step e).map fun s => {
    processes := s
    others := match e with
      | .engine e =>
        if e.handler = some h then r.others else (r.processes.engine.tableWrite e).apply r.others
      | _ => r.others }

end Replay

namespace Processes

variable {s s' : Processes} {t : Table} {i : Slot} {g h : ℕ}

/-- What the second table has to do with the supervisor's while the start is under way. -/
structure Shadows (h : ℕ) (t : Table) (s : Processes) : Prop where
  started : (s.account h).pc ≠ .absent ∧ (s.account h).pc ≠ .recv
  before : (s.account h).pc = .reserve → t = s.engine.table
  during : ∀ i, (s.account h).pc.reserved = some i →
    (t i).used = false ∧ ∀ j, j ≠ i → t j = s.engine.table j

/-- The start goes on with the slot it holds. -/
theorem Shadows.keep {i : Slot} (sh : Shadows h t s) (htable : s'.engine.table = s.engine.table)
    (hpc : (s.account h).pc.reserved = some i) (hpc' : (s'.account h).pc.reserved = some i) :
    Shadows h t s' where
  started := by constructor <;> intro heq <;> simp [heq, Pc.reserved] at hpc'
  before heq := by simp [heq, Pc.reserved] at hpc'
  during j hj := by
    obtain rfl := Option.some.inj (hpc'.symm.trans hj)
    rw [htable]
    exact sh.during _ hpc

/-- The start is over. -/
theorem Shadows.over (hpc : (s'.account h).pc.reserved = none)
    (hborn : (s'.account h).pc.unborn = false) : Shadows h t s' where
  started := by constructor <;> intro heq <;> simp [heq, Pc.unborn] at hborn
  before heq := by simp [heq, Pc.unborn] at hborn
  during i hi := by simp [hpc] at hi

/-- The start has taken its slot. -/
theorem Shadows.take {now : ℤ} {i : Slot} (sh : Shadows h t s)
    (hpc : (s.account h).pc = .reserve) (hu : (s.engine.table i).used = false)
    (heq : s'.engine = s.engine.reserved h i now) : Shadows h t s' := by
  have ht := sh.before hpc
  have hpc' : (s'.account h).pc = .pipe i := by
    simp [account, heq, Engine.reserved, Engine.setPc, Engine.setHandler]
  refine ⟨by simp [hpc'], by simp [hpc'], fun j hj => ?_⟩
  obtain rfl : i = j := by simpa [hpc', Pc.reserved] using hj
  refine ⟨ht ▸ hu, fun j hj => ?_⟩
  rw [ht, heq]
  exact (Function.update_of_ne hj _ _).symm

/-- A step of the start itself. -/
theorem Shadows.step_self {e : Event} (sh : Shadows h t s) (hs : s.step (.engine e) = some s')
    (he : e.handler = some h) : Shadows h t s' := by
  have st := step_engine hs
  have htable := Engine.step_table st.engine
  have hm : Engine.PcMove h e (s.account h).pc (s'.account h).pc := by
    rcases Engine.step_pc st.engine h with hm | ⟨hne, -⟩
    · exact hm
    · exact absurd he hne
  have hstarted := sh.started
  generalize hpc : (s.account h).pc = pc at hm hstarted
  generalize hpc' : (s'.account h).pc = pc' at hm
  cases hm with
  | accept | recv | hangup => simp at hstarted
  | reserve now i =>
    obtain ⟨-, ⟨text, -, heq⟩ | ⟨idx, hck, heq⟩⟩ := Engine.reserve_cases st.engine
    · simp [account, heq, Engine.respond, Engine.setHandler] at hpc'
    · exact sh.take hpc (startContainerCheck_ok hck).1 heq
  | pipe i | pipeFail err text i | mallocStack i | mallocStackFail i text | mallocChild i
  | mallocChildFail i text | clone i pid | cloneFail err text i | mallocArg i pid
  | mallocArgFail i pid text =>
    exact sh.keep (htable.trans (Engine.apply_nil _)) (by rw [hpc]; rfl) (by rw [hpc']; rfl)
  | register i pid pc' h' =>
    rcases h' with rfl | rfl <;> exact .over (by rw [hpc']; rfl) (by rw [hpc']; rfl)
  | runEnter i pc pc' h₀ h' =>
    rcases h' with rfl | rfl <;> exact .over (by rw [hpc']; rfl) (by rw [hpc']; rfl)
  | stopEnter pc' h' =>
    rcases h' with rfl | ⟨i, pid, rfl⟩ <;> exact .over (by rw [hpc']; rfl) (by rw [hpc']; rfl)
  | _ => exact .over (by rw [hpc']; rfl) (by rw [hpc']; rfl)

/-- A step of another thread. -/
theorem Shadows.step_other {e : Event} (sh : Shadows h t s) (a : Accounts s)
    (hs : s.step (.engine e) = some s') (he : e.handler ≠ some h) :
    Shadows h ((s.engine.tableWrite e).apply t) s' := by
  have st := step_engine hs
  have htable := Engine.step_table st.engine
  have hpc : (s'.account h).pc = (s.account h).pc := by
    rcases Engine.step_pc st.engine h with hm | ⟨-, -, hsame⟩
    · have hstarted := sh.started
      change Engine.PcMove h e (s.account h).pc (s'.account h).pc at hm
      generalize (s.account h).pc = pc at hm hstarted
      generalize (s'.account h).pc = pc' at hm
      cases hm with
      | accept => simp at hstarted
      | _ => exact absurd rfl he
    · exact congrArg Handler.pc hsame
  constructor
  case started => exact hpc ▸ sh.started
  case before =>
    intro hres
    rw [htable, sh.before (hpc ▸ hres)]
  case during =>
    intro i hi
    rw [hpc] at hi
    obtain ⟨hu, hrest⟩ := sh.during i hi
    refine ⟨?_, fun j hj => ?_⟩
    · unfold TableWrite.apply
      split_ifs with hmem
      · rw [a.wf.tableWrite_used (a.wf.reserved h i hi).1 he (List.contains_iff_mem.mp hmem), hu]
      · exact hu
    · rw [htable]
      simp only [TableWrite.apply, hrest j hj]

theorem Shadows.step {e : ProcessEvent} {r r' : Replay} (sh : Shadows h r.others r.processes)
    (a : Accounts r.processes) (hs : r.step h e = some r') :
    Shadows h r'.others r'.processes := by
  obtain ⟨s', hs', rfl⟩ := Option.map_eq_some_iff.mp hs
  cases e with
  | engine e =>
    dsimp only
    split_ifs with he
    · exact sh.step_self hs' he
    · exact sh.step_other a hs' he
  | _ =>
    rcases a.step_engine hs' with heq | ⟨e', he', -⟩
    · exact ⟨by simpa [account, heq] using sh.started, by simpa [account, heq] using sh.before,
        by simpa [account, heq] using sh.during⟩
    · cases he'

/-! ## The child of a failed start -/

/-- A start that failed after its `clone` has sent SIGKILL to its child, or is about to. -/
def Killed (s : Processes) : Prop :=
  ∀ h i text, (s.engine.handler h).pc = .rollback i text →
    ∀ c, s.engine.child h = some c → .kill c.pid ∈ s.todo h ∨ (h, c.pid) ∈ s.sigkills

theorem sigkills_closeFd {n : ℕ} : (s.closeFd n).sigkills = s.sigkills := by
  simp only [closeFd]
  split <;> rfl

/-- Only `kill` sends a signal. -/
theorem sigkills_resources {e : Event} : (s.resources e).sigkills = s.sigkills := by
  cases e with
  | signal =>
    simp only [resources]
    split
    · exact sigkills_closeFd
    · rfl
  | pipe h err => cases err <;> rfl
  | mallocStack h ok | mallocChild h ok => cases ok <;> rfl
  | clone h res => cases res <;> rfl
  | mallocArg h ok =>
    simp only [resources]
    repeat' split
    all_goals rfl
  | reap =>
    simp only [resources, freeStack]
    repeat' split
    all_goals rfl
  | _ => rfl

/-- A start that has given up in this step, or had given up before. -/
theorem Killed.step_engine {e : Event} (k : Killed s) (a : Accounts s)
    (hs : s.step (.engine e) = some s') : Killed s' := by
  intro h i text hpc' c hc
  have st := Processes.step_engine hs
  have heff := Engine.step_effect st.engine
  have hchild (he : ∀ pid, e ≠ .clone h (.ok pid)) := Engine.child_of_step heff hc he
  have hunborn (he : ∀ pid, e ≠ .clone h (.ok pid))
      (hborn : (s.engine.handler h).pc.unborn = true) : False := by
    obtain ⟨c₀, hc₀, -⟩ := hchild he
    simp [a.wf.unborn h hborn] at hc₀
  rcases Engine.step_pc st.engine h with hm | ⟨he, -, hsame⟩
  · generalize (s'.engine.handler h).pc = pc' at hm hpc'
    generalize hpc : (s.engine.handler h).pc = pc at hm hunborn
    cases hm with
    | pipeFail | mallocStackFail | mallocChildFail | cloneFail => exact (hunborn nofun rfl).elim
    | mallocArgFail i pid text =>
      obtain ⟨c₀, hc₀, hp⟩ := hchild nofun
      obtain ⟨c₁, hc₁, hp₁⟩ := a.wf.inFlight h pid (by rw [hpc]; rfl)
      obtain rfl := Option.some.inj (hc₀.symm.trans hc₁)
      rw [st.todo]
      simp [resources, hpc, owe, ← hp, hp₁]
    | recv req =>
      unfold Engine.dispatch at hpc'
      split_ifs at hpc'
    | register | runEnter | stopEnter => simp_all
    | _ => cases hpc'
  · rw [hsame] at hpc'
    obtain ⟨c₀, hc₀, hp⟩ := hchild fun pid heq => he (heq ▸ rfl)
    have htodo : s'.todo h = s.todo h := by
      rw [st.todo]
      rcases eq_or_ne e .reap with rfl | hr
      · rcases a.freeStack_eq st.engine with heq | ⟨g, -, heq⟩ <;>
          simp only [resources, heq, release]
      · exact (a.resources_other he hr).2.2
    rw [htodo, st.sigkills, sigkills_resources, ← hp]
    exact k h i text hpc' c₀ hc₀

theorem Killed.of_same (k : Killed s) (hengine : s'.engine = s.engine) (htodo : s'.todo = s.todo)
    (hkills : s'.sigkills = s.sigkills) : Killed s' := by
  intro h i text hpc c hc
  rw [hengine] at hpc hc
  rw [htodo, hkills]
  exact k h i text hpc c hc

theorem Killed.step {e : ProcessEvent} (k : Killed s) (a : Accounts s)
    (hs : s.step e = some s') : Killed s' := by
  cases e with
  | engine e => exact k.step_engine a hs
  | cleanup g =>
    simp only [Processes.step] at hs
    split at hs
    · rename_i c rest htodo
      cases hs
      have hp := a.performed (h := g) (c := c) (by rw [htodo]; exact List.mem_cons_self)
      intro h i text hpc child hchild
      simp only [owe, hp.engine] at hpc hchild
      simp only [owe, hp.todo]
      rcases k h i text hpc child hchild with hkill | hsent
      · rcases eq_or_ne h g with rfl | hhg
        · rw [Function.update_self]
          rw [htodo] at hkill
          rcases List.mem_cons.mp hkill with heq | hrest
          · exact Or.inr (hp.kill _ heq.symm)
          · exact Or.inl hrest
        · rw [Function.update_of_ne hhg]
          exact Or.inl hkill
      · exact Or.inr (hp.sigkills hsent)
    · cases hs
  | producerFree h =>
    simp only [Processes.step] at hs
    split_ifs at hs
    cases hs
    exact k.of_same rfl rfl rfl
  | producerClose h =>
    simp only [Processes.step] at hs
    split_ifs at hs with hc
    cases hs
    rw [closeFd_pipeRead (a.file_pipeRead ⟨a.producer h hc.1, hc.2.2⟩)]
    exact k.of_same rfl rfl rfl
  | openOther =>
    cases hs
    exact k.of_same rfl rfl rfl
  | closeOther n =>
    simp only [Processes.step] at hs
    split_ifs at hs with hf
    cases hs
    rw [closeFd_other hf (by simp) (by simp)]
    exact k.of_same rfl rfl rfl
  | _ =>
    rw [step_container rfl hs]
    exact k.of_same rfl rfl rfl

/-! ## The end of a failed start -/

/-- Nothing is left of the start of `h`, and `t` is the table of the other threads. -/
structure LeavesNothing (h : ℕ) (t : Table) (s : Processes) : Prop where
  used : ∀ i, (s.engine.table i).used = (t i).used
  contents : ∀ i, (t i).used = true → s.engine.table i = t i
  released : ∀ r ∈ s.acquired h, (s.released h).count r = 1
  acquired : ∀ r ∈ s.released h, r ∈ s.acquired h
  readEnd : ¬s.fds.Holds (.pipeRead h)
  writeEnd : ¬s.fds.Holds (.pipeWrite h)
  producer : s.engine.producer h = none
  killed : ∀ c, s.engine.child h = some c → (h, c.pid) ∈ s.sigkills

/-- The two ways in which a start returns `-1`. -/
theorem Accounts.returns (a : Accounts s) {e : ProcessEvent} (hs : s.step e = some s')
    (hret : s.engine.StartFails s'.engine h) :
    (∃ now text, e = .engine (.reserve h now) ∧ (s.engine.handler h).pc = .reserve ∧
      s'.engine = s.engine.respond h (setResponse false (-1) text)) ∨
      ∃ i text, e = .engine (.rollback h) ∧ (s.engine.handler h).pc = .rollback i text ∧
        s'.engine = s.engine.rolledBack h i text := by
  obtain ⟨hpc, hsend⟩ := hret
  have hmoved : (s'.engine.handler h).pc ≠ (s.engine.handler h).pc := by
    rw [hsend]
    rcases hpc with hpc | ⟨i, text, hpc⟩ <;> rw [hpc] <;> nofun
  rcases a.step_engine hs with heq | ⟨e', rfl, ht⟩
  · exact absurd (by rw [heq]) hmoved
  · rcases Engine.step_pc ht h with hm | ⟨-, -, hsame⟩
    · rw [hsend] at hm
      rcases hpc with hpc | ⟨i, text, hpc⟩
      · rw [hpc] at hm
        generalize hp : Pc.send = pc' at hm
        cases hm with
        | refused now =>
          obtain ⟨-, ⟨text, -, heq⟩ | ⟨idx, -, heq⟩⟩ := Engine.reserve_cases ht
          · exact Or.inl ⟨now, text, rfl, hpc, heq⟩
          · simp [heq, Engine.reserved, Engine.setPc, Engine.setHandler] at hsend
        | reserve => cases hp
        | runEnter _ _ _ h₀ => simp at h₀
      · rw [hpc] at hm
        generalize Pc.send = pc' at hm
        cases hm with
        | rollback =>
          obtain ⟨idx, text', hpc', heq⟩ := Engine.rollback_cases ht
          exact Or.inr ⟨idx, text', rfl, hpc', heq⟩
        | runEnter _ _ _ h₀ => simp at h₀
    · exact absurd (by rw [hsame]) hmoved

/-- A start returns with everything it acquired released, once each. -/
theorem Accounts.released_of_returns (a : Accounts s) {e : ProcessEvent}
    (hs : s.step e = some s') (hret : s.engine.StartFails s'.engine h) :
    (s'.acquired h).Perm (s'.released h) ∧ (s'.acquired h).Nodup := by
  have key (e' : Event) (heq : e = .engine e') (hres : s.resources e' = s)
      (he : e'.handler = some h) (hheld : (s.account h).pc.held = some []) :
      (s'.acquired h).Perm (s'.released h) ∧ (s'.acquired h).Nodup := by
    subst heq
    have st := Processes.step_engine hs
    have htodo : (s.account h).todo = [] := not_blocked st.blocked he
    have hbal := (a.balanced h).balance [] hheld
    rw [htodo, owed, List.filterMap_nil, List.append_nil, List.append_nil] at hbal
    rw [st.acquired, st.released, hres]
    exact ⟨hbal, (a.balanced h).nodup⟩
  rcases a.returns hs hret with ⟨now, text, he, hpc, -⟩ | ⟨i, text, he, hpc, -⟩
  · exact key _ he rfl rfl (by simp [account, hpc, Pc.held])
  · exact key _ he rfl rfl (by simp [account, hpc, Pc.held])

/-- A start that fails returns with a released slot and without a producer, and its child, if it
had cloned one, has been sent SIGKILL. -/
theorem Shadows.returns (sh : Shadows h t s) (k : Killed s) (a : Accounts s) {e : ProcessEvent}
    (hs : s.step e = some s') (hret : s.engine.StartFails s'.engine h) :
    (∀ i, (s'.engine.table i).used = (t i).used) ∧
      (∀ i, (t i).used = true → s'.engine.table i = t i) ∧
      s'.engine.producer h = none ∧
      ∀ c, s'.engine.child h = some c → (h, c.pid) ∈ s'.sigkills := by
  have hproducer (hheld : (s.engine.handler h).pc.held ≠ none) : s.engine.producer h = none := by
    by_contra hne
    obtain ⟨i, hi⟩ := Option.ne_none_iff_exists'.mp hne
    exact hheld (a.wf.held_of_settled (a.wf.producer h i hi))
  rcases a.returns hs hret with ⟨now, text, he, hpc, heq⟩ | ⟨i, text, he, hpc, heq⟩
  · have ht : t = s.engine.table := sh.before hpc
    rw [heq, ht]
    refine ⟨fun _ => rfl, fun _ _ => rfl, hproducer (by simp [hpc, Pc.held]), fun c hc => ?_⟩
    exact absurd ((a.wf.unborn h (by rw [hpc]; rfl)).symm.trans hc) (by simp)
  · subst he
    have st := Processes.step_engine hs
    obtain ⟨hu, hrest⟩ := sh.during i (by simp [account, hpc, Pc.reserved])
    have htable : s'.engine.table = Function.update s.engine.table i (s.engine.table i).release :=
      congrArg Engine.table heq
    refine ⟨fun j => ?_, fun j hj => ?_, ?_, fun c hc => ?_⟩
    · rw [htable]
      rcases eq_or_ne j i with rfl | hji
      · rw [Function.update_self, hu]
        rfl
      · rw [Function.update_of_ne hji, hrest j hji]
    · have hji : j ≠ i := by
        rintro rfl
        simp [hu] at hj
      rw [htable, Function.update_of_ne hji, hrest j hji]
    · exact (congrArg (fun u : Engine => u.producer h) heq).trans
        (hproducer (by simp [hpc, Pc.held]))
    · rw [heq] at hc
      rw [st.sigkills, sigkills_resources]
      rcases k h i text hpc c hc with hkill | hsent
      · simp [not_blocked st.blocked rfl] at hkill
      · exact hsent

/-- The supervisor's part of a replay is a run. -/
theorem run_of_replay {r r' : Replay}
    (hrun : Transition.Run (Replay.step h) Transition.Always r r') :
    Transition.Run step Transition.Always r.processes r'.processes := by
  refine hrun.map Replay.processes fun t e u _ _ hs => Or.inr ⟨e, trivial, ?_⟩
  obtain ⟨s', hs', rfl⟩ := Option.map_eq_some_iff.mp hs
  exact hs'

theorem Killed.of_run {C : Processes → ProcessEvent → Prop}
    (hr : Transition.Run Processes.step C init s) : Killed s := by
  refine hr.invariant_of_reached (fun h i text hpc => ?_) fun u e v hu k _ hs =>
    k.step (.of_run hu) hs
  simp [init, Engine.init, Handler.init] at hpc

/-- A start that returns `-1` leaves nothing behind, whatever the other threads have done since it
was called : the table is theirs, what the start acquired has been released exactly once, no
producer runs for it, and a child it had cloned has been sent SIGKILL. -/
theorem failed_start_leaves_nothing {s₀ : Processes} (hr : Reachable s₀)
    (hcall : (s₀.engine.handler h).pc = .reserve) {r : Replay}
    (hrun : Transition.Run (Replay.step h) Transition.Always ⟨s₀, s₀.engine.table⟩ r)
    {e : ProcessEvent} (hs : r.processes.step e = some s')
    (hret : r.processes.engine.StartFails s'.engine h) : LeavesNothing h r.others s' := by
  have hreach {r' : Replay}
      (hrun : Transition.Run (Replay.step h) Transition.Always ⟨s₀, s₀.engine.table⟩ r') :
      Reachable r'.processes := hr.trans (run_of_replay hrun)
  have sh : Shadows h r.others r.processes := by
    refine hrun.invariant_of_reached (I := fun r => Shadows h r.others r.processes) ?_
      fun _ _ _ hr' sh _ hs => sh.step (.of_run (hreach hr')) hs
    have hpc : (s₀.account h).pc = .reserve := hcall
    exact ⟨by simp [hpc], fun _ => rfl, by simp [hpc, Pc.reserved]⟩
  have a : Accounts r.processes := .of_run (hreach hrun)
  have a' := a.step hs
  obtain ⟨hperm, hnodup⟩ := a.released_of_returns hs hret
  obtain ⟨hused, hcontents, hproducer, hkilled⟩ := sh.returns (.of_run (hreach hrun)) a hs hret
  have hclosed (r : Resource) : ¬(s'.account h).Open r := fun ho => ho.2 (hperm.mem_iff.mp ho.1)
  constructor
  case used => exact hused
  case contents => exact hcontents
  case released =>
    intro r hmem
    rw [← hperm.count_eq]
    exact List.count_eq_one_of_mem hnodup hmem
  case acquired => exact fun r hmem => hperm.mem_iff.mpr hmem
  case readEnd =>
    have htracked : File.Tracked (.pipeRead h) := trivial
    simp [a'.tracks.holds_iff htracked, position, hclosed]
  case writeEnd =>
    have htracked : File.Tracked (.pipeWrite h) := trivial
    simp [a'.tracks.holds_iff htracked, position, hclosed]
  case producer => exact hproducer
  case killed => exact hkilled

/-- The producer's argument cannot be allocated, and another start reserves its slot meanwhile. -/
theorem failed_start_leaves_nothing_example :
    ∃ (r : Replay) (s' : Processes), LeavesNothing 0 r.others s' ∧
      s'.engine.child 0 = some ⟨7, .alive⟩ ∧ (r.others 1).used = true := by
  obtain ⟨s₀, hr, hcall, hrest⟩ := Transition.exists_run_of_exec step Transition.Always init
    [.engine .loopTest, .engine (.accept 0),
      .engine (.recv 0 ⟨REQ_START, cstr "a", cstr "ra", cstr "true", 40, 64, 0⟩),
      .engine .loopTest, .engine (.accept 1),
      .engine (.recv 1 ⟨REQ_START, cstr "b", cstr "rb", cstr "true", 40, 64, 0⟩)]
    (fun s₀ => (s₀.engine.handler 0).pc = .reserve ∧
      (Transition.exec (Replay.step 0) Transition.Always ⟨s₀, s₀.engine.table⟩
        [.engine (.reserve 0 0), .engine (.pipe 0 none), .engine (.mallocStack 0 true),
          .engine (.reserve 1 0), .engine (.mallocChild 0 true), .engine (.clone 0 (.ok 7)),
          .cleanup 0, .cleanup 0, .engine (.pipe 1 none), .engine (.mallocArg 0 false),
          .cleanup 0, .cleanup 0, .cleanup 0]).any (fun r =>
        (r.processes.step (.engine (.rollback 0))).any fun s' =>
          decide ((r.processes.engine.handler 0).pc = .rollback 0 (cstr "malloc failed") ∧
            (s'.engine.handler 0).pc = .send ∧ s'.engine.child 0 = some ⟨7, .alive⟩ ∧
            (r.others 1).used = true)) = true) (by decide)
  obtain ⟨r, hrun, hlast⟩ := (Option.any_eq_true _ _).mp hrest
  obtain ⟨s', hs, hp⟩ := (Option.any_eq_true _ _).mp hlast
  obtain ⟨hpc, hsend, hchild, hused⟩ := of_decide_eq_true hp
  exact ⟨r, s', failed_start_leaves_nothing hr hcall (Transition.run_of_exec hrun) hs
    ⟨Or.inr ⟨_, _, hpc⟩, hsend⟩, hchild, hused⟩

end Processes

end Jackfruit
