import Jackfruit.Account

/-!
# The accounts of the supervisor

`Accounts` is the invariant of the supervisor : all accounts are balanced, and every end of a pipe
and every connection is open at the descriptor that its handler knows, until that handler or its
producer closes it, and nowhere else (`Processes.position`). It holds in every reachable state
(`Accounts.of_run`).
-/

set_option linter.unusedSectionVars false

namespace Jackfruit

namespace Engine

variable {s s' : Engine} {e : Event} {i : Slot} {g h : ℕ}

/-- The stack in a used slot is the one of its owner. -/
def Stacked (s : Engine) : Prop :=
  ∀ i g, (s.table i).used = true → (s.table i).childStack = some g → s.Settled i g

theorem Stacked.step (hst : Stacked s) (w : Wf s) (hs : Effect s e s') : Stacked s' := by
  intro i g hu hc
  have hkept (hu₀ : (s.table i).used = true) (hc₀ : (s.table i).childStack = some g) :=
    (w.settled_step hs (hst i g hu₀ hc₀)).1
  have hslot := step_slot hs i
  generalize hcon : s'.table i = c at hslot hu hc
  cases hslot with
  | same | waiters | stop => exact hkept hu hc
  | reserve | reap => cases hc
  | release => cases hu
  | publish h pid he hpc =>
    obtain rfl := Option.some.inj hc
    obtain ⟨ho, hstart, -⟩ := w.reserved h i (by rw [hpc]; rfl)
    refine ⟨?_, by simp [hcon, Container.publish]⟩
    rcases w.frame hs with hf | ⟨_, _, _, he', -⟩ | ⟨_, _, _, he', -⟩ | ⟨_, _, _, he', -⟩ |
      ⟨_, _, _, -, -, rfl⟩
    · exact hf.owner ▸ ho
    · cases he.symm.trans he'
    · cases he.symm.trans he'
    · cases he.symm.trans he'
    · exact ho

/-- A start that has published its slot holds nothing for itself any more. -/
theorem Wf.held_of_settled (w : Wf s) (hi : s.Settled i h) : (s.handler h).pc.held = none := by
  rcases w.owned i h hi.1 with hres | ⟨hres, hborn, -⟩
  · exact absurd (w.reserved h i hres).2.1 hi.2
  · exact Pc.held_eq_none hres hborn

end Engine

/-- An event that opens no connection or pipe and is not a signal. -/
def Event.Quiet : Event → Prop
  | .signal | .accept _ | .pipe _ none => False
  | _ => True

/-- The files that have one descriptor of the supervisor. -/
def File.Tracked : File → Prop
  | .listening | .client _ | .pipeRead _ | .pipeWrite _ => True
  | _ => False

namespace Processes

/-- What concerns the handler `h`. -/
def account (s : Processes) (h : ℕ) : Account :=
  ⟨(s.engine.handler h).pc, s.acquired h, s.released h, s.todo h⟩

/-- Where the supervisor has a file open. -/
def position (s : Processes) : File → Option ℕ
  | .listening => s.server
  | .client h => if (s.account h).Serves then some (s.client h) else none
  | .pipeRead h => if (s.account h).Open .readEnd then some (s.pipefd h).1 else none
  | .pipeWrite h => if (s.account h).Open .writeEnd then some (s.pipefd h).2 else none
  | _ => none

/-- The invariant of the supervisor. -/
structure Accounts (s : Processes) : Prop where
  wf : s.engine.Wf
  stacked : s.engine.Stacked
  balanced : ∀ h, (s.account h).Balanced
  producer : ∀ h, s.engine.producer h ≠ none → .readEnd ∈ s.acquired h
  tracks : s.fds.Tracks File.Tracked s.position

variable {s s' : Processes} {e : Event} {f : File} {g h n : ℕ}

theorem accounts_init : Accounts init where
  wf := Engine.wf_init
  stacked i g hu := by simp [init, Engine.init, initContainers, Container.init] at hu
  balanced h := by
    constructor <;> simp [account, init, Engine.init, Handler.init, Pc.taken, Pc.held, owed]
  producer h hp := absurd rfl hp
  tracks := by
    intro n f hf
    rcases n with _ | _ | _ | _ | n <;> cases f <;>
      simp [init, FdTable.file, FdTable.get, position, account, Account.Open, Account.Serves,
        Engine.init, Handler.init, File.Tracked] at hf ⊢

/-! ## Closing -/

theorem closeFd_pipeRead (hf : s.fds.file n = some (.pipeRead h)) :
    s.closeFd n = { s.release h .readEnd with fds := s.fds.close n } := by
  simp only [closeFd, hf]

theorem closeFd_pipeWrite (hf : s.fds.file n = some (.pipeWrite h)) :
    s.closeFd n = { s.release h .writeEnd with fds := s.fds.close n } := by
  simp only [closeFd, hf]

theorem closeFd_other (hf : s.fds.file n = some f) (hr : ∀ h, f ≠ .pipeRead h)
    (hw : ∀ h, f ≠ .pipeWrite h) : s.closeFd n = { s with fds := s.fds.close n } := by
  simp only [closeFd, hf]
  split
  · rename_i h heq
    exact absurd (Option.some.inj heq) (hr h)
  · rename_i h heq
    exact absurd (Option.some.inj heq) (hw h)
  · rfl

namespace Accounts

theorem file_pipeRead (a : Accounts s) (ho : (s.account h).Open .readEnd) :
    s.fds.file (s.pipefd h).1 = some (.pipeRead h) :=
  (a.tracks _ (.pipeRead h) trivial).mpr (if_pos ho)

theorem file_pipeWrite (a : Accounts s) (ho : (s.account h).Open .writeEnd) :
    s.fds.file (s.pipefd h).2 = some (.pipeWrite h) :=
  (a.tracks _ (.pipeWrite h) trivial).mpr (if_pos ho)

theorem file_client (a : Accounts s) (hv : (s.account h).Serves) :
    s.fds.file (s.client h) = some (.client h) :=
  (a.tracks _ (.client h) trivial).mpr (if_pos hv)

theorem file_listening (a : Accounts s) (hn : s.server = some n) :
    s.fds.file n = some .listening :=
  (a.tracks _ .listening trivial).mpr hn

end Accounts

/-- Which descriptor a statement closes. -/
def target (s : Processes) (h : ℕ) : Cleanup → Option ℕ
  | .closeRead => some (s.pipefd h).1
  | .closeWrite => some (s.pipefd h).2
  | .closeClient => some (s.client h)
  | _ => none

/-- What a statement of `todo` does. -/
structure Performed (s : Processes) (h : ℕ) (c : Cleanup) (s' : Processes) : Prop where
  engine : s'.engine = s.engine
  acquired : s'.acquired = s.acquired
  todo : s'.todo = s.todo
  server : s'.server = s.server
  client : s'.client = s.client
  pipefd : s'.pipefd = s.pipefd
  released : s'.released = Function.update s.released h (s.released h ++ c.resource.toList)
  fds : s'.fds = (s.target h c).elim s.fds s.fds.close
  kill : ∀ pid, c = .kill pid → (h, pid) ∈ s'.sigkills
  sigkills : s.sigkills ⊆ s'.sigkills

theorem Accounts.performed (a : Accounts s) {c : Cleanup} (hc : c ∈ s.todo h) :
    Performed s h c (s.perform h c) := by
  have hsame : Function.update s.released h (s.released h ++ []) = s.released := by simp
  cases c with
  | closeRead =>
    have hf := a.file_pipeRead ((a.balanced h).open_of_mem hc rfl)
    simp only [perform, closeFd_pipeRead hf]
    exact ⟨rfl, rfl, rfl, rfl, rfl, rfl, rfl, rfl, nofun, List.Subset.refl _⟩
  | closeWrite =>
    have hf := a.file_pipeWrite ((a.balanced h).open_of_mem hc rfl)
    simp only [perform, closeFd_pipeWrite hf]
    exact ⟨rfl, rfl, rfl, rfl, rfl, rfl, rfl, rfl, nofun, List.Subset.refl _⟩
  | closeClient =>
    have hf := a.file_client ((a.balanced h).serves_of_mem hc)
    simp only [perform, closeFd_other hf nofun nofun]
    exact ⟨rfl, rfl, rfl, rfl, rfl, rfl, hsame.symm, rfl, nofun, List.Subset.refl _⟩
  | freeStack | freeChild =>
    exact ⟨rfl, rfl, rfl, rfl, rfl, rfl, rfl, rfl, nofun, List.Subset.refl _⟩
  | kill pid =>
    exact ⟨rfl, rfl, rfl, rfl, rfl, rfl, hsame.symm, rfl,
      fun pid' heq => Cleanup.kill.inj heq ▸ List.mem_cons_self, List.subset_cons_self _ _⟩

/-! ## What a step does to an account -/

/-- A step of the supervisor's threads. -/
structure EngineStep (s : Processes) (e : Event) (s' : Processes) : Prop where
  blocked : ¬s.Blocked e
  engine : s.engine.step e = some s'.engine
  fds : s'.fds = (s.resources e).fds
  server : s'.server = (s.resources e).server
  client : s'.client = (s.resources e).client
  pipefd : s'.pipefd = (s.resources e).pipefd
  todo : s'.todo = (s.resources e).todo
  proc : s'.proc = (s.resources e).proc
  acquired : s'.acquired = (s.resources e).acquired
  released : s'.released = (s.resources e).released
  sigkills : s'.sigkills = (s.resources e).sigkills

theorem step_engine (hs : s.step (.engine e) = some s') : EngineStep s e s' := by
  simp only [step] at hs
  split_ifs at hs with hb
  obtain ⟨t, ht, rfl⟩ := Option.map_eq_some_iff.mp hs
  exact ⟨hb, ht, rfl, rfl, rfl, rfl, rfl, rfl, rfl, rfl, rfl⟩

theorem not_blocked (hb : ¬s.Blocked e) (he : e.handler = some h) : s.todo h = [] := by
  by_contra hne
  exact hb ⟨h, he, hne⟩

/-- The event of another handler. -/
theorem Accounts.resources_other (a : Accounts s) (he : e.handler ≠ some g) (hr : e ≠ .reap) :
    (s.resources e).acquired g = s.acquired g ∧ (s.resources e).released g = s.released g ∧
      (s.resources e).todo g = s.todo g := by
  cases e with
  | signal =>
    simp only [resources]
    split
    · rename_i n hn
      rw [closeFd_other (a.file_listening hn) nofun nofun]
      exact ⟨rfl, rfl, rfl⟩
    · exact ⟨rfl, rfl, rfl⟩
  | reap => exact absurd rfl hr
  | pipe h err =>
    have hgh : g ≠ h := fun heq => he (heq ▸ rfl)
    cases err <;> simp [resources, openPipe, acquire, hgh]
  | mallocStack h ok | mallocChild h ok =>
    have hgh : g ≠ h := fun heq => he (heq ▸ rfl)
    cases ok <;> simp [resources, acquire, owe, hgh]
  | clone h res =>
    have hgh : g ≠ h := fun heq => he (heq ▸ rfl)
    cases res <;> simp [resources, fork, setProc, owe, hgh]
  | mallocArg h ok =>
    have hgh : g ≠ h := fun heq => he (heq ▸ rfl)
    cases ok with
    | true => simp [resources, acquire, hgh]
    | false =>
      simp only [resources, Bool.false_eq_true, if_false]
      split <;> simp [owe, hgh]
  | send h | hangup h =>
    have hgh : g ≠ h := fun heq => he (heq ▸ rfl)
    simp [resources, owe, hgh]
  | _ => exact ⟨rfl, rfl, rfl⟩

/-- The reaper frees the stack of a start that has published its slot. -/
theorem Accounts.freeStack_eq (a : Accounts s) {t : Engine} (hs : s.engine.step .reap = some t) :
    s.freeStack = s ∨
      ∃ g, (s.engine.handler g).pc.held = none ∧ s.freeStack = s.release g .stack := by
  obtain ⟨h, pid, status, hr, hc, -⟩ := Engine.effect_reap (Engine.step_effect hs)
  simp only [freeStack, hr, hc, Option.bind_some]
  split
  · rename_i i hfind
    split
    · rename_i g hg
      have hu := (findContainerByPid_spec hfind).1
      exact Or.inr ⟨g, a.wf.held_of_settled (a.stacked i g hu hg), rfl⟩
    · exact Or.inl rfl
  · exact Or.inl rfl

/-- The event of the handler itself, or the `accept` that creates it. -/
theorem account_move {t : Engine} (hb : ¬s.Blocked e)
    (hm : Engine.PcMove g e (s.engine.handler g).pc (t.handler g).pc) :
    (s.account g).Step ({ s.resources e with engine := t }.account g) := by
  have hidle : e.handler = some g → (s.account g).todo = [] := not_blocked hb
  have hpc : (s.account g).pc = (s.engine.handler g).pc := rfl
  change (s.account g).Step ⟨(t.handler g).pc, (s.resources e).acquired g,
    (s.resources e).released g, (s.resources e).todo g⟩
  generalize (t.handler g).pc = pc' at hm
  generalize (s.engine.handler g).pc = pc at hm hpc
  cases hm with
  | accept => exact .accepted hpc
  | recv req =>
    unfold Engine.dispatch
    split_ifs
    · exact .move _ (Or.inr (by rw [hpc]; rfl)) (Or.inr (by rw [hpc]; rfl)) (by simp [hpc])
        (by simp) (hidle rfl)
    all_goals
      exact .move _ (Or.inl rfl) (Or.inl rfl) (by simp [hpc]) (by simp) (hidle rfl)
  | hangup | send =>
    simp only [resources, owe, Function.update_self]
    exact .closing (by rw [hpc]; nofun) (by rw [hpc]; nofun) (hidle rfl)
  | pipe i =>
    simp only [resources, openPipe, acquire, Function.update_self]
    exact .took _ _ [] [] (by rw [hpc]; rfl) (by rw [hpc]; rfl) rfl rfl (by decide) nofun
      (by rw [hpc]; nofun) (hidle rfl)
  | mallocStack i | mallocChild i | mallocArg i pid =>
    simp only [resources, acquire, if_true, Function.update_self]
    exact .took _ _ _ _ (by rw [hpc]; rfl) (by rw [hpc]; rfl) rfl rfl (by decide) nofun
      (by rw [hpc]; nofun) (hidle rfl)
  | mallocStackFail i text | mallocChildFail i text | cloneFail err text i =>
    simp only [resources, owe, Bool.false_eq_true, if_false, Function.update_self]
    exact .owes _ _ _ _ (by rw [hpc]; rfl) rfl (by decide) (by decide) (Or.inl rfl)
      (by rw [hpc]; nofun) nofun (by rw [hpc]; nofun) (hidle rfl)
  | clone i pid =>
    simp only [resources, fork, setProc, owe, Function.update_self]
    exact .owes _ _ _ _ (by rw [hpc]; rfl) rfl (by decide) (by decide) (Or.inr (by rw [hpc]; rfl))
      (by rw [hpc]; nofun) nofun (by rw [hpc]; nofun) (hidle rfl)
  | mallocArgFail i pid text =>
    have hpc₀ : (s.engine.handler g).pc = .mallocArg i pid := hpc
    simp only [resources, Bool.false_eq_true, if_false, owe, hpc₀, Function.update_self]
    exact .owes _ _ _ _ (by rw [hpc]; rfl) rfl (.refl _) (by simp) (Or.inl rfl)
      (by rw [hpc]; nofun) nofun (by rw [hpc]; nofun) (hidle rfl)
  | reserve now i =>
    exact .move _ (Or.inr (by rw [hpc]; rfl)) (Or.inr (by rw [hpc]; rfl)) (by simp [hpc])
      (by simp) (hidle rfl)
  | publish i pid =>
    exact .move _ (Or.inr (by rw [hpc]; rfl)) (Or.inl rfl) (by simp [hpc]) (by simp)
      (hidle rfl)
  | pipeFail err text i =>
    exact .move _ (Or.inl rfl) (Or.inr (by rw [hpc]; rfl)) (by simp [hpc]) (by simp)
      (hidle rfl)
  | register i pid pc' hpc' =>
    rcases hpc' with rfl | rfl <;>
      exact .move _ (Or.inl rfl) (Or.inl rfl) (by simp [hpc]) (by simp) (hidle rfl)
  | runEnter i pc pc' hpc₀ hpc' =>
    have hne : (s.account g).pc ≠ .absent ∧ (s.account g).pc ≠ .closed := by
      rcases hpc₀ with rfl | rfl <;> simp [hpc]
    rcases hpc' with rfl | rfl <;>
      exact .move _ (Or.inl rfl) (Or.inl rfl) hne (by simp) (hidle rfl)
  | stopEnter pc' hpc' =>
    rcases hpc' with rfl | ⟨i, pid, rfl⟩ <;>
      exact .move _ (Or.inl rfl) (Or.inl rfl) (by simp [hpc]) (by simp) (hidle rfl)
  | refused | rollback | createProducer | spurious | stopKill | read =>
    exact .move _ (Or.inl rfl) (Or.inl rfl) (by simp [hpc]) (by simp) (hidle rfl)

/-- What happens in the containers changes nothing in the supervisor. -/
theorem step_container {e : ProcessEvent} (he : e.supervisor = false) (hs : s.step e = some s') :
    s' = { s with proc := s'.proc } := by
  cases e with
  | engine | cleanup | producerFree | producerClose | openOther | closeOther => cases he
  | child h ok =>
    obtain ⟨p, -, rfl⟩ := Option.map_eq_some_iff.mp hs
    rfl
  | fork h k k' =>
    simp only [step] at hs
    split at hs
    · split_ifs at hs
      cases hs
      rfl
    · cases hs
  | execve h k | openFile h k | dup h k | close h k =>
    simp only [step, program] at hs
    split at hs
    · split_ifs at hs
      cases hs
      rfl
    · cases hs
  | exit h k =>
    simp only [step] at hs
    split_ifs at hs
    cases hs
    rfl

/-- Everything that a step does to the account of a handler. -/
theorem Accounts.step_account (a : Accounts s) {e : ProcessEvent} (hs : s.step e = some s')
    (g : ℕ) : (s.account g).Step (s'.account g) := by
  cases e with
  | engine e =>
    simp only [step] at hs
    split_ifs at hs with hb
    obtain ⟨t, ht, rfl⟩ := Option.map_eq_some_iff.mp hs
    rcases Engine.step_pc ht g with hm | ⟨he, -, hsame⟩
    · exact account_move hb hm
    · rcases eq_or_ne e .reap with rfl | hr
      · rcases a.freeStack_eq ht with heq | ⟨h, hheld, heq⟩
        · simp only [account, resources, heq, hsame]
          exact .same
        · simp only [account, resources, heq, hsame, release]
          rcases eq_or_ne g h with rfl | hgh
          · rw [Function.update_self]
            exact .freed _ hheld
          · rw [Function.update_of_ne hgh]
            exact .same
      · obtain ⟨hacq, hrel, htodo⟩ := a.resources_other he hr
        simp only [account, hsame, hacq, hrel, htodo]
        exact .same
  | cleanup h =>
    simp only [step] at hs
    split at hs
    · rename_i c rest htodo
      cases hs
      have hp := a.performed (h := h) (c := c) (by rw [htodo]; exact List.mem_cons_self)
      simp only [account, owe, hp.engine, hp.acquired, hp.released, hp.todo]
      rcases eq_or_ne g h with rfl | hgh
      · rw [Function.update_self, Function.update_self]
        exact .worked c rest htodo
      · rw [Function.update_of_ne hgh, Function.update_of_ne hgh]
        exact .same
    · cases hs
  | producerFree h =>
    simp only [step] at hs
    split_ifs at hs with hc
    cases hs
    obtain ⟨i, hi⟩ := Option.ne_none_iff_exists'.mp hc.1
    simp only [account, release]
    rcases eq_or_ne g h with rfl | hgh
    · rw [Function.update_self]
      exact .freed _ (a.wf.held_of_settled (a.wf.producer g i hi))
    · rw [Function.update_of_ne hgh]
      exact .same
  | producerClose h =>
    simp only [step] at hs
    split_ifs at hs with hc
    cases hs
    obtain ⟨i, hi⟩ := Option.ne_none_iff_exists'.mp hc.1
    rw [closeFd_pipeRead (a.file_pipeRead ⟨a.producer h hc.1, hc.2.2⟩)]
    simp only [account, release]
    rcases eq_or_ne g h with rfl | hgh
    · rw [Function.update_self]
      exact .freed _ (a.wf.held_of_settled (a.wf.producer g i hi))
    · rw [Function.update_of_ne hgh]
      exact .same
  | openOther =>
    cases hs
    exact .same
  | closeOther n =>
    simp only [step] at hs
    split_ifs at hs with hf
    cases hs
    rw [closeFd_other hf nofun nofun]
    exact .same
  | _ =>
    rw [step_container rfl hs]
    exact .same

/-! ## Where the supervisor has its files open -/

theorem position_congr (hserver : s'.server = s.server) (hclient : s'.client = s.client)
    (hpipefd : s'.pipefd = s.pipefd)
    (hserves : ∀ g, (s'.account g).Serves ↔ (s.account g).Serves)
    (hopen : ∀ g r, r = .readEnd ∨ r = .writeEnd →
      ((s'.account g).Open r ↔ (s.account g).Open r)) : s'.position = s.position := by
  funext f
  cases f with
  | listening => exact hserver
  | client g => simp only [position, hserves, hclient]
  | pipeRead g => simp only [position, hopen g .readEnd (Or.inl rfl), hpipefd]
  | pipeWrite g => simp only [position, hopen g .writeEnd (Or.inr rfl), hpipefd]
  | std | devNull | other => rfl

/-- A connection is served until its handler closes it. -/
theorem Accounts.serves_engine (a : Accounts s) (hs : s.step (.engine e) = some s')
    (he : e ≠ .accept g) : (s'.account g).Serves ↔ (s.account g).Serves := by
  have st := step_engine hs
  rcases (a.step_account hs g).serves with hiff | ⟨hpc, hpc'⟩ | htodo
  · exact hiff
  · change (s.engine.handler g).pc = .absent at hpc
    change (s'.engine.handler g).pc = .recv at hpc'
    rcases Engine.step_pc st.engine g with hm | ⟨-, -, hsame⟩
    · rw [hpc, hpc'] at hm
      cases hm with
      | accept => exact absurd rfl he
      | runEnter _ _ _ h0 => simp at h0
    · rw [hsame] at hpc'
      exact absurd (hpc.symm.trans hpc') nofun
  · change s.todo g = .closeClient :: s'.todo g at htodo
    have hother : e.handler ≠ some g := fun heq => by simp [not_blocked st.blocked heq] at htodo
    have hsame : s'.todo g = s.todo g := by
      rw [st.todo]
      rcases eq_or_ne e .reap with rfl | hr
      · rcases a.freeStack_eq st.engine with heq | ⟨h, -, heq⟩ <;>
          simp only [resources, heq, release]
      · exact (a.resources_other hother hr).2.2
    rw [hsame] at htodo
    exact absurd htodo List.ne_cons_self

/-- The ends of a pipe change hands only at `pipe`. -/
theorem Accounts.open_engine (a : Accounts s) (hs : s.step (.engine e) = some s')
    (he : e ≠ .pipe g none) {r : Resource} (hr : r = .readEnd ∨ r = .writeEnd) :
    (s'.account g).Open r ↔ (s.account g).Open r := by
  have hne : r ≠ .stack ∧ r ≠ .childArg ∧ r ≠ .producerArg := by
    rcases hr with rfl | rfl <;> simp
  have hupdate (h : ℕ) (f : ℕ → List Resource) (r' : Resource) (hrr' : r ≠ r') :
      r ∈ Function.update f h (f h ++ [r']) g ↔ r ∈ f g := by
    rcases eq_or_ne g h with rfl | hgh
    · simp [hrr']
    · rw [Function.update_of_ne hgh]
  have st := step_engine hs
  simp only [account, Account.Open, st.acquired, st.released]
  cases e with
  | signal =>
    simp only [resources]
    split
    · rename_i n hn
      rw [closeFd_other (a.file_listening hn) nofun nofun]
    · exact Iff.rfl
  | reap =>
    rcases a.freeStack_eq st.engine with heq | ⟨h, -, heq⟩
    · simp only [resources, heq]
    · simp only [resources, heq, release, hupdate _ _ _ hne.1]
  | pipe h err =>
    cases err with
    | none =>
      have hgh : g ≠ h := fun heq => he (heq ▸ rfl)
      simp [resources, openPipe, acquire, hgh]
    | some text => exact Iff.rfl
  | mallocStack h ok | mallocChild h ok =>
    cases ok <;> simp [resources, acquire, owe, hupdate, hne]
  | clone h res => cases res <;> exact Iff.rfl
  | mallocArg h ok =>
    cases ok with
    | true => simp [resources, acquire, hupdate, hne]
    | false =>
      simp only [resources, Bool.false_eq_true, if_false]
      split <;> exact Iff.rfl
  | _ => exact Iff.rfl

/-- An end of a pipe that is released is not open any more. -/
theorem open_released {r r' : Resource} (hacq : s'.acquired = s.acquired)
    (hrel : s'.released = Function.update s.released h (s.released h ++ [r])) :
    (s'.account g).Open r' ↔ (s.account g).Open r' ∧ ¬(g = h ∧ r' = r) := by
  simp only [account, Account.Open, hacq, hrel]
  rcases eq_or_ne g h with rfl | hgh
  · rw [Function.update_self]
    simp [and_assoc]
  · simp [hgh]

/-- The position of the one file that a step opens or closes. -/
theorem position_update {o : Option ℕ} (hf : s'.position f = o)
    (hne : ∀ f', f' ≠ f → s'.position f' = s.position f') :
    s'.position = Function.update s.position f o := by
  funext f'
  rcases eq_or_ne f' f with rfl | hff
  · rw [Function.update_self, hf]
  · rw [Function.update_of_ne hff, hne f' hff]

/-- One end of a pipe : what it is for the account, the file and its descriptor. -/
inductive PipeEnd (s : Processes) (h : ℕ) : Resource → File → ℕ → Prop
  | read : PipeEnd s h .readEnd (.pipeRead h) (s.pipefd h).1
  | write : PipeEnd s h .writeEnd (.pipeWrite h) (s.pipefd h).2

/-- The supervisor closes an end of a pipe. -/
theorem Accounts.tracks_released (a : Accounts s) {r : Resource} (hend : s.PipeEnd h r f n)
    (ho : (s.account h).Open r) (hfds : s'.fds = s.fds.close n) (hserver : s'.server = s.server)
    (hclient : s'.client = s.client) (hpipefd : s'.pipefd = s.pipefd)
    (hacq : s'.acquired = s.acquired)
    (hrel : s'.released = Function.update s.released h (s.released h ++ [r]))
    (hserves : ∀ g, (s'.account g).Serves ↔ (s.account g).Serves) :
    s'.fds.Tracks File.Tracked s'.position := by
  have hfile : s.fds.file n = some f := by
    cases hend with
    | read => exact a.file_pipeRead ho
    | write => exact a.file_pipeWrite ho
  have hpos : s'.position = Function.update s.position f none := by
    refine position_update ?_ fun f' hf' => ?_
    · cases hend <;> simp [position, open_released hacq hrel]
    · have hclosed (g : ℕ) (r' : Resource) (hne : ¬(g = h ∧ r' = r)) :
          (s'.account g).Open r' ↔ (s.account g).Open r' := by
        rw [open_released hacq hrel, and_iff_left hne]
      cases f' with
      | listening => exact hserver
      | client g => simp only [position, hserves, hclient]
      | pipeRead g =>
        have hne : ¬(g = h ∧ .readEnd = r) := by
          rintro ⟨rfl, rfl⟩
          cases hend
          exact hf' rfl
        simp only [position, hclosed g _ hne, hpipefd]
      | pipeWrite g =>
        have hne : ¬(g = h ∧ .writeEnd = r) := by
          rintro ⟨rfl, rfl⟩
          cases hend
          exact hf' rfl
        simp only [position, hclosed g _ hne, hpipefd]
      | std | devNull | other => rfl
  rw [hfds, hpos]
  exact a.tracks.close hfile

theorem Accounts.tracks_signal (a : Accounts s) (hs : s.step (.engine .signal) = some s') :
    s'.fds.Tracks File.Tracked s'.position := by
  have st := step_engine hs
  have hserves (g : ℕ) := a.serves_engine (g := g) hs nofun
  have hopen (g : ℕ) (r : Resource) := a.open_engine (g := g) (r := r) hs nofun
  cases hn : s.server with
  | none =>
    have hres : s.resources .signal = s := by simp only [resources, hn]
    rw [position_congr (by rw [st.server, hres]) (by rw [st.client, hres])
      (by rw [st.pipefd, hres]) hserves hopen, st.fds, hres]
    exact a.tracks
  | some n =>
    have hres : s.resources .signal = { s with fds := s.fds.close n, server := none } := by
      simp only [resources, hn, closeFd_other (a.file_listening hn) nofun nofun]
    have hserver : s'.server = none := by rw [st.server, hres]
    have hclient : s'.client = s.client := by rw [st.client, hres]
    have hpipefd : s'.pipefd = s.pipefd := by rw [st.pipefd, hres]
    have hpos : s'.position = Function.update s.position .listening none := by
      refine position_update hserver fun f hf => ?_
      cases f with
      | listening => exact absurd rfl hf
      | client g => simp only [position, hserves, hclient]
      | pipeRead g => simp only [position, hopen g _ (Or.inl rfl), hpipefd]
      | pipeWrite g => simp only [position, hopen g _ (Or.inr rfl), hpipefd]
      | std | devNull | other => rfl
    rw [hpos, st.fds, hres]
    exact a.tracks.close (a.file_listening hn)

theorem Accounts.tracks_accept (a : Accounts s) (hs : s.step (.engine (.accept h)) = some s') :
    s'.fds.Tracks File.Tracked s'.position := by
  have st := step_engine hs
  have hopen (g : ℕ) (r : Resource) := a.open_engine (g := g) (r := r) hs nofun
  obtain ⟨hpc, hpc'⟩ : (s.account h).pc = .absent ∧ (s'.account h).pc = .recv := by
    rcases Engine.step_pc st.engine h with hm | ⟨-, hne, -⟩
    · change Engine.PcMove h _ (s.account h).pc (s'.account h).pc at hm
      generalize (s.account h).pc = pc at hm
      generalize (s'.account h).pc = pc' at hm
      cases hm
      exact ⟨rfl, rfl⟩
    · exact absurd rfl hne
  have hserver : s'.server = s.server := st.server
  have hclient : s'.client = Function.update s.client h s.fds.lowest := st.client
  have hpipefd : s'.pipefd = s.pipefd := st.pipefd
  have hnone : s.position (.client h) = none := if_neg fun hv => hv.1 hpc
  have hpos : s'.position = Function.update s.position (.client h) (some s.fds.lowest) := by
    refine position_update ?_ fun f hf => ?_
    · simp [position, Account.Serves, hpc', hclient]
    cases f with
    | listening => exact hserver
    | client g =>
      have hgh : g ≠ h := fun heq => hf (heq ▸ rfl)
      have hserves := a.serves_engine (g := g) hs fun heq => hgh (Event.accept.inj heq).symm
      simp only [position, hserves, hclient, Function.update_of_ne hgh]
    | pipeRead g => simp only [position, hopen g _ (Or.inl rfl), hpipefd]
    | pipeWrite g => simp only [position, hopen g _ (Or.inr rfl), hpipefd]
    | std | devNull | other => rfl
  rw [hpos, st.fds]
  exact a.tracks.openFile hnone

theorem Accounts.tracks_pipe (a : Accounts s) (hs : s.step (.engine (.pipe h none)) = some s') :
    s'.fds.Tracks File.Tracked s'.position := by
  have st := step_engine hs
  have hserves (g : ℕ) := a.serves_engine (g := g) hs nofun
  have hopen {g : ℕ} (hgh : g ≠ h) {r : Resource} :=
    a.open_engine (g := g) (r := r) hs fun heq => hgh (Event.pipe.inj heq).1.symm
  obtain ⟨i, hpc⟩ : ∃ i, (s.account h).pc = .pipe i := by
    rcases Engine.step_pc st.engine h with hm | ⟨hne, -, -⟩
    · change Engine.PcMove h _ (s.account h).pc _ at hm
      generalize (s.account h).pc = pc at hm
      generalize (s'.engine.handler h).pc = pc' at hm
      cases hm
      exact ⟨_, rfl⟩
    · exact absurd rfl hne
  have hacq : s.acquired h = [] := (a.balanced h).taken [] (by rw [hpc]; rfl)
  have hrel : s.released h = [] := by
    have hbal := (a.balanced h).balance [] (by rw [hpc]; rfl)
    change (s.acquired h).Perm _ at hbal
    rw [hacq] at hbal
    exact (List.append_eq_nil_iff.mp hbal.nil_eq.symm).1
  have hacq' : s'.acquired h = [.readEnd, .writeEnd] := by
    rw [st.acquired]
    simp [resources, openPipe, acquire, hacq]
  have hrel' : s'.released h = [] := by
    rw [st.released]
    exact hrel
  have hserver : s'.server = s.server := st.server
  have hclient : s'.client = s.client := st.client
  have hpipefd : s'.pipefd = Function.update s.pipefd h
      (s.fds.lowest, (s.fds.openFile (.pipeRead h) false).lowest) := st.pipefd
  have hread : s.position (.pipeRead h) = none := by
    simp [position, account, Account.Open, hacq]
  have hwrite : s.position (.pipeWrite h) = none := by
    simp [position, account, Account.Open, hacq]
  have hpos : s'.position =
      Function.update (Function.update s.position (.pipeRead h) (some s.fds.lowest))
        (.pipeWrite h) (some (s.fds.openFile (.pipeRead h) false).lowest) := by
    funext f
    cases f with
    | listening => exact hserver
    | client g => simp [position, hserves, hclient]
    | pipeRead g =>
      rcases eq_or_ne g h with rfl | hgh
      · simp [position, account, Account.Open, hacq', hrel', hpipefd]
      · simp [position, hopen hgh (Or.inl rfl), hpipefd, hgh]
    | pipeWrite g =>
      rcases eq_or_ne g h with rfl | hgh
      · simp [position, account, Account.Open, hacq', hrel', hpipefd]
      · simp [position, hopen hgh (Or.inr rfl), hpipefd, hgh]
    | std | devNull | other => rfl
  rw [hpos, st.fds]
  refine (a.tracks.openFile hread).openFile ?_
  rw [Function.update_of_ne (by simp), hwrite]

/-- Such an event of the supervisor's threads opens and closes nothing. -/
theorem Accounts.resources_quiet (a : Accounts s) {t : Engine} (ht : s.engine.step e = some t)
    (he : e.Quiet) :
    (s.resources e).server = s.server ∧ (s.resources e).client = s.client ∧
      (s.resources e).pipefd = s.pipefd ∧ (s.resources e).fds = s.fds := by
  cases e with
  | signal | accept h => exact he.elim
  | pipe h err =>
    cases err with
    | none => exact he.elim
    | some text => exact ⟨rfl, rfl, rfl, rfl⟩
  | mallocStack h ok | mallocChild h ok => cases ok <;> exact ⟨rfl, rfl, rfl, rfl⟩
  | clone h res => cases res <;> exact ⟨rfl, rfl, rfl, rfl⟩
  | mallocArg h ok =>
    simp only [resources]
    repeat' split
    all_goals exact ⟨rfl, rfl, rfl, rfl⟩
  | reap =>
    rcases a.freeStack_eq ht with heq | ⟨g, -, heq⟩ <;> simp [resources, heq, release]
  | _ => exact ⟨rfl, rfl, rfl, rfl⟩

theorem Accounts.tracks_engine (a : Accounts s) (hs : s.step (.engine e) = some s') :
    s'.fds.Tracks File.Tracked s'.position := by
  have quiet (he : e.Quiet) (haccept : ∀ g, e ≠ .accept g) (hpipe : ∀ g, e ≠ .pipe g none) :
      s'.fds.Tracks File.Tracked s'.position := by
    have st := step_engine hs
    obtain ⟨hserver, hclient, hpipefd, hfds⟩ := a.resources_quiet st.engine he
    rw [position_congr (st.server.trans hserver) (st.client.trans hclient)
      (st.pipefd.trans hpipefd) (fun g => a.serves_engine hs (haccept g))
      (fun g r => a.open_engine hs (hpipe g)), st.fds, hfds]
    exact a.tracks
  cases e with
  | signal => exact a.tracks_signal hs
  | accept h => exact a.tracks_accept hs
  | pipe h err =>
    cases err with
    | none => exact a.tracks_pipe hs
    | some text => exact quiet trivial nofun nofun
  | _ => exact quiet trivial nofun nofun

theorem Accounts.tracks_cleanup (a : Accounts s) (hs : s.step (.cleanup h) = some s') :
    s'.fds.Tracks File.Tracked s'.position := by
  have haccount := a.step_account hs
  simp only [step] at hs
  split at hs
  case h_2 => cases hs
  case h_1 c rest htodo =>
    cases hs
    have hmem : c ∈ s.todo h := by
      rw [htodo]
      exact List.mem_cons_self
    have hp := a.performed hmem
    generalize hs' : (s.perform h c).owe h rest = s' at haccount ⊢
    have hfds : s'.fds = (s.target h c).elim s.fds s.fds.close := by rw [← hs']; exact hp.fds
    have hserver : s'.server = s.server := by rw [← hs']; exact hp.server
    have hclient : s'.client = s.client := by rw [← hs']; exact hp.client
    have hpipefd : s'.pipefd = s.pipefd := by rw [← hs']; exact hp.pipefd
    have hacq : s'.acquired = s.acquired := by rw [← hs']; exact hp.acquired
    have hrel : s'.released = Function.update s.released h (s.released h ++ c.resource.toList) := by
      rw [← hs']
      exact hp.released
    have hserves (g : ℕ) (hc : g = h → c ≠ .closeClient) :
        (s'.account g).Serves ↔ (s.account g).Serves := by
      rcases (haccount g).serves with hiff | ⟨hpc, hpc'⟩ | hclient
      · exact hiff
      · have hsame : (s'.account g).pc = (s.account g).pc := by
          rw [← hs']
          exact congrArg (fun t : Engine => (t.handler g).pc) hp.engine
        exact absurd (hpc.symm.trans (hsame.symm.trans hpc')) (by simp)
      · change s.todo g = .closeClient :: s'.todo g at hclient
        have htodo' : s'.todo = Function.update s.todo h rest := by rw [← hs', owe, hp.todo]
        rw [htodo'] at hclient
        rcases eq_or_ne g h with rfl | hgh
        · exact absurd (List.cons.inj (htodo.symm.trans hclient)).1 (hc rfl)
        · rw [Function.update_of_ne hgh] at hclient
          exact absurd hclient List.ne_cons_self
    have hquiet (hc : c.resource = none) (g : ℕ) (r : Resource) :
        (s'.account g).Open r ↔ (s.account g).Open r := by
      have hrel' : s'.released = s.released := by simp [hrel, hc]
      simp only [account, Account.Open, hacq, hrel']
    cases c with
    | closeRead =>
      exact a.tracks_released .read ((a.balanced h).open_of_mem hmem rfl) hfds hserver hclient
        hpipefd hacq hrel fun g => hserves g (by simp)
    | closeWrite =>
      exact a.tracks_released .write ((a.balanced h).open_of_mem hmem rfl) hfds hserver hclient
        hpipefd hacq hrel fun g => hserves g (by simp)
    | closeClient =>
      have hpos : s'.position = Function.update s.position (.client h) none := by
        refine position_update ?_ fun f hf => ?_
        · obtain ⟨hpc, hone⟩ := (a.balanced h).closing_of_mem hmem
          have hrest : rest = [] := (List.cons.inj (htodo.symm.trans hone)).2
          have hpc' : (s'.account h).pc = .closed := by
            rw [← hs']
            exact (congrArg (fun t : Engine => (t.handler h).pc) hp.engine).trans hpc
          have htodo' : (s'.account h).todo = [] := by
            simp [← hs', account, owe, hrest]
          simp [position, Account.Serves, hpc', htodo']
        · cases f with
          | listening => exact hserver
          | client g =>
            have hgh : g ≠ h := fun heq => hf (heq ▸ rfl)
            simp only [position, hserves g fun heq => absurd heq hgh, hclient]
          | pipeRead g => simp only [position, hquiet rfl, hpipefd]
          | pipeWrite g => simp only [position, hquiet rfl, hpipefd]
          | std | devNull | other => rfl
      rw [hpos, hfds]
      exact a.tracks.close (a.file_client ((a.balanced h).serves_of_mem hmem))
    | kill pid =>
      rw [position_congr hserver hclient hpipefd (fun g => hserves g (by simp))
        fun g r _ => hquiet rfl g r, hfds]
      exact a.tracks
    | freeStack | freeChild =>
      rw [position_congr hserver hclient hpipefd (fun g => hserves g (by simp))
        fun g r hr => ?_, hfds]
      · exact a.tracks
      · rw [open_released hacq hrel, and_iff_left]
        rintro ⟨-, rfl⟩
        simp at hr

/-- A step that leaves what the supervisor has open alone. -/
theorem Accounts.tracks_same (a : Accounts s) (hfds : s'.fds = s.fds)
    (hserver : s'.server = s.server) (hclient : s'.client = s.client)
    (hpipefd : s'.pipefd = s.pipefd) (haccount : s'.account = s.account) :
    s'.fds.Tracks File.Tracked s'.position := by
  rw [position_congr hserver hclient hpipefd (fun g => by rw [haccount])
    (fun g r _ => by rw [haccount]), hfds]
  exact a.tracks

theorem Accounts.step_tracks (a : Accounts s) {e : ProcessEvent} (hs : s.step e = some s') :
    s'.fds.Tracks File.Tracked s'.position := by
  cases e with
  | engine e => exact a.tracks_engine hs
  | cleanup h => exact a.tracks_cleanup hs
  | producerFree h =>
    simp only [step] at hs
    split_ifs at hs with hc
    cases hs
    have hpos : (s.release h .producerArg).position = s.position := by
      refine position_congr rfl rfl rfl (fun g => Iff.rfl) fun g r hr => ?_
      have hiff : ((s.release h .producerArg).account g).Open r ↔
        (s.account g).Open r ∧ ¬(g = h ∧ r = .producerArg) := open_released rfl rfl
      rw [hiff, and_iff_left]
      rintro ⟨-, rfl⟩
      simp at hr
    rw [hpos]
    exact a.tracks
  | producerClose h =>
    simp only [step] at hs
    split_ifs at hs with hc
    cases hs
    have ho : (s.account h).Open .readEnd := ⟨a.producer h hc.1, hc.2.2⟩
    rw [closeFd_pipeRead (a.file_pipeRead ho)]
    exact a.tracks_released .read ho rfl rfl rfl rfl rfl rfl fun g => Iff.rfl
  | openOther =>
    cases hs
    exact a.tracks.openFile_of_not nofun
  | closeOther n =>
    simp only [step] at hs
    split_ifs at hs with hf
    cases hs
    rw [closeFd_other hf nofun nofun]
    exact a.tracks.close_of_not hf nofun
  | _ =>
    rw [step_container rfl hs]
    exact a.tracks_same rfl rfl rfl rfl rfl

/-- What the supervisor's threads do is a step of the engine. -/
theorem Accounts.step_engine (a : Accounts s) {e : ProcessEvent} (hs : s.step e = some s') :
    s'.engine = s.engine ∨ ∃ e', e = .engine e' ∧ s.engine.step e' = some s'.engine := by
  cases e with
  | engine e => exact Or.inr ⟨e, rfl, (Processes.step_engine hs).engine⟩
  | cleanup h =>
    simp only [step] at hs
    split at hs
    · rename_i c rest htodo
      cases hs
      exact Or.inl (a.performed (by rw [htodo]; exact List.mem_cons_self)).engine
    · cases hs
  | producerFree h =>
    simp only [step] at hs
    split_ifs at hs
    cases hs
    exact Or.inl rfl
  | producerClose h =>
    simp only [step] at hs
    split_ifs at hs with hc
    cases hs
    rw [closeFd_pipeRead (a.file_pipeRead ⟨a.producer h hc.1, hc.2.2⟩)]
    exact Or.inl rfl
  | openOther =>
    cases hs
    exact Or.inl rfl
  | closeOther n =>
    simp only [step] at hs
    split_ifs at hs with hf
    cases hs
    rw [closeFd_other hf nofun nofun]
    exact Or.inl rfl
  | _ =>
    rw [step_container rfl hs]
    exact Or.inl rfl

/-- A producer is created when its start has acquired everything. -/
theorem Accounts.step_producer (a : Accounts s) {e : ProcessEvent} (hs : s.step e = some s')
    (hp : s'.engine.producer h ≠ none) : .readEnd ∈ s'.acquired h := by
  have hmono : .readEnd ∈ s.acquired h → .readEnd ∈ s'.acquired h := by
    intro hmem
    have hstep := a.step_account hs h
    change .readEnd ∈ (s'.account h).acquired
    change .readEnd ∈ (s.account h).acquired at hmem
    generalize s'.account h = b at hstep
    cases hstep with
    | took => exact List.mem_append_left _ hmem
    | _ => exact hmem
  refine hmono ?_
  rcases a.step_engine hs with heq | ⟨e', -, ht⟩
  · exact a.producer h (heq ▸ hp)
  · have heff := Engine.step_effect ht
    generalize s'.engine = t at heff hp
    cases heff with
    | createProducer g ok idx pid hpc =>
      dsimp only at hp
      split_ifs at hp
      · rcases eq_or_ne h g with rfl | hhg
        · have hacq : s.acquired h = Resource.order :=
            (a.balanced h).taken _ (by simp [account, hpc, Pc.taken])
          rw [hacq]
          decide
        · rw [Function.update_of_ne hhg] at hp
          exact a.producer h hp
      · exact a.producer h hp
    | _ => exact a.producer h hp

theorem Accounts.step (a : Accounts s) {e : ProcessEvent} (hs : s.step e = some s') :
    Accounts s' where
  wf := by
    rcases a.step_engine hs with heq | ⟨e', -, ht⟩
    · exact heq ▸ a.wf
    · exact a.wf.step (Engine.step_effect ht)
  stacked := by
    rcases a.step_engine hs with heq | ⟨e', -, ht⟩
    · exact heq ▸ a.stacked
    · exact a.stacked.step a.wf (Engine.step_effect ht)
  balanced h := (a.balanced h).step (a.step_account hs h)
  producer h hp := a.step_producer hs hp
  tracks := a.step_tracks hs

/-- The accounts are in order in every reachable state. -/
theorem Accounts.of_run {C : Processes → ProcessEvent → Prop}
    (hr : Transition.Run Processes.step C init s) : Accounts s :=
  hr.invariant accounts_init fun _ _ _ a _ hs => a.step hs

end Processes

end Jackfruit
