import Jackfruit.Accounts
import Jackfruit.Reaping

/-!
# What a start has released

A start that has published its slot leaves its resources to others : the producer frees its
argument and closes the read end, and the reaper frees the stack when it records the end of the
container. `StartAccount` says which of them are released in which state, and `Settling` that a
start that has failed, or any other request, holds nothing. So nothing is ever closed or freed twice
(`resources_accounted`), and what is left when all threads are idle are the stacks of the containers
whose end is not recorded, and two resources of each start whose producer could not be created.
-/

set_option linter.unusedSectionVars false

namespace Jackfruit

namespace Processes

variable {s s' : Processes} {e : ProcessEvent} {r : Resource} {i : Slot} {g h : ℕ}

/-! ## Who releases what a published start has -/

/-- What an event releases for a start that holds nothing for itself any more. -/
inductive Frees (s : Processes) (h : ℕ) : ProcessEvent → Resource → Prop
  | stack (i : Slot) : (s.engine.table i).used = true → (s.engine.table i).childStack = some h →
      Frees s h (.engine .reap) .stack
  | producerArg : s.engine.producer h ≠ none → .producerArg ∉ s.released h →
      Frees s h (.producerFree h) .producerArg
  | readEnd : s.engine.producer h ≠ none → .producerArg ∈ s.released h →
      .readEnd ∉ s.released h → Frees s h (.producerClose h) .readEnd

/-- The stack in the slot that the reaper finds. -/
theorem freeStack_of_found {pid : ℤ} {status : ℕ} (hr : s.engine.reaper = .holding g)
    (hc : s.engine.child g = some ⟨pid, .reaped status⟩)
    (hfind : findContainerByPid s.engine.table pid = some i) :
    s.freeStack = (s.engine.table i).childStack.elim s fun h => s.release h .stack := by
  simp only [freeStack, hr, hc, Option.bind_some, hfind]
  cases (s.engine.table i).childStack <;> rfl

/-- What the reaper's critical section releases. -/
theorem freeStack_released {t : Engine} (hs : s.engine.step .reap = some t) (h : ℕ) :
    s.freeStack.released h = s.released h ∨
      Frees s h (.engine .reap) .stack ∧
        s.freeStack.released h = s.released h ++ [.stack] := by
  obtain ⟨g, pid, status, hr, hc, -⟩ := Engine.effect_reap (Engine.step_effect hs)
  cases hfind : findContainerByPid s.engine.table pid with
  | none =>
    refine Or.inl ?_
    simp only [freeStack, hr, hc, Option.bind_some, hfind]
  | some i =>
    rw [freeStack_of_found hr hc hfind]
    cases hstack : (s.engine.table i).childStack with
    | none => exact Or.inl rfl
    | some f =>
      rcases eq_or_ne h f with rfl | hne
      · exact Or.inr ⟨.stack i (findContainerByPid_spec hfind).1 hstack, Function.update_self ..⟩
      · exact Or.inl (Function.update_of_ne hne ..)

/-- The events of a handler that holds nothing for itself release nothing and acquire nothing. -/
theorem Accounts.resources_idle (a : Accounts s) {e : Event} {t : Engine}
    (hs : s.engine.step e = some t) (hr : e ≠ .reap)
    (hheld : (s.engine.handler h).pc.held = none) :
    (s.resources e).acquired h = s.acquired h ∧ (s.resources e).released h = s.released h := by
  rcases Engine.step_pc hs h with hm | ⟨he, -, -⟩
  · generalize (s.engine.handler h).pc = pc at hm hheld
    generalize (t.handler h).pc = pc' at hm
    cases hm with
    | createProducer | register | runEnter | spurious | stopEnter | stopKill | read | send =>
      exact ⟨rfl, rfl⟩
    | _ => cases hheld
  · obtain ⟨hacq, hrel, -⟩ := a.resources_other he hr
    exact ⟨hacq, hrel⟩

/-- Everything that a step does to the resources of such a start. -/
theorem Accounts.held_step (a : Accounts s) (hs : s.step e = some s')
    (hheld : (s.engine.handler h).pc.held = none) :
    s'.acquired h = s.acquired h ∧
      (s'.released h = s.released h ∨
        ∃ r, Frees s h e r ∧ s'.released h = s.released h ++ [r]) := by
  cases e with
  | engine e =>
    have st := Processes.step_engine hs
    rw [st.acquired, st.released]
    by_cases hr : e = .reap
    · subst hr
      refine ⟨?_, (freeStack_released st.engine h).imp_right fun hf => ⟨_, hf⟩⟩
      rcases a.freeStack_eq st.engine with heq | ⟨f, -, heq⟩ <;> rw [resources, heq]
      rfl
    · obtain ⟨hacq, hrel⟩ := a.resources_idle st.engine hr hheld
      exact ⟨hacq, Or.inl hrel⟩
  | cleanup g =>
    simp only [Processes.step] at hs
    split at hs
    · rename_i c rest htodo
      cases hs
      have hmem : c ∈ s.todo g := by rw [htodo]; exact List.mem_cons_self
      have hp := a.performed hmem
      refine ⟨congrFun hp.acquired h, Or.inl ?_⟩
      change (s.perform g c).released h = s.released h
      rw [hp.released]
      rcases eq_or_ne h g with rfl | hne
      · have hc : c = .closeClient := by
          rcases (a.balanced h).other hheld with hnil | ⟨-, hone⟩
          · exact absurd (htodo.symm.trans hnil) (by simp)
          · exact (List.cons.inj (htodo.symm.trans hone)).1
        simp [hc, Cleanup.resource]
      · rw [Function.update_of_ne hne]
    · cases hs
  | producerFree g =>
    simp only [Processes.step] at hs
    split_ifs at hs with hc
    cases hs
    refine ⟨rfl, ?_⟩
    rcases eq_or_ne h g with rfl | hne
    · exact Or.inr ⟨_, .producerArg hc.1 hc.2, Function.update_self ..⟩
    · exact Or.inl (Function.update_of_ne hne ..)
  | producerClose g =>
    simp only [Processes.step] at hs
    split_ifs at hs with hc
    cases hs
    rw [closeFd_pipeRead (a.file_pipeRead ⟨a.producer g hc.1, hc.2.2⟩)]
    refine ⟨rfl, ?_⟩
    rcases eq_or_ne h g with rfl | hne
    · exact Or.inr ⟨_, .readEnd hc.1 hc.2.1 hc.2.2, Function.update_self ..⟩
    · exact Or.inl (Function.update_of_ne hne ..)
  | openOther =>
    cases hs
    exact ⟨rfl, Or.inl rfl⟩
  | closeOther n =>
    simp only [Processes.step] at hs
    split_ifs at hs with hf
    cases hs
    rw [closeFd_other hf (by simp) (by simp)]
    exact ⟨rfl, Or.inl rfl⟩
  | _ =>
    rw [step_container rfl hs]
    exact ⟨rfl, Or.inl rfl⟩

/-! ## A start that has published its slot -/

/-- What is released of a start with the slot `i`. -/
structure StartAccount (s : Processes) (i : Slot) (h : ℕ) : Prop where
  acquired : s.acquired h = Resource.order
  nodup : (s.released h).Nodup
  writeEnd : .writeEnd ∈ s.released h
  childArg : .childArg ∈ s.released h
  stack : .stack ∈ s.released h ↔ (s.engine.table i).state.Final
  childStack : (s.engine.table i).childStack = some h ↔ ¬(s.engine.table i).state.Final
  readEnd : .readEnd ∈ s.released h → .producerArg ∈ s.released h
  producerArg : .producerArg ∈ s.released h → s.engine.producer h ≠ none

theorem producer_kept (a : Accounts s) (hs : s.step e = some s')
    (hp : s.engine.producer h ≠ none) : s'.engine.producer h ≠ none := by
  rcases a.step_engine hs with heq | ⟨e', -, ht⟩
  · rwa [heq]
  · have heff := Engine.step_effect ht
    generalize s'.engine = t at heff ⊢
    cases heff with
    | createProducer g ok idx pid =>
      dsimp only
      split_ifs
      · rcases eq_or_ne h g with rfl | hne
        · simp
        · rwa [Function.update_of_ne hne]
      · exact hp
    | _ => exact hp

theorem not_released_again {l l' : List Resource} (heq : l' = l) : l' ≠ l ++ [r] := by
  rw [heq]
  exact fun h => by simpa using congrArg List.length h

/-- The slot of a start loses its stack when the reaper records its end, and only then. -/
theorem Accounts.slot_stack (a : Accounts s) (hs : s.step e = some s')
    (hi : s.engine.Settled i h) :
    ((s'.engine.table i).state = (s.engine.table i).state ∧
        (s'.engine.table i).childStack = (s.engine.table i).childStack ∧
        (Frees s h e .stack → s'.released h ≠ s.released h ++ [.stack])) ∨
      (s'.engine.table i).state.Final ∧ (s'.engine.table i).childStack = none ∧
        s'.released h = s.released h ++
          if (s.engine.table i).childStack = some h then [.stack] else [] := by
  by_cases he : e = .engine .reap
  · subst he
    have st := Processes.step_engine hs
    obtain ⟨g, pid, status, hr, hc, heq⟩ := Engine.effect_reap (Engine.step_effect st.engine)
    have hrel : s'.released h = s.freeStack.released h := congrFun st.released h
    have htable : s'.engine.table = reaperUpdate s.engine.table pid status :=
      congrArg Engine.table heq
    rw [htable, hrel]
    cases hfind : findContainerByPid s.engine.table pid with
    | none =>
      have hfree : s.freeStack = s := by
        simp only [freeStack, hr, hc, Option.bind_some, hfind]
      have hsame : reaperUpdate s.engine.table pid status = s.engine.table := by
        simp only [reaperUpdate, hfind]
      rw [hsame]
      exact Or.inl ⟨rfl, rfl, fun _ => not_released_again (by rw [hfree])⟩
    | some j =>
      rw [freeStack_of_found hr hc hfind]
      simp only [reaperUpdate, hfind]
      have hu := (findContainerByPid_spec hfind).1
      rcases eq_or_ne i j with rfl | hij
      · refine Or.inr ?_
        rw [Function.update_self]
        refine ⟨reapState_final _ _, rfl, ?_⟩
        cases hstack : (s.engine.table i).childStack with
        | none => simp
        | some f =>
          obtain rfl : f = h := Option.some.inj ((a.stacked i f hu hstack).1.symm.trans hi.1)
          simp [release]
      · refine Or.inl ?_
        rw [Function.update_of_ne hij]
        refine ⟨rfl, rfl, fun _ => not_released_again ?_⟩
        cases hstack : (s.engine.table j).childStack with
        | none => rfl
        | some f =>
          have hne : h ≠ f := by
            rintro rfl
            exact hij (a.wf.owner_inj i j h hi.1 (a.stacked j h hu hstack).1)
          exact Function.update_of_ne hne ..
  · refine Or.inl ?_
    have hfrees : ¬Frees s h e .stack := by
      rintro ⟨⟩
      exact he rfl
    rcases a.step_engine hs with heq | ⟨e', rfl, ht⟩
    · rw [heq]
      exact ⟨rfl, rfl, fun hf => absurd hf hfrees⟩
    · have hslot := a.wf.settledStep hi (Engine.step_slot (Engine.step_effect ht) i)
      generalize s'.engine.table i = c at hslot ⊢
      cases hslot with
      | live => exact ⟨rfl, rfl, fun hf => absurd hf hfrees⟩
      | reap _ _ _ hreap => exact absurd (hreap ▸ rfl) he

theorem StartAccount.step (d : StartAccount s i h) (a : Accounts s) (hs : s.step e = some s')
    (hi : s.engine.Settled i h) : StartAccount s' i h := by
  obtain ⟨hacq, hrel⟩ := a.held_step hs (a.wf.held_of_settled hi)
  have hproducer := producer_kept a hs (h := h)
  have hacquired := hacq.trans d.acquired
  have hmono {r : Resource} (hr : r ∈ s.released h) : r ∈ s'.released h := by
    rcases hrel with heq | ⟨r', -, heq⟩ <;> rw [heq]
    · exact hr
    · exact List.mem_append_left _ hr
  rcases a.slot_stack hs hi with ⟨hstate, hstack, hnot⟩ | ⟨hfin, hstack, heq⟩
  · have hchild : (s'.engine.table i).childStack = some h ↔ ¬(s'.engine.table i).state.Final := by
      rw [hstack, hstate]
      exact d.childStack
    rcases hrel with heq | ⟨r, hfrees, heq⟩
    · exact ⟨hacquired, heq ▸ d.nodup, hmono d.writeEnd, hmono d.childArg,
        by rw [heq, hstate]; exact d.stack, hchild,
        by rw [heq]; exact d.readEnd, fun hr => hproducer (d.producerArg (heq ▸ hr))⟩
    · cases hfrees with
      | stack j hu hj => exact absurd heq (hnot (.stack j hu hj))
      | producerArg hp hn =>
        refine ⟨hacquired, ?_, hmono d.writeEnd, hmono d.childArg, ?_, hchild, ?_,
          fun _ => hproducer hp⟩ <;> rw [heq]
        · exact d.nodup.append (List.nodup_singleton _) (by simpa using hn)
        · simpa [hstate] using d.stack
        · simp
      | readEnd hp harg hn =>
        refine ⟨hacquired, ?_, hmono d.writeEnd, hmono d.childArg, ?_, hchild,
          fun _ => hmono harg, fun _ => hproducer hp⟩ <;> rw [heq]
        · exact d.nodup.append (List.nodup_singleton _) (by simpa using hn)
        · simpa [hstate] using d.stack
  · have hchild : (s'.engine.table i).childStack = some h ↔ ¬(s'.engine.table i).state.Final := by
      simp [hstack, hfin]
    by_cases hbefore : (s.engine.table i).state.Final
    · rw [if_neg fun hc => d.childStack.mp hc hbefore, List.append_nil] at heq
      refine ⟨hacquired, heq ▸ d.nodup, hmono d.writeEnd, hmono d.childArg, ?_, hchild, ?_, ?_⟩ <;>
        rw [heq]
      · exact iff_of_true (d.stack.mpr hbefore) hfin
      · exact d.readEnd
      · exact fun hr => hproducer (d.producerArg hr)
    · rw [if_pos (d.childStack.mpr hbefore)] at heq
      refine ⟨hacquired, ?_, hmono d.writeEnd, hmono d.childArg, ?_, hchild, ?_, ?_⟩ <;> rw [heq]
      · exact d.nodup.append (List.nodup_singleton _)
          (by simpa using fun hm => hbefore (d.stack.mp hm))
      · exact iff_of_true (by simp) hfin
      · simpa using d.readEnd
      · simpa using fun hr => hproducer (d.producerArg hr)

/-- When a start publishes its slot it has released the write end and the argument of the child. -/
theorem Accounts.startAccount_new (a : Accounts s) (hs : s.step e = some s')
    (hnew : s'.engine.Settled i h) (hold : ¬s.engine.Settled i h) : StartAccount s' i h := by
  rcases a.step_engine hs with heq | ⟨e', rfl, ht⟩
  · exact absurd (heq ▸ hnew) hold
  rcases a.wf.settled_new (Engine.step_effect ht) hnew with hsame | ⟨pid, rfl, hpc, heq⟩
  · exact absurd hsame hold
  have st := Processes.step_engine hs
  have hacq : s.acquired h = Resource.order :=
    (a.balanced h).taken _ (by simp [account, hpc, Pc.taken])
  have hbal := (a.balanced h).balance [.readEnd, .stack, .producerArg]
    (by simp [account, hpc, Pc.held])
  have htodo : (s.account h).todo = [] := not_blocked st.blocked rfl
  rw [htodo, owed, List.filterMap_nil, List.append_nil] at hbal
  change (s.acquired h).Perm (s.released h ++ _) at hbal
  have hrel : (s.released h).Perm [.writeEnd, .childArg] := by
    refine (List.perm_append_right_iff [.readEnd, .stack, .producerArg]).mp (hbal.symm.trans ?_)
    rw [hacq]
    decide
  have hacq' : s'.acquired h = s.acquired h := congrFun st.acquired h
  have hrel' : s'.released h = s.released h := congrFun st.released h
  have htable : s'.engine.table i = (s.engine.table i).publish pid h := by
    rw [heq]
    exact Function.update_self ..
  constructor
  case acquired => exact hacq'.trans hacq
  all_goals simp only [hrel', hrel.nodup_iff, hrel.mem_iff, htable]
  all_goals simp [Container.publish, ContainerState.Final]

/-! ## All accounts -/

/-- What is released in every state : of a start that has published its slot, and of everything
that holds nothing for itself and has no slot. -/
structure Ledger (s : Processes) : Prop where
  started : ∀ i h, s.engine.Settled i h → StartAccount s i h
  idle : ∀ h, (s.engine.handler h).pc.held = none → (∀ i, ¬s.engine.Settled i h) →
    (s.acquired h).Perm (s.released h)

theorem settled_kept (a : Accounts s) (hs : s.step e = some s') (hi : s.engine.Settled i h) :
    s'.engine.Settled i h := by
  rcases a.step_engine hs with heq | ⟨e', -, ht⟩
  · rwa [heq]
  · exact (a.wf.settled_step (Engine.step_effect ht) hi).1

/-- A start that returns without its slot has released everything. -/
theorem Accounts.perm_of_returns (a : Accounts s) (a' : Accounts s') (hs : s.step e = some s')
    (hheld : (s.engine.handler h).pc.held ≠ none)
    (hheld' : (s'.engine.handler h).pc.held = none) (hfree : ∀ i, ¬s'.engine.Settled i h) :
    (s'.acquired h).Perm (s'.released h) := by
  rcases a.step_engine hs with heq | ⟨e', rfl, ht⟩
  · exact absurd (heq ▸ hheld') hheld
  have st := Processes.step_engine hs
  rcases Engine.step_pc ht h with hm | ⟨-, -, hsame⟩
  · have key (he : e'.handler = some h) (hres : (s.resources e').acquired h = s.acquired h ∧
        (s.resources e').released h = s.released h)
        (hnil : (s.engine.handler h).pc.held = some []) :
        (s'.acquired h).Perm (s'.released h) := by
      have htodo : (s.account h).todo = [] := not_blocked st.blocked he
      have hbal := (a.balanced h).balance [] hnil
      rw [htodo, owed, List.filterMap_nil, List.append_nil, List.append_nil] at hbal
      rw [st.acquired, st.released, hres.1, hres.2]
      exact hbal
    generalize hpc : (s.engine.handler h).pc = pc at hm hheld key
    generalize hpc' : (s'.engine.handler h).pc = pc' at hm hheld'
    cases hm with
    | recv | hangup | refused | rollback => exact key rfl ⟨rfl, rfl⟩ rfl
    | publish i pid => exact absurd (a'.wf.published h i (by rw [hpc']; rfl)) (hfree i)
    | runEnter j pc pc' hj => rcases hj with rfl | rfl <;> exact absurd rfl hheld
    | createProducer | register | spurious | stopEnter | stopKill | read | send =>
      exact absurd rfl hheld
    | _ => cases hheld'
  · exact absurd (hsame ▸ hheld') hheld

theorem Ledger.step (d : Ledger s) (a : Accounts s) (hs : s.step e = some s') : Ledger s' := by
  refine ⟨fun i h hi => ?_, fun h hheld' hfree' => ?_⟩
  · by_cases hold : s.engine.Settled i h
    · exact (d.started i h hold).step a hs hold
    · exact a.startAccount_new hs hi hold
  · by_cases hheld : (s.engine.handler h).pc.held = none
    · have hfree (i : Slot) (hi : s.engine.Settled i h) : False :=
        hfree' i (settled_kept a hs hi)
      obtain ⟨hacq, heq | ⟨r, hfrees, -⟩⟩ := a.held_step hs hheld
      · rw [hacq, heq]
        exact d.idle h hheld hfree
      · cases hfrees with
        | stack i hu hst => exact (hfree i (a.stacked i h hu hst)).elim
        | producerArg hp | readEnd hp =>
          obtain ⟨i, hi⟩ := Option.ne_none_iff_exists'.mp hp
          exact (hfree i (a.wf.producer h i hi)).elim
    · exact a.perm_of_returns (a.step hs) hs hheld hheld' hfree'

theorem Ledger.of_run {C : Processes → ProcessEvent → Prop}
    (hr : Transition.Run Processes.step C init s) : Ledger s := by
  refine hr.invariant_of_reached ⟨fun i h hi => ?_, fun h _ _ => .refl _⟩
    fun _ _ _ ht d _ hs => d.step (.of_run ht) hs
  simp [Engine.Settled, init, Engine.init] at hi

/-! ## What is left -/

/-- No handler is at work, and the producers have closed their read ends. -/
structure AtRest (s : Processes) : Prop where
  handler : ∀ h, (s.engine.handler h).pc = .absent ∨ (s.engine.handler h).pc = .closed
  todo : ∀ h, s.todo h = []
  producer : ∀ h, s.engine.producer h ≠ none → .readEnd ∈ s.released h

/-- What a start that has published its slot has not released. -/
theorem StartAccount.open_iff (d : StartAccount s i h) (w : s.engine.Wf)
    (hi : s.engine.Settled i h) (r : Resource) :
    (s.account h).Open r ↔ r = .stack ∧ (s.engine.table i).state = .running ∨
      (r = .readEnd ∨ r = .producerArg) ∧ r ∉ s.released h := by
  have hrunning : ¬(s.engine.table i).state.Final ↔ (s.engine.table i).state = .running := by
    refine ⟨(w.of_settled hi).1.resolve_right, fun hrun => ?_⟩
    simp [hrun, ContainerState.Final]
  change r ∈ s.acquired h ∧ r ∉ s.released h ↔ _
  rw [d.acquired, ← hrunning, ← d.stack]
  cases r with
  | writeEnd => simp [d.writeEnd]
  | childArg => simp [d.childArg]
  | _ => simp [Resource.order]

/-- Nothing that was not acquired is released, and nothing twice. -/
theorem Ledger.released (d : Ledger s) (a : Accounts s) (h : ℕ) :
    (s.released h).Nodup ∧ s.released h ⊆ s.acquired h := by
  cases hheld : (s.engine.handler h).pc.held with
  | some l =>
    have hbal := (a.balanced h).balance l hheld
    change (s.acquired h).Perm (s.released h ++ _) at hbal
    have hnodup := hbal.nodup_iff.mp (a.balanced h).nodup
    exact ⟨hnodup.of_append_left, fun r hr => hbal.mem_iff.mpr (List.mem_append_left _ hr)⟩
  | none =>
    by_cases hfree : ∀ i, ¬s.engine.Settled i h
    · have hperm := d.idle h hheld hfree
      exact ⟨hperm.nodup_iff.mp (a.balanced h).nodup, hperm.symm.subset⟩
    · push Not at hfree
      obtain ⟨i, hi⟩ := hfree
      have hd := d.started i h hi
      refine ⟨hd.nodup, fun r _ => ?_⟩
      rw [hd.acquired]
      cases r <;> decide

/-- When the supervisor is at rest a start holds the stack of a container that is RUNNING, and the
read end and the argument of a producer that could not be created. -/
theorem Ledger.open_atRest (d : Ledger s) (a : Accounts s) (hq : s.AtRest) (h : ℕ)
    (r : Resource) : (s.account h).Open r ↔ ∃ i, s.engine.Settled i h ∧
      (r = .stack ∧ (s.engine.table i).state = .running ∨
        (r = .readEnd ∨ r = .producerArg) ∧ s.engine.producer h = none) := by
  by_cases hfree : ∀ i, ¬s.engine.Settled i h
  · refine iff_of_false (fun ho => ?_) fun ⟨i, hi, _⟩ => hfree i hi
    rcases hq.handler h with hpc | hpc
    · have hnil := (a.balanced h).taken [] (by simp [account, hpc, Pc.taken])
      simp [Account.Open, hnil] at ho
    · exact ho.2 ((d.idle h (by rw [hpc]; rfl) hfree).mem_iff.mp ho.1)
  · push Not at hfree
    obtain ⟨i, hi⟩ := hfree
    have hd := d.started i h hi
    have hproducer (hr : r = .readEnd ∨ r = .producerArg) :
        r ∉ s.released h ↔ s.engine.producer h = none := by
      constructor
      · intro hr'
        by_contra hp
        have hread := hq.producer h hp
        rcases hr with rfl | rfl
        · exact hr' hread
        · exact hr' (hd.readEnd hread)
      · rintro hp hr'
        rcases hr with rfl | rfl
        · exact hd.producerArg (hd.readEnd hr') hp
        · exact hd.producerArg hr' hp
    rw [hd.open_iff a.wf hi, and_congr_right hproducer]
    refine ⟨fun ho => ⟨i, hi, ho⟩, fun ⟨j, hj, ho⟩ => ?_⟩
    rwa [a.wf.owner_inj i j h hi.1 hj.1]

/-- In every reachable state : no descriptor is closed twice and no block freed twice, and none that
was not acquired; an end of a pipe is open in the supervisor, at one descriptor, exactly from its
`pipe` to the `close` that releases it, and a connection until its handler is done with it; of a
start that has published its slot the write end and the argument of the child are released, and the
stack exactly once its container's end is recorded; and when the supervisor is at rest, all that is
left are the stacks of the RUNNING containers and the read end and the argument of each producer
that could not be created. -/
theorem resources_accounted (hr : Reachable s) :
    (∀ h, (s.released h).Nodup ∧ s.released h ⊆ s.acquired h) ∧
      (∀ h n, (s.fds.file n = some (.pipeRead h) ↔
          (s.account h).Open .readEnd ∧ (s.pipefd h).1 = n) ∧
        (s.fds.file n = some (.pipeWrite h) ↔
          (s.account h).Open .writeEnd ∧ (s.pipefd h).2 = n) ∧
        (s.fds.file n = some (.client h) ↔ (s.account h).Serves ∧ s.client h = n)) ∧
      (∀ i h, s.engine.Settled i h → ¬(s.account h).Open .writeEnd ∧
        ¬(s.account h).Open .childArg ∧
        ((s.account h).Open .stack ↔ (s.engine.table i).state = .running)) ∧
      (s.AtRest → ∀ h r, (s.account h).Open r ↔ ∃ i, s.engine.Settled i h ∧
        (r = .stack ∧ (s.engine.table i).state = .running ∨
          (r = .readEnd ∨ r = .producerArg) ∧ s.engine.producer h = none)) := by
  have a := Accounts.of_run hr
  have d := Ledger.of_run hr
  refine ⟨d.released a, fun h n => ?_, fun i h hi => ?_, d.open_atRest a⟩
  · have htracks {f : File} (hf : f.Tracked) := a.tracks n f hf
    rw [htracks (f := .pipeRead h) trivial, htracks (f := .pipeWrite h) trivial,
      htracks (f := .client h) trivial]
    simp only [position, Option.ite_none_right_eq_some, Option.some.injEq, and_self]
  · have hopen := (d.started i h hi).open_iff a.wf hi
    simp [hopen]

/-- A container that runs to its end, with its producer. -/
theorem resources_accounted_one : ∃ s : Processes,
    s.released 0 = [.childArg, .writeEnd, .producerArg, .stack, .readEnd] ∧
      s.released 0 ⊆ s.acquired 0 ∧ (s.released 0).Nodup := by
  obtain ⟨s, hr, hrel⟩ := Transition.exists_run_of_exec step Transition.Always init
    ((Engine.playClone 0 REQ_START "a" 7).map .engine ++ [.cleanup 0, .cleanup 0] ++
      (Engine.playPublish 0).map .engine ++
      [.producerFree 0, .engine (.exit 0 0), .engine (.waitpid 0), .engine .reap,
        .producerClose 0])
    (fun s => s.released 0 = [.childArg, .writeEnd, .producerArg, .stack, .readEnd]) (by decide)
  obtain ⟨hnodup, hsub⟩ := (resources_accounted hr).1 0
  exact ⟨s, hrel, hsub, hnodup⟩

end Processes

end Jackfruit
