import Jackfruit.EngineInv

/-!
# Who moves a handler

`PcMove h e pc pc'` lists, for every event of the handler `h`, from where to where it moves `h`,
with what the call of a start returned. `step_pc` says that a handler moves in no other way, so
between two calls of its start no other thread moves it.
-/

set_option linter.unusedSectionVars false

namespace Jackfruit

namespace Engine

/-- How an event moves the handler `h` that takes the step, or that `accept` creates. -/
inductive PcMove (h : ℕ) : Event → Pc → Pc → Prop
  | accept : PcMove h (.accept h) .absent .recv
  | recv (req : Request) : PcMove h (.recv h req) .recv (dispatch req)
  | hangup : PcMove h (.hangup h) .recv .closed
  | refused (now : ℤ) : PcMove h (.reserve h now) .reserve .send
  | reserve (now : ℤ) (i : Slot) : PcMove h (.reserve h now) .reserve (.pipe i)
  | pipe (i : Slot) : PcMove h (.pipe h none) (.pipe i) (.mallocStack i)
  | pipeFail (err text : CStr) (i : Slot) :
      PcMove h (.pipe h (some err)) (.pipe i) (.rollback i text)
  | mallocStack (i : Slot) : PcMove h (.mallocStack h true) (.mallocStack i) (.mallocChild i)
  | mallocStackFail (i : Slot) (text : CStr) :
      PcMove h (.mallocStack h false) (.mallocStack i) (.rollback i text)
  | mallocChild (i : Slot) : PcMove h (.mallocChild h true) (.mallocChild i) (.clone i)
  | mallocChildFail (i : Slot) (text : CStr) :
      PcMove h (.mallocChild h false) (.mallocChild i) (.rollback i text)
  | clone (i : Slot) (pid : ℤ) : PcMove h (.clone h (.ok pid)) (.clone i) (.mallocArg i pid)
  | cloneFail (err text : CStr) (i : Slot) :
      PcMove h (.clone h (.error err)) (.clone i) (.rollback i text)
  | mallocArg (i : Slot) (pid : ℤ) :
      PcMove h (.mallocArg h true) (.mallocArg i pid) (.publish i pid)
  | mallocArgFail (i : Slot) (pid : ℤ) (text : CStr) :
      PcMove h (.mallocArg h false) (.mallocArg i pid) (.rollback i text)
  | rollback (i : Slot) (text : CStr) : PcMove h (.rollback h) (.rollback i text) .send
  | publish (i : Slot) (pid : ℤ) :
      PcMove h (.publish h) (.publish i pid) (.createProducer i pid)
  | createProducer (ok : Bool) (i : Slot) (pid : ℤ) :
      PcMove h (.createProducer h ok) (.createProducer i pid) (.register i pid)
  | register (i : Slot) (pid : ℤ) (pc : Pc) : pc = .runTest i ∨ pc = .send →
      PcMove h (.register h) (.register i pid) pc
  | runEnter (i : Slot) (pc pc' : Pc) : pc = .runTest i ∨ pc = .runWait i →
      pc' = .runWait i ∨ pc' = .send → PcMove h (.runEnter h) pc pc'
  | spurious (i : Slot) : PcMove h (.spurious h) (.runWait i) (.runWait i)
  | stopEnter (pc : Pc) : pc = .send ∨ (∃ i pid, pc = .stopKill i pid) →
      PcMove h (.stopEnter h) .stop pc
  | stopKill (err : Option CStr) (i : Slot) (pid : ℤ) :
      PcMove h (.stopKill h err) (.stopKill i pid) .send
  | read (resp : Response) : PcMove h (.read h resp) .read .send
  | send : PcMove h (.send h) .send .closed

variable {s s' : Engine} {e : Event} {g h : ℕ}

/-! ## The handler of the event -/

theorem startStep_pc (hs : s.startStep h e = some s') (he : e.handler = some h) :
    PcMove h e (s.handler h).pc (s'.handler h).pc := by
  unfold startStep at hs
  split at hs
  all_goals first
    | obtain rfl := Option.some.inj he
    | cases hs
  all_goals split at hs
  all_goals try split_ifs at hs
  all_goals cases hs
  all_goals simp only [respond, setPc, setHandler, Function.update_self, *]
  all_goals constructor
  all_goals simp

theorem handlerStep_pc (hs : s.handlerStep h e = some s') (he : e.handler = some h) :
    PcMove h e (s.handler h).pc (s'.handler h).pc := by
  unfold handlerStep at hs
  split at hs
  case h_1 req =>
    obtain rfl := Option.some.inj he
    split at hs
    · rename_i hpc
      cases hs
      simp only [setHandler, Function.update_self, hpc]
      exact .recv req
    · cases hs
  case h_3 =>
    obtain rfl := Option.some.inj he
    split at hs
    · rename_i idx hready
      dsimp only at hs
      split_ifs at hs <;> cases hs
      · exact .runEnter idx _ _ (runReady_spec hready) (Or.inl (by simp [setPc, setHandler]))
      · exact .runEnter idx _ _ (runReady_spec hready) (Or.inr (by simp [respond, setHandler]))
    · cases hs
  all_goals first
    | obtain rfl := Option.some.inj he
    | cases hs
  all_goals try split at hs
  all_goals try split_ifs at hs
  all_goals cases hs
  all_goals simp only [respond, setPc, setHandler, setSlot, Function.update_self, *]
  all_goals constructor
  all_goals simp

/-- A handler keeps the request that it has received. -/
theorem HandlerStep.req_eq {hd : Handler} (hs : HandlerStep s e h hd)
    (hrecv : ∀ req, e ≠ .recv h req) : hd.req = s.req h := by
  cases hs with
  | move hd hm => cases hm <;> rfl
  | recv req resp he => exact absurd he (hrecv req)
  | _ => rfl

theorem recv_handler {req : Request} (hs : s.step (.recv h req) = some s') :
    ∃ resp, s'.handler h = ⟨req, resp, dispatch req⟩ := by
  replace hs := (step_next hs).2
  simp only [next, handlerStep] at hs
  split at hs
  · cases hs
    exact ⟨_, Function.update_self _ _ _⟩
  · cases hs

/-! ## The other handlers -/

theorem startStep_frame (hs : s.startStep h e = some s') (hgh : g ≠ h) :
    s'.handler g = s.handler g := by
  unfold startStep at hs
  repeat' split at hs
  all_goals cases hs
  all_goals exact Function.update_of_ne hgh _ _

theorem handlerStep_frame (hs : s.handlerStep h e = some s') (hgh : g ≠ h) :
    s'.handler g = s.handler g := by
  unfold handlerStep at hs
  split at hs
  all_goals try split at hs
  all_goals try dsimp only at hs
  all_goals try split_ifs at hs
  all_goals cases hs
  all_goals first
    | exact Function.update_of_ne hgh _ _
    | rfl

theorem mainStep_frame (hs : s.mainStep e = some s') (he : e ≠ .accept g) :
    s'.handler g = s.handler g := by
  unfold mainStep at hs
  split at hs
  case h_2 h =>
    split_ifs at hs
    cases hs
    exact Function.update_of_ne (fun hgh => he (congrArg Event.accept hgh.symm)) _ _
  all_goals try split_ifs at hs
  all_goals cases hs
  all_goals rfl

theorem reaperStep_frame (hs : s.reaperStep e = some s') : s'.handler = s.handler := by
  unfold reaperStep at hs
  repeat' split at hs
  all_goals cases hs
  all_goals rfl

/-- A handler moves by its own events and by the `accept` that creates it, and then as `PcMove`
says. -/
theorem step_pc (hs : s.step e = some s') (g : ℕ) :
    PcMove g e (s.handler g).pc (s'.handler g).pc ∨
      e.handler ≠ some g ∧ e ≠ .accept g ∧ s'.handler g = s.handler g := by
  replace hs := (step_next hs).2
  cases e with
  | reserve h | pipe h | mallocStack h | mallocChild h | clone h | mallocArg h | publish h
  | rollback h | createProducer h | register h =>
    rcases eq_or_ne g h with rfl | hgh
    · exact Or.inl (startStep_pc hs rfl)
    · simp only [next] at hs
      have hframe := startStep_frame hs hgh
      exact Or.inr ⟨fun heq => hgh (Option.some.inj heq).symm, by simp, hframe⟩
  | recv h | hangup h | runEnter h | spurious h | stopEnter h | stopKill h | read h | send h =>
    rcases eq_or_ne g h with rfl | hgh
    · exact Or.inl (handlerStep_pc hs rfl)
    · simp only [next] at hs
      have hframe := handlerStep_frame hs hgh
      exact Or.inr ⟨fun heq => hgh (Option.some.inj heq).symm, by simp, hframe⟩
  | signal =>
    cases hs
    exact Or.inr ⟨by simp [Event.handler], by simp, rfl⟩
  | exit | waitpid | reap | reaperExit =>
    simp only [next] at hs
    exact Or.inr ⟨by simp [Event.handler], by simp, congrFun (reaperStep_frame hs) g⟩
  | accept h =>
    simp only [next] at hs
    rcases eq_or_ne g h with rfl | hgh
    · simp only [mainStep] at hs
      split_ifs at hs with hc
      cases hs
      simp only [setPc, setHandler, Function.update_self, hc.2]
      exact Or.inl .accept
    · have hne : Event.accept h ≠ .accept g := fun heq => hgh (Event.accept.inj heq).symm
      exact Or.inr ⟨by simp [Event.handler], hne, mainStep_frame hs hne⟩
  | loopTest | acceptFail | stopAll | logShutdown | joinConsumer | joinReaper =>
    simp only [next] at hs
    exact Or.inr ⟨by simp [Event.handler], by simp, mainStep_frame hs (by simp)⟩

end Engine

end Jackfruit
