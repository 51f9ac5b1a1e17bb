import Jackfruit.LifeCycle
import Jackfruit.SocketName

/-!
# One supervisor after the other

If every supervisor is started after the ones before it have ended and no heir calls `shutdown` on
the socket, a supervisor in its accept loop is reached until it is told to stop, and no name that
was left behind keeps the next one from its `bind`. But a command may also reach a supervisor that
is no longer there, by the socket that an heir of it holds, and is never accepted by it then
(`alone_reached`).
-/

set_option linter.unusedSectionVars false

namespace Jackfruit

variable {k : ℕ} {name name' : Option ℕ} {p p' : Supervisor} {a : SocketCall}

/-! ## A supervisor that is over -/

/-- The process has ended, or is about to remove the name. -/
def SocketPc.Over : SocketPc → Bool
  | .remove _ | .returned _ | .killed => true
  | _ => false

/-- Behind the accept loop. -/
def MainPc.Left (main : MainPc) : Prop :=
  main ≠ .loop ∧ main ≠ .accepting

/-- It accepts no command any more : its main thread has left the accept loop, or the process is
over. -/
def Supervisor.Deaf (p : Supervisor) : Prop :=
  p.pc.Over = true ∨ p.engine.main.Left

/-- Where the socket can be open and listen. -/
structure Supervisor.Sound (p : Supervisor) : Prop where
  fd : p.fd = true → p.pc = .bind ∨ p.pc = .listen ∨ p.pc = .serve ∨ p.pc = .close
  inAccept : p.inAccept = true → p.pc = .serve ∧ p.engine.main = .accepting
  listening : p.listening = true → p.pc = .serve ∨ p.pc.Over = true

/-- The main thread does not come back to the accept loop. -/
theorem Engine.left_step {s s' : Engine} {e : Event} (hs : s.step e = some s')
    (hm : s.main.Left) : s'.main.Left := by
  cases step_effect hs with
  | control e running main hmove =>
    cases hmove with
    | signal => exact hm
    | loopTest h => exact absurd h hm.1
    | acceptFail h => exact absurd h hm.2
    | _ => exact ⟨by simp, by simp⟩
  | handler e h hd main _ hmain =>
    rcases hmain with rfl | ⟨h, -⟩
    · exact hm
    · exact absurd h hm.2
  | stopAll => exact ⟨by simp, by simp⟩
  | _ => exact hm

/-- A connection is accepted inside `accept`. -/
theorem Engine.accepting_of_accept {s s' : Engine} {h : ℕ} (hs : s.step (.accept h) = some s') :
    s.main = .accepting := by
  replace hs := (step_next hs).2
  simp only [next, mainStep] at hs
  split_ifs at hs with hmain
  exact hmain.1

theorem Engine.main_signal (s : Engine) : ((s.step .signal).getD s).main = s.main := by
  unfold step
  split_ifs <;> rfl

theorem CallStep.sound (h : CallStep k name p a name' p') (hs : p.Sound) : p'.Sound := by
  obtain ⟨hfd, haccept, hlistening⟩ := hs
  have early (hserve : p.pc ≠ .serve) (hover : p.pc.Over = false) : p.listening = false :=
    Bool.eq_false_iff.mpr fun hl => (hlistening hl).elim hserve (by simp [hover])
  have quiet (hserve : p.pc ≠ .serve) : p.inAccept = false :=
    Bool.eq_false_iff.mpr fun hin => hserve (haccept hin).1
  cases h with
  | start hpc | unlink hpc | noSocket hpc =>
    have hl := early (by simp [hpc]) (by simp [hpc, SocketPc.Over])
    have hin := quiet (by simp [hpc])
    exact ⟨by simpa [hpc] using hfd, by simp [hin], by simp [hl]⟩
  | socket hpc | bind hpc | noBind hpc | noListen hpc =>
    have hl := early (by simp [hpc]) (by simp [hpc, SocketPc.Over])
    have hin := quiet (by simp [hpc])
    exact ⟨by simp, by simp [hin], by simp [hl]⟩
  | listen hpc =>
    have hin := quiet (by simp [hpc])
    exact ⟨by simp, by simp [hin], by simp⟩
  | close status hpc =>
    have hin : p.inAccept = false := by
      rcases hpc with hpc | ⟨-, hmain⟩
      · exact quiet (by simp [hpc])
      · exact Bool.eq_false_iff.mpr fun hin => by simp [(haccept hin).2] at hmain
    exact ⟨by simp, by simp [hin], fun _ => .inr rfl⟩
  | remove status hpc =>
    have hin := quiet (by simp [hpc])
    exact ⟨by simpa [hpc] using hfd, by simp [hin], fun _ => .inr rfl⟩
  | signal =>
    exact ⟨by simp, fun hin => by simpa [Engine.main_signal] using haccept hin, hlistening⟩
  | enterAccept hpc hmain => exact ⟨hfd, fun _ => ⟨hpc, hmain⟩, hlistening⟩
  | engine e engine _ _ hstep =>
    refine ⟨hfd, fun hin => ?_, hlistening⟩
    obtain ⟨hin, hmain⟩ := Bool.and_eq_true_iff.mp hin
    exact ⟨(haccept hin).1, of_decide_eq_true hmain⟩
  | kill => exact ⟨by simp, by simp, fun _ => .inr rfl⟩

/-- Who has the socket open when it takes a connection. -/
theorem Supervisor.Sound.of_listens (hs : p.Sound) (hl : p.Listens) :
    p.pc = .serve ∨ p.pc.Over = true ∧ p.heirs ≠ [] := by
  obtain ⟨hlistening, hopen⟩ := hl
  refine (hs.listening hlistening).imp_right fun hover => ⟨hover, ?_⟩
  rcases hopen with hfd | hin | hheirs
  · rcases hs.fd hfd with h | h | h | h <;> simp [h, SocketPc.Over] at hover
  · simp [(hs.inAccept hin).1, SocketPc.Over] at hover
  · exact hheirs

theorem CallStep.deaf (h : CallStep k name p a name' p') (hd : p.Deaf) : p'.Deaf := by
  rcases hd with hover | hleft
  · refine .inl ?_
    cases h with
    | remove | kill | close => rfl
    | signal | enterAccept | engine => exact hover
    | start hpc | unlink hpc | socket hpc | noSocket hpc | bind hpc | noBind hpc | listen hpc
    | noListen hpc => simp [hpc, SocketPc.Over] at hover
  · refine .inr ?_
    rcases h.engine_cases with heq | ⟨e, he⟩
    · rwa [heq]
    · exact Engine.left_step he hleft

namespace Supervisors

variable {w w' : Supervisors} {e : SocketEvent}

theorem Turn.sound {j : ℕ} {p : Supervisor} (h : Turn w j e p) (hs : (w.supervisor j).Sound) :
    p.Sound := by
  cases h with
  | call a name' p hcall => exact hcall.sound hs
  | accept => exact ⟨hs.fd, by simp, hs.listening⟩
  | drop | pass | idle => exact ⟨hs.fd, hs.inAccept, hs.listening⟩
  | shutdown => exact ⟨hs.fd, hs.inAccept, by simp⟩

theorem sound_of_run {C : Supervisors → SocketEvent → Prop} (hr : Transition.Run step C init w)
    (k : ℕ) : (w.supervisor k).Sound :=
  hr.invariant (I := fun w => (w.supervisor k).Sound) ⟨by simp [init], by simp [init],
    by simp [init]⟩ fun _ _ _ ih _ hs => (step_turn hs k).sound ih

theorem Turn.deaf {j : ℕ} {p : Supervisor} (h : Turn w j e p) (hd : (w.supervisor j).Deaf) :
    p.Deaf := by
  cases h with
  | call a name' p hcall => exact hcall.deaf hd
  | accept h c engine _ he => exact hd.imp_right (Engine.left_step he)
  | _ => exact hd

/-- A supervisor that is deaf accepts nobody. -/
theorem not_accepted_step {k c h : ℕ} (hd : (w.supervisor k).Deaf)
    (hno : w.dial c ≠ .accepted k h) (hs : w.step e = some w') : w'.dial c ≠ .accepted k h := by
  cases e with
  | call j a => rwa [(step_call hs).2.1]
  | accept j g d =>
    obtain ⟨-, hpc, engine, he, rfl⟩ := step_accept hs
    have hne : j ≠ k := by
      rintro rfl
      rcases hd with hover | hleft
      · simp [hpc, SocketPc.Over] at hover
      · exact hleft.2 (Engine.accepting_of_accept he)
    change Function.update w.dial d (.accepted j g) c ≠ _
    rcases eq_or_ne c d with rfl | hcd
    · simp [hne]
    · rwa [Function.update_of_ne hcd]
  | connect d =>
    obtain ⟨-, rfl⟩ := step_connect hs
    change Function.update w.dial d _ c ≠ _
    rcases eq_or_ne c d with rfl | hcd
    · cases w.connectToSupervisor <;> simp
    · rwa [Function.update_of_ne hcd]
  | drop j x =>
    obtain rfl := step_drop hs
    exact hno
  | pass j x y =>
    obtain rfl := step_pass hs
    exact hno
  | shutdown j x =>
    obtain rfl := step_shutdown hs
    exact hno
  | take j x d =>
    obtain ⟨-, rfl⟩ := step_take hs
    change Function.update w.dial d (.taken j) c ≠ _
    rcases eq_or_ne c d with rfl | hcd
    · simp
    · rwa [Function.update_of_ne hcd]

end Supervisors

/-! ## One supervisor at a time -/

/-- The main thread is behind `log_buffer_shutdown`. -/
def MainPc.ShutDown (main : MainPc) : Prop :=
  main = .joinConsumer ∨ main = .joinReaper ∨ main = .returned

/-- `supervisor_running` is off when the threads are joined. -/
theorem Engine.stopped_of_shutDown {s : Engine} (hr : s.Reachable) (hm : s.main.ShutDown) :
    s.running = false := by
  refine Transition.Run.invariant (I := fun t : Engine => t.main.ShutDown → t.running = false) hr
    (fun h => by simp [MainPc.ShutDown, init] at h) (fun t e u ih _ hs hu => ?_) hm
  by_cases hold : t.main.ShutDown
  · exact running_step hs (ih hold)
  · cases step_effect hs with
    | control e running main hmove =>
      cases hmove with
      | signal | logShutdown => rfl
      | loopTest | acceptFail => split_ifs at hu <;> simp [MainPc.ShutDown] at hu
      | joinConsumer h => exact absurd (.inl h) hold
      | joinReaper h => exact absurd (.inr (.inl h)) hold
    | handler e h hd main _ hmain =>
      rcases hmain with rfl | ⟨-, rfl⟩
      · exact absurd hu hold
      · simp [MainPc.ShutDown] at hu
    | stopAll => simp [MainPc.ShutDown] at hu
    | _ => exact absurd hu hold

/-- A signal stops the supervisor wherever it is. -/
theorem Engine.stopped_by_signal {s : Engine} (hr : s.Reachable) :
    ((s.step .signal).getD s).running = false := by
  unfold step
  split_ifs with hm
  · exact stopped_of_shutDown hr (.inr (.inr hm))
  · rfl

/-- What the name is to the supervisor `k` when it is the only one. -/
structure SocketPc.Knows (k : ℕ) (name : Option ℕ) (pc : SocketPc) : Prop where
  free : pc = .socket ∨ pc = .bind → name = none
  bound : pc = .listen ∨ pc = .serve → name = some k
  gone : ∀ status, pc = .returned status → name ≠ some k

/-- The socket is open as long as the supervisor has not been told to stop. -/
def Supervisor.Open (p : Supervisor) : Prop :=
  p.engine.running = true → p.pc = .bind ∨ p.pc = .listen ∨ p.pc = .serve → p.fd = true

theorem CallStep.alive (h : CallStep k name p a name' p') : a = .start ∨ p.pc.Alive = true := by
  cases h with
  | start => exact .inl rfl
  | close status h => rcases h with h | ⟨h, -⟩ <;> exact .inr (by rw [h]; rfl)
  | unlink h | socket h | noSocket h | bind h | noBind h | listen h | noListen h | remove _ h
  | enterAccept h => exact .inr (by rw [h]; rfl)
  | signal h | engine _ _ h | kill h => exact .inr h

theorem CallStep.knows (h : CallStep k name p a name' p') (hk : p.pc.Knows k name) :
    p'.pc.Knows k name' := by
  cases h with
  | socket hpc => exact ⟨fun _ => hk.free (.inl hpc), by simp, by simp⟩
  | noSocket hpc => exact ⟨by simp, by simp, fun _ _ => by simp [hk.free (.inl hpc)]⟩
  | listen hpc => exact ⟨by simp, fun _ => hk.bound (.inl hpc), by simp⟩
  | signal | enterAccept | engine => exact hk
  | _ => exact ⟨by simp, by simp, by simp⟩

theorem CallStep.listening (h : CallStep k name p a name' p')
    (hl : p.pc = .serve → p.listening = true) (hpc : p'.pc = .serve) : p'.listening = true := by
  cases h with
  | listen => rfl
  | signal | enterAccept | engine => exact hl hpc
  | _ => cases hpc

theorem CallStep.isOpen (h : CallStep k name p a name' p') (hr : p.engine.Reachable)
    (ho : p.Open) : p'.Open := by
  intro hrun hpc
  cases h with
  | socket => rfl
  | bind _ _ hfd | listen _ hfd => exact hfd
  | signal => simp [Engine.stopped_by_signal hr] at hrun
  | enterAccept _ _ hfd => exact hfd
  | engine e engine _ _ hs =>
    refine ho (Bool.not_eq_false _ ▸ fun hno => ?_) hpc
    rw [Engine.running_step hs hno] at hrun
    cases hrun
  | _ => simp at hpc

namespace Supervisors

variable {w w' : Supervisors} {e : SocketEvent}

/-- A supervisor is started when the ones before it have ended, and no heir ends the listening of a
socket. -/
def Alone (w : Supervisors) : SocketEvent → Prop
  | .call _ .start => ∀ j ∈ w.started, (w.supervisor j).pc.Alive = false
  | .shutdown _ _ => False
  | _ => True

instance (w : Supervisors) (e : SocketEvent) : Decidable (Alone w e) := by
  rcases e with ⟨k, _ | _ | _ | _ | _ | _ | _ | _ | _ | _ | _⟩ | _ | _ | _ | _ | _ <;>
    dsimp only [Alone] <;> infer_instance

/-- What holds in every state when the supervisors do not overlap. -/
structure OneAtATime (w : Supervisors) : Prop where
  started : ∀ j, (w.supervisor j).pc ≠ .absent → j ∈ w.started
  alone : ∀ j k, (w.supervisor j).pc.Alive = true → (w.supervisor k).pc.Alive = true → j = k
  knows : ∀ k, (w.supervisor k).pc.Knows k w.name
  isOpen : ∀ k, (w.supervisor k).Open
  listening : ∀ k, (w.supervisor k).pc = .serve → (w.supervisor k).listening = true

theorem oneAtATime_init : OneAtATime init :=
  ⟨fun _ h => absurd rfl h, fun _ _ h => (by cases h), fun _ => ⟨by simp [init], by simp [init],
    by simp [init]⟩, fun _ _ h => by simp [init] at h, fun _ h => (by cases h)⟩

/-- What is no call leaves the name alone, and starts nobody. -/
theorem step_quiet (hs : w.step e = some w') (he : ∀ k a, e ≠ .call k a) :
    w'.name = w.name ∧ w'.started = w.started := by
  cases e with
  | call k a => exact absurd rfl (he k a)
  | accept =>
    obtain ⟨-, -, engine, -, rfl⟩ := step_accept hs
    exact ⟨rfl, rfl⟩
  | connect =>
    obtain ⟨-, rfl⟩ := step_connect hs
    exact ⟨rfl, rfl⟩
  | drop =>
    obtain rfl := step_drop hs
    exact ⟨rfl, rfl⟩
  | pass =>
    obtain rfl := step_pass hs
    exact ⟨rfl, rfl⟩
  | shutdown =>
    obtain rfl := step_shutdown hs
    exact ⟨rfl, rfl⟩
  | take =>
    obtain ⟨-, rfl⟩ := step_take hs
    exact ⟨rfl, rfl⟩

/-- A supervisor that has been told to stop does not forget it. -/
theorem Turn.running {j : ℕ} {p : Supervisor} (h : Turn w j e p) (hrun : p.engine.running = true) :
    (w.supervisor j).engine.running = true := by
  refine Bool.not_eq_false _ ▸ fun hno => ?_
  cases h with
  | call a name' p hcall =>
    rcases hcall.engine_cases with heq | ⟨e, he⟩
    · rw [heq, hno] at hrun
      cases hrun
    · rw [Engine.running_step he hno] at hrun
      cases hrun
  | accept h c engine _ he =>
    rw [Engine.running_step he hno] at hrun
    cases hrun
  | _ =>
    rw [hno] at hrun
    cases hrun

theorem Turn.listening {j : ℕ} {p : Supervisor} (h : Turn w j e p) (hc : Alone w e)
    (he : ∀ a, e ≠ .call j a) (hl : (w.supervisor j).listening = true) : p.listening = true := by
  cases h with
  | call a => exact absurd rfl (he a)
  | shutdown h => exact hc.elim
  | _ => exact hl

/-- While one takes a call, the others are not there. -/
theorem OneAtATime.others_dead (o : OneAtATime w) {k : ℕ} {a : SocketCall}
    (hc : Alone w (.call k a)) (h : a = .start ∨ (w.supervisor k).pc.Alive = true) {j : ℕ}
    (hj : j ≠ k) : (w.supervisor j).pc.Alive = false := by
  rcases h with rfl | hk
  · by_cases habs : (w.supervisor j).pc = .absent
    · rw [habs]
      rfl
    · exact hc j (o.started j habs)
  · exact Bool.eq_false_iff.mpr fun halive => hj (o.alone j k halive hk)

theorem OneAtATime.call (o : OneAtATime w) {k : ℕ} {a : SocketCall}
    (hr : (w.supervisor k).engine.Reachable) (hc : Alone w (.call k a))
    (hs : w.step (.call k a) = some w') : OneAtATime w' := by
  obtain ⟨hcall, -, hothers, hstarted⟩ := step_call hs
  have hdead {j : ℕ} (hj : j ≠ k) : (w'.supervisor j).pc.Alive = false := by
    rw [hothers j hj]
    exact o.others_dead hc hcall.alive hj
  have honly {j : ℕ} (halive : (w'.supervisor j).pc.Alive = true) : j = k := by
    by_contra hj
    rw [hdead hj] at halive
    cases halive
  refine ⟨fun j habs => (hstarted j).mpr ?_, fun i j hi hj => (honly hi).trans (honly hj).symm,
    fun j => ?_, fun j => ?_, fun j hpc => ?_⟩
  · by_cases hj : j = k
    · subst hj
      rcases hcall.alive with rfl | halive
      · exact .inr ⟨rfl, rfl⟩
      · exact .inl (o.started j fun h => by simp [h, SocketPc.Alive] at halive)
    · rw [hothers j hj] at habs
      exact .inl (o.started j habs)
  · by_cases hj : j = k
    · subst hj
      exact hcall.knows (o.knows j)
    · have hno := hdead hj
      refine ⟨fun h => ?_, fun h => ?_, fun status h => ?_⟩
      · rcases h with h | h <;> simp [h, SocketPc.Alive] at hno
      · rcases h with h | h <;> simp [h, SocketPc.Alive] at hno
      · rw [hothers j hj] at h
        rcases hcall.name_cases with ⟨-, hname⟩ | ⟨-, hname | ⟨-, hname, -⟩⟩
        · simp [hname]
        · exact hname ▸ (o.knows j).gone status h
        · simpa [hname] using Ne.symm hj
  · by_cases hj : j = k
    · subst hj
      exact hcall.isOpen hr (o.isOpen j)
    · rw [hothers j hj]
      exact o.isOpen j
  · by_cases hj : j = k
    · subst hj
      exact hcall.listening (o.listening j) hpc
    · rw [hothers j hj] at hpc ⊢
      exact o.listening j hpc

theorem OneAtATime.step (o : OneAtATime w) (hr : ∀ k, (w.supervisor k).engine.Reachable)
    (hc : Alone w e) (hs : w.step e = some w') : OneAtATime w' := by
  by_cases hcall : ∃ k a, e = .call k a
  · obtain ⟨k, a, rfl⟩ := hcall
    exact o.call (hr k) hc hs
  · have hsame (j : ℕ) := (step_turn hs j).same fun a he => hcall ⟨j, a, he⟩
    obtain ⟨hname, hstarted⟩ := step_quiet hs fun k a he => hcall ⟨k, a, he⟩
    refine ⟨fun j habs => hstarted ▸ o.started j ((hsame j).1 ▸ habs), fun i j hi hj =>
      o.alone i j ((hsame i).1 ▸ hi) ((hsame j).1 ▸ hj), fun j => ?_, fun j => ?_, fun j hpc => ?_⟩
    · rw [hname, (hsame j).1]
      exact o.knows j
    · intro hrun
      rw [(hsame j).1, (hsame j).2]
      exact o.isOpen j ((step_turn hs j).running hrun)
    · rw [(hsame j).1] at hpc
      exact (step_turn hs j).listening hc (fun a he => hcall ⟨j, a, he⟩) (o.listening j hpc)

/-- If every supervisor is started when the ones before it have ended, by itself or killed, and no
heir calls `shutdown` on a socket : a supervisor that has not been told to stop is reached by every
command from its `listen` on, and no other one is; one that has been told to stop is reached as long
as its socket listens, and afterwards, or when it was killed, only while an heir of it holds the
socket. But then the supervisor does not serve the command : when it has left the accept loop or has
ended it accepts none, whatever follows. The `bind` of a supervisor finds the name free, whatever
the one before has left behind, and one that has returned leaves no name behind. -/
theorem alone_reached (hr : Transition.Run step Alone init w) (k : ℕ) :
    ((w.supervisor k).pc = .serve → (w.supervisor k).engine.running = true →
      w.connectToSupervisor = some k) ∧
    ((w.supervisor k).pc = .serve →
      (w.connectToSupervisor = some k ↔ (w.supervisor k).Listens)) ∧
    (w.connectToSupervisor = some k →
      (w.supervisor k).pc = .serve ∨ (w.supervisor k).pc.Over = true ∧
        (w.supervisor k).heirs ≠ []) ∧
    ((w.supervisor k).Deaf → ∀ w', Transition.Run step Transition.Always w w' → ∀ c h,
      w.dial c ≠ .accepted k h → w'.dial c ≠ .accepted k h) ∧
    ((w.supervisor k).pc = .bind → (w.supervisor k).engine.running = true →
      (w.step (.call k (.bind true))).isSome) ∧
    ∀ status, (w.supervisor k).pc = .returned status → w.name ≠ some k := by
  have o : OneAtATime w := hr.invariant_of_reached (I := OneAtATime) oneAtATime_init
    fun t e u ht ih hc hs => ih.step (engine_reachable ht) hc hs
  have hsound : (w.supervisor k).Sound := sound_of_run hr k
  have hserve (hpc : (w.supervisor k).pc = .serve) :
      w.connectToSupervisor = some k ↔ (w.supervisor k).Listens := by
    rw [connectToSupervisor, Option.filter_eq_some_iff, decide_eq_true_iff]
    exact and_iff_right ((o.knows k).bound (.inr hpc))
  refine ⟨fun hpc hrun => (hserve hpc).mpr ⟨o.listening k hpc, .inl ?_⟩, hserve,
    fun hconn => hsound.of_listens ?_, fun hdeaf w' hr' c h hno => ?_, fun hpc hrun => ?_,
    (o.knows k).gone⟩
  · exact o.isOpen k hrun (.inr (.inr hpc))
  · exact of_decide_eq_true (Option.filter_eq_some_iff.mp hconn).2
  · exact (hr'.invariant
      (I := fun t => (t.supervisor k).Deaf ∧ t.dial c ≠ .accepted k h) ⟨hdeaf, hno⟩
      fun t e u ih _ hs => ⟨(step_turn hs k).deaf ih.1, not_accepted_step ih.1 ih.2 hs⟩).2
  · have hfree := (o.knows k).free (.inr hpc)
    have hfd := o.isOpen k hrun (.inl hpc)
    simp [Supervisors.step, Supervisor.call, hpc, hfree, hfd]

/-- A supervisor is killed, and a command that comes then is left in the backlog that its container
keeps; the supervisor that is started next is reached, and not through the name that the killed one
has left behind. -/
theorem alone_reached_after_kill : ∃ w w' : Supervisors, w.name = some 0 ∧
    (w.supervisor 0).pc = .killed ∧ w.dial 1 = .queued 0 ∧
    Transition.Run step Alone w w' ∧ w'.connectToSupervisor = some 1 ∧
      ∀ h, w'.dial 1 ≠ .accepted 0 h := by
  let serves (k : ℕ) : List SocketEvent := [.call k .start, .call k .unlink,
    .call k (.socket true), .call k (.bind true), .call k (.listen true)]
  let startsOne : List SocketEvent := [.connect 0, .call 0 (.engine .loopTest),
    .call 0 .enterAccept, .accept 0 0 0] ++ ((Engine.playClone 0 REQ_START "a" 7).drop 2).map
      (fun e => .call 0 (.engine e))
  obtain ⟨w, hr, hname, hpc, hdial, hnext⟩ := Transition.exists_run_of_exec step Alone init
    (serves 0 ++ startsOne ++ [.call 0 .kill, .connect 1])
    (fun w => w.name = some 0 ∧ (w.supervisor 0).pc = .killed ∧ w.dial 1 = .queued 0 ∧
      ((Transition.exec step Alone w (serves 1)).any fun w' =>
        (w'.supervisor 1).pc = .serve ∧ (w'.supervisor 1).engine.running = true) = true)
    (by decide)
  obtain ⟨w', hr', hserve, hrun⟩ := Transition.exists_run_of_exec step Alone w (serves 1) _ hnext
  obtain ⟨-, -, -, hnever, -⟩ := alone_reached hr 0
  have hreached := (alone_reached (hr.trans hr') 1).1 hserve hrun
  refine ⟨w, w', hname, hpc, hdial, hr', hreached, fun h => ?_⟩
  exact hnever (.inl (by rw [hpc]; rfl)) w' hr'.always 1 h (by simp [hdial])

end Supervisors

end Jackfruit
