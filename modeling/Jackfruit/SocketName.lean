import Jackfruit.ShutdownWork

/-!
# The name of the control socket

Every supervisor on a machine uses the same `CONTROL_SOCKET_PATH`. `run_supervisor` unlinks the name
that a supervisor before it may have left behind, creates a socket, binds it to the name and
listens; it unlinks the name again when it ends and when `bind` or `listen` fails. An `unlink`
removes the name, whose socket it may lead to.

A container inherits the socket if the supervisor has it open at the `clone`, and holds it until it
closes it or ends, or passes it on over another socket to any program, which may pass it on again.
So the socket takes connections for as long as the supervisor or one of these heirs has it, although
nobody may accept them any more : a signal closes only the supervisor's own descriptor, and a kill
leaves the containers alone. An heir may also `accept` from the socket, and `shutdown` ends the
listening for everybody.

So a supervisor is reached as long as nobody unlinks the name, and once somebody has, never again,
whatever it and the others do (`socket_name_lost`).
-/

set_option linter.unusedSectionVars false

namespace Jackfruit

/-- Where `run_supervisor` is with the control socket. -/
inductive SocketPc
  /-- The process is not there yet. -/
  | absent
  /-- Before the first `unlink`. -/
  | unlink
  | socket
  | bind
  | listen
  /-- `bind` or `listen` has failed. -/
  | close
  /-- From the accept loop to the joins. -/
  | serve
  /-- Before the last `unlink`, after which it returns `status`. -/
  | remove (status : ℕ)
  | returned (status : ℕ)
  /-- By a signal that it does not catch. -/
  | killed
  deriving DecidableEq

/-- Who may hold the socket of a supervisor besides it. -/
inductive Heir
  /-- The container that the handler `h` has cloned. -/
  | container (h : ℕ)
  /-- Another program, to which it was passed on. -/
  | program (n : ℕ)
  deriving DecidableEq

/-- A supervisor process, with its socket. -/
structure Supervisor where
  pc : SocketPc
  engine : Engine
  /-- The socket is open as `server_socket_fd`. -/
  fd : Bool
  /-- The main thread is inside `accept`, and the call keeps the socket open. -/
  inAccept : Bool
  /-- `listen` has been called for the socket, and `shutdown` has not. -/
  listening : Bool
  /-- Who else holds the socket. -/
  heirs : List Heir

/-- The connection that a command asks for. -/
inductive Dial
  | idle
  | refused
  /-- In the backlog of the socket of the supervisor `k`. -/
  | queued (k : ℕ)
  /-- Served by the handler `h` of the supervisor `k`. -/
  | accepted (k h : ℕ)
  /-- Accepted by an heir of the supervisor `k`. -/
  | taken (k : ℕ)
  deriving DecidableEq

/-- The supervisors of a machine and the commands. -/
structure Supervisors where
  /-- The supervisor to whose socket the name leads. -/
  name : Option ℕ
  supervisor : ℕ → Supervisor
  started : List ℕ
  dial : ℕ → Dial

/-- What a supervisor does. -/
inductive SocketCall
  | start
  | unlink
  | socket (ok : Bool)
  | bind (ok : Bool)
  | listen (ok : Bool)
  | close
  | remove
  /-- SIGINT or SIGTERM. -/
  | signal
  | enterAccept
  /-- A step of the engine off the control socket. -/
  | engine (e : Event)
  | kill

/-- What the supervisors, the commands and the heirs do. -/
inductive SocketEvent
  | call (k : ℕ) (a : SocketCall)
  /-- The supervisor `k` accepts the command `c`, and its handler `h` serves it. -/
  | accept (k h c : ℕ)
  /-- The command `c` calls `connect`. -/
  | connect (c : ℕ)
  /-- The heir `x` closes the socket of the supervisor `k`, or ends. -/
  | drop (k : ℕ) (x : Heir)
  /-- It passes the socket on to `y`. -/
  | pass (k : ℕ) (x y : Heir)
  /-- It calls `shutdown` on the socket. -/
  | shutdown (k : ℕ) (x : Heir)
  /-- It accepts the command `c`. -/
  | take (k : ℕ) (x : Heir) (c : ℕ)

/-- The process is there. -/
def SocketPc.Alive : SocketPc → Bool
  | .absent | .returned _ | .killed => false
  | _ => true

/-- A connection can be made to the socket : it listens, and somebody has it open. -/
def Supervisor.Listens (p : Supervisor) : Prop :=
  p.listening = true ∧ (p.fd = true ∨ p.inAccept = true ∨ p.heirs ≠ [])

instance (p : Supervisor) : Decidable p.Listens :=
  inferInstanceAs (Decidable (_ ∧ _))

/-- Who else holds the socket after a step of the engine. -/
def Supervisor.heirsAfter (p : Supervisor) : Event → List Heir
  | .clone h (.ok _) => if p.fd then .container h :: p.heirs else p.heirs
  | .exit h _ => p.heirs.filter (· ≠ .container h)
  | _ => p.heirs

/-- What a call of the supervisor `k` does to the name and to the process. -/
def Supervisor.call (k : ℕ) (name : Option ℕ) (p : Supervisor) :
    SocketCall → Option (Option ℕ × Supervisor)
  | .start => if p.pc = .absent then some (name, { p with pc := .unlink }) else none
  | .unlink => if p.pc = .unlink then some (none, { p with pc := .socket }) else none
  | .socket true =>
    if p.pc = .socket then some (name, { p with pc := .bind, fd := true }) else none
  | .socket false => if p.pc = .socket then some (name, { p with pc := .returned 1 }) else none
  | .bind true =>
    -- `EADDRINUSE` if there is the name, `EBADF` if the signal handler has closed the socket.
    if p.pc = .bind ∧ name = none ∧ p.fd = true then some (some k, { p with pc := .listen })
    else none
  | .bind false => if p.pc = .bind then some (name, { p with pc := .close }) else none
  | .listen true =>
    if p.pc = .listen ∧ p.fd = true then some (name, { p with pc := .serve, listening := true })
    else none
  | .listen false => if p.pc = .listen then some (name, { p with pc := .close }) else none
  | .close =>
    if p.pc = .close then some (name, { p with pc := .remove 1, fd := false })
    else if p.pc = .serve ∧ p.engine.main = .returned then
      some (name, { p with pc := .remove 0, fd := false })
    else none
  | .remove =>
    match p.pc with
    | .remove status => some (none, { p with pc := .returned status })
    | _ => none
  | .signal =>
    if p.pc.Alive then
      some (name, { p with engine := (p.engine.step .signal).getD p.engine, fd := false })
    else none
  | .enterAccept =>
    if p.pc = .serve ∧ p.engine.main = .accepting ∧ p.fd = true then
      some (name, { p with inAccept := true })
    else none
  | .engine .signal | .engine (.accept _) => none
  | .engine e =>
    if p.pc.Alive ∧ (e.isMain → p.pc = .serve) then
      (p.engine.step e).map fun engine => (name, { p with
        engine := engine
        inAccept := p.inAccept && engine.main = .accepting
        heirs := p.heirsAfter e })
    else none
  | .kill =>
    if p.pc.Alive then some (name, { p with pc := .killed, fd := false, inAccept := false })
    else none

namespace Supervisors

/-- Nobody is there, and neither is the name. -/
def init : Supervisors where
  name := none
  supervisor _ := ⟨.absent, Engine.init, false, false, false, []⟩
  started := []
  dial _ := .idle

variable (w : Supervisors)

/-- The supervisor that `connect_to_supervisor` reaches, if `connect` does not fail. -/
def connectToSupervisor : Option ℕ :=
  w.name.filter fun k => (w.supervisor k).Listens

/-- The supervisor `k` becomes `p`. -/
def setSupervisor (k : ℕ) (p : Supervisor) : Supervisors :=
  { w with supervisor := Function.update w.supervisor k p }

/-- What an event does. -/
def step : SocketEvent → Option Supervisors
  | .call k a =>
    ((w.supervisor k).call k w.name a).map fun r =>
      { w.setSupervisor k r.2 with
        name := r.1
        started := match a with
          | .start => k :: w.started
          | _ => w.started }
  | .accept k h c =>
    if (w.supervisor k).pc = .serve ∧ (w.supervisor k).inAccept = true ∧ w.dial c = .queued k then
      ((w.supervisor k).engine.step (.accept h)).map fun engine =>
        { w.setSupervisor k { w.supervisor k with engine := engine, inAccept := false } with
          dial := Function.update w.dial c (.accepted k h) }
    else none
  | .connect c =>
    if w.dial c = .idle then
      some { w with
        dial := Function.update w.dial c (w.connectToSupervisor.elim .refused .queued) }
    else none
  | .drop k x =>
    let p := w.supervisor k
    if x ∈ p.heirs then some (w.setSupervisor k { p with heirs := p.heirs.filter (· ≠ x) })
    else none
  | .pass k x y =>
    let p := w.supervisor k
    if x ∈ p.heirs then some (w.setSupervisor k { p with heirs := y :: p.heirs }) else none
  | .shutdown k x =>
    let p := w.supervisor k
    if x ∈ p.heirs then some (w.setSupervisor k { p with listening := false }) else none
  | .take k x c =>
    if x ∈ (w.supervisor k).heirs ∧ w.dial c = .queued k then
      some { w with dial := Function.update w.dial c (.taken k) }
    else none

end Supervisors

/-! ## Calls -/

/-- It is behind its `bind`, or will never come to it. -/
def SocketPc.PastBind : SocketPc → Bool
  | .absent | .unlink | .socket | .bind => false
  | _ => true

/-- The call removes the name. -/
def SocketCall.Removes : SocketCall → Prop
  | .unlink | .remove => True
  | _ => False

/-- Everything that a call of the supervisor `k` can do. -/
inductive CallStep (k : ℕ) (name : Option ℕ) (p : Supervisor) :
    SocketCall → Option ℕ → Supervisor → Prop
  | start : p.pc = .absent → CallStep k name p .start name { p with pc := .unlink }
  | unlink : p.pc = .unlink → CallStep k name p .unlink none { p with pc := .socket }
  | socket : p.pc = .socket →
      CallStep k name p (.socket true) name { p with pc := .bind, fd := true }
  | noSocket : p.pc = .socket → CallStep k name p (.socket false) name { p with pc := .returned 1 }
  | bind : p.pc = .bind → name = none → p.fd = true →
      CallStep k name p (.bind true) (some k) { p with pc := .listen }
  | noBind : p.pc = .bind → CallStep k name p (.bind false) name { p with pc := .close }
  | listen : p.pc = .listen → p.fd = true →
      CallStep k name p (.listen true) name { p with pc := .serve, listening := true }
  | noListen : p.pc = .listen → CallStep k name p (.listen false) name { p with pc := .close }
  | close (status : ℕ) : p.pc = .close ∨ p.pc = .serve ∧ p.engine.main = .returned →
      CallStep k name p .close name { p with pc := .remove status, fd := false }
  | remove (status : ℕ) : p.pc = .remove status →
      CallStep k name p .remove none { p with pc := .returned status }
  | signal : p.pc.Alive = true → CallStep k name p .signal name
      { p with engine := (p.engine.step .signal).getD p.engine, fd := false }
  | enterAccept : p.pc = .serve → p.engine.main = .accepting → p.fd = true →
      CallStep k name p .enterAccept name { p with inAccept := true }
  | engine (e : Event) (engine : Engine) : p.pc.Alive = true → (e.isMain = true → p.pc = .serve) →
      p.engine.step e = some engine → CallStep k name p (.engine e) name { p with
        engine := engine
        inAccept := p.inAccept && engine.main = .accepting
        heirs := p.heirsAfter e }
  | kill : p.pc.Alive = true →
      CallStep k name p .kill name { p with pc := .killed, fd := false, inAccept := false }

variable {k : ℕ} {name name' : Option ℕ} {p p' : Supervisor} {a : SocketCall}

theorem callStep_of_call (h : p.call k name a = some (name', p')) :
    CallStep k name p a name' p' := by
  cases a with
  | start | unlink =>
    simp only [Supervisor.call] at h
    split_ifs at h with hpc
    cases h
    constructor
    exact hpc
  | socket ok | bind ok | listen ok =>
    cases ok <;> simp only [Supervisor.call] at h <;> split_ifs at h with hpc <;> cases h <;>
      constructor <;> simp [hpc]
  | close =>
    simp only [Supervisor.call] at h
    split_ifs at h with hclose hserve <;> cases h
    · exact .close 1 (.inl hclose)
    · exact .close 0 (.inr hserve)
  | remove =>
    simp only [Supervisor.call] at h
    split at h <;> cases h
    next status hpc => exact .remove status hpc
  | signal | kill =>
    simp only [Supervisor.call] at h
    split_ifs at h with hpc
    cases h
    constructor
    exact hpc
  | enterAccept =>
    simp only [Supervisor.call] at h
    split_ifs at h with hpc
    cases h
    exact .enterAccept hpc.1 hpc.2.1 hpc.2.2
  | engine e =>
    have hstep : (if p.pc.Alive = true ∧ (e.isMain = true → p.pc = .serve) then
        (p.engine.step e).map fun engine => (name, { p with
          engine := engine
          inAccept := p.inAccept && engine.main = .accepting
          heirs := p.heirsAfter e })
        else none) = some (name', p') := by
      cases e <;> first | exact h | exact absurd h (by simp [Supervisor.call])
    split_ifs at hstep with hpc
    obtain ⟨engine, hs, heq⟩ := Option.map_eq_some_iff.mp hstep
    cases heq
    exact .engine e engine hpc.1 hpc.2 hs

/-- What a call does to the name. -/
theorem CallStep.name_cases (h : CallStep k name p a name' p') :
    a.Removes ∧ name' = none ∨ ¬a.Removes ∧
      (name' = name ∨ name = none ∧ name' = some k ∧ p.pc = .bind ∧ p'.pc.PastBind = true) := by
  cases h with
  | unlink | remove => exact .inl ⟨trivial, rfl⟩
  | bind hpc hname => exact .inr ⟨id, .inr ⟨hname, rfl, hpc, rfl⟩⟩
  | _ => exact .inr ⟨id, .inl rfl⟩

/-- No call leads back to a place before `bind`. -/
theorem CallStep.pastBind (h : CallStep k name p a name' p') (hp : p.pc.PastBind = true) :
    p'.pc.PastBind = true := by
  cases h with
  | start hpc | unlink hpc | socket hpc | noSocket hpc | bind hpc | noBind hpc =>
    rw [hpc] at hp
    cases hp
  | signal | enterAccept | engine => exact hp
  | _ => rfl

/-- A call is a step of the engine or leaves it alone. -/
theorem CallStep.engine_cases (h : CallStep k name p a name' p') :
    p'.engine = p.engine ∨ ∃ e, p.engine.step e = some p'.engine := by
  cases h with
  | signal =>
    cases hs : p.engine.step .signal with
    | none => exact .inl rfl
    | some engine => exact .inr ⟨.signal, hs⟩
  | engine e engine _ _ hs => exact .inr ⟨e, hs⟩
  | _ => exact .inl rfl

namespace Supervisors

variable {w w' : Supervisors} {e : SocketEvent}

theorem setSupervisor_self (k : ℕ) (p : Supervisor) : (w.setSupervisor k p).supervisor k = p :=
  Function.update_self ..

theorem setSupervisor_of_ne {j k : ℕ} (hj : j ≠ k) (p : Supervisor) :
    (w.setSupervisor k p).supervisor j = w.supervisor j :=
  Function.update_of_ne hj ..

/-- The supervisor `j` takes a call, accepts a connection, or does nothing, or an heir does
something to its socket. -/
inductive Turn (w : Supervisors) (j : ℕ) : SocketEvent → Supervisor → Prop
  | call (a : SocketCall) (name' : Option ℕ) (p : Supervisor) :
      CallStep j w.name (w.supervisor j) a name' p → Turn w j (.call j a) p
  | accept (h c : ℕ) (engine : Engine) : (w.supervisor j).pc = .serve →
      (w.supervisor j).engine.step (.accept h) = some engine →
      Turn w j (.accept j h c) { w.supervisor j with engine := engine, inAccept := false }
  | drop (x : Heir) : Turn w j (.drop j x)
      { w.supervisor j with heirs := (w.supervisor j).heirs.filter (· ≠ x) }
  | pass (x y : Heir) : Turn w j (.pass j x y)
      { w.supervisor j with heirs := y :: (w.supervisor j).heirs }
  | shutdown (x : Heir) : Turn w j (.shutdown j x) { w.supervisor j with listening := false }
  | idle (e : SocketEvent) : (∀ a, e ≠ .call j a) → Turn w j e (w.supervisor j)

theorem step_call {k : ℕ} {a : SocketCall} (hs : w.step (.call k a) = some w') :
    CallStep k w.name (w.supervisor k) a w'.name (w'.supervisor k) ∧ w'.dial = w.dial ∧
      (∀ j ≠ k, w'.supervisor j = w.supervisor j) ∧
      ∀ j, j ∈ w'.started ↔ j ∈ w.started ∨ j = k ∧ a = .start := by
  obtain ⟨⟨name', p⟩, hcall, rfl⟩ := Option.map_eq_some_iff.mp hs
  refine ⟨?_, rfl, fun j hj => setSupervisor_of_ne hj _, fun j => ?_⟩
  · change CallStep k w.name (w.supervisor k) a name' ((w.setSupervisor k p).supervisor k)
    rw [setSupervisor_self]
    exact callStep_of_call hcall
  · cases a <;> simp [or_comm]

theorem step_accept {k h c : ℕ} (hs : w.step (.accept k h c) = some w') :
    w.dial c = .queued k ∧ (w.supervisor k).pc = .serve ∧
      ∃ engine, (w.supervisor k).engine.step (.accept h) = some engine ∧
        w' = { w.setSupervisor k { w.supervisor k with engine := engine, inAccept := false } with
          dial := Function.update w.dial c (.accepted k h) } := by
  obtain ⟨⟨hpc, -, hqueued⟩, hs⟩ := Option.ite_none_right_eq_some.mp hs
  obtain ⟨engine, he, rfl⟩ := Option.map_eq_some_iff.mp hs
  exact ⟨hqueued, hpc, engine, he, rfl⟩

theorem step_connect {c : ℕ} (hs : w.step (.connect c) = some w') :
    w.dial c = .idle ∧ w' = { w with
      dial := Function.update w.dial c (w.connectToSupervisor.elim .refused .queued) } := by
  obtain ⟨hidle, hs⟩ := Option.ite_none_right_eq_some.mp hs
  exact ⟨hidle, (Option.some.inj hs).symm⟩

theorem step_drop {k : ℕ} {x : Heir} (hs : w.step (.drop k x) = some w') :
    w' = w.setSupervisor k { w.supervisor k with
      heirs := (w.supervisor k).heirs.filter (· ≠ x) } :=
  (Option.some.inj (Option.ite_none_right_eq_some.mp hs).2).symm

theorem step_pass {k : ℕ} {x y : Heir} (hs : w.step (.pass k x y) = some w') :
    w' = w.setSupervisor k { w.supervisor k with heirs := y :: (w.supervisor k).heirs } :=
  (Option.some.inj (Option.ite_none_right_eq_some.mp hs).2).symm

theorem step_shutdown {k : ℕ} {x : Heir} (hs : w.step (.shutdown k x) = some w') :
    w' = w.setSupervisor k { w.supervisor k with listening := false } :=
  (Option.some.inj (Option.ite_none_right_eq_some.mp hs).2).symm

theorem step_take {k c : ℕ} {x : Heir} (hs : w.step (.take k x c) = some w') :
    w.dial c = .queued k ∧ w' = { w with dial := Function.update w.dial c (.taken k) } := by
  obtain ⟨⟨-, hqueued⟩, hs⟩ := Option.ite_none_right_eq_some.mp hs
  exact ⟨hqueued, (Option.some.inj hs).symm⟩

/-- What is no call does something to one supervisor. -/
theorem Turn.set {j k : ℕ} {p : Supervisor} (h : Turn w k e p) (he : ∀ i a, e ≠ .call i a) :
    Turn w j e ((w.setSupervisor k p).supervisor j) := by
  by_cases hj : j = k
  · subst hj
    rw [setSupervisor_self]
    exact h
  · rw [setSupervisor_of_ne hj]
    exact .idle _ (he j)

theorem step_turn (hs : w.step e = some w') (j : ℕ) : Turn w j e (w'.supervisor j) := by
  cases e with
  | call k a =>
    obtain ⟨hcall, -, hothers, -⟩ := step_call hs
    by_cases hj : j = k
    · subst hj
      exact .call a _ _ hcall
    · rw [hothers j hj]
      exact .idle _ fun b hb => hj (SocketEvent.call.inj hb).1.symm
  | accept k h c =>
    obtain ⟨-, hpc, engine, he, rfl⟩ := step_accept hs
    exact (Turn.accept h c engine hpc he).set (by simp)
  | connect c =>
    obtain ⟨-, rfl⟩ := step_connect hs
    exact .idle _ (by simp)
  | drop k x =>
    obtain rfl := step_drop hs
    exact (Turn.drop x).set (by simp)
  | pass k x y =>
    obtain rfl := step_pass hs
    exact (Turn.pass x y).set (by simp)
  | shutdown k x =>
    obtain rfl := step_shutdown hs
    exact (Turn.shutdown x).set (by simp)
  | take k x c =>
    obtain ⟨-, rfl⟩ := step_take hs
    exact .idle _ (by simp)

/-- What is no call of the supervisor leaves it where it is. -/
theorem Turn.same {j : ℕ} {p : Supervisor} (h : Turn w j e p) (he : ∀ a, e ≠ .call j a) :
    p.pc = (w.supervisor j).pc ∧ p.fd = (w.supervisor j).fd := by
  cases h with
  | call a => exact absurd rfl (he a)
  | _ => exact ⟨rfl, rfl⟩

theorem Turn.pastBind {j : ℕ} {p : Supervisor} (h : Turn w j e p)
    (hp : (w.supervisor j).pc.PastBind = true) : p.pc.PastBind = true := by
  cases h with
  | call a name' p hcall => exact hcall.pastBind hp
  | _ => exact hp

/-- The engine of every supervisor is reached by steps of its own. -/
theorem engine_reachable {C : Supervisors → SocketEvent → Prop}
    (hr : Transition.Run step C init w) (k : ℕ) : (w.supervisor k).engine.Reachable := by
  refine Transition.Run.map (fun w => (w.supervisor k).engine) (fun t e u _ _ hs => ?_) hr
  have hturn := step_turn hs k
  generalize u.supervisor k = p at hturn
  cases hturn with
  | call a name' p hcall =>
    refine hcall.engine_cases.imp_right fun ⟨e, he⟩ => ⟨e, trivial, he⟩
  | accept h c engine _ he => exact .inr ⟨_, trivial, he⟩
  | _ => exact .inl rfl

/-! ## A name that is lost -/

/-- The event removes the name. -/
def Removes : SocketEvent → Prop
  | .call _ a => a.Removes
  | _ => False

/-- What an event does to the name. -/
theorem step_name (hs : w.step e = some w') :
    Removes e ∧ w'.name = none ∨ ¬Removes e ∧ (w'.name = w.name ∨ w.name = none ∧
      ∃ k, w'.name = some k ∧ (w.supervisor k).pc = .bind ∧
        (w'.supervisor k).pc.PastBind = true) := by
  cases e with
  | call k a =>
    refine (step_call hs).1.name_cases.imp_right (And.imp_right (Or.imp_right ?_))
    exact fun ⟨hname, hnew, hpc, hpast⟩ => ⟨hname, k, hnew, hpc, hpast⟩
  | accept =>
    obtain ⟨-, -, engine, -, rfl⟩ := step_accept hs
    exact .inr ⟨id, .inl rfl⟩
  | connect =>
    obtain ⟨-, rfl⟩ := step_connect hs
    exact .inr ⟨id, .inl rfl⟩
  | drop =>
    obtain rfl := step_drop hs
    exact .inr ⟨id, .inl rfl⟩
  | pass =>
    obtain rfl := step_pass hs
    exact .inr ⟨id, .inl rfl⟩
  | shutdown =>
    obtain rfl := step_shutdown hs
    exact .inr ⟨id, .inl rfl⟩
  | take =>
    obtain ⟨-, rfl⟩ := step_take hs
    exact .inr ⟨id, .inl rfl⟩

/-- The name leads only to a supervisor that has had its `bind`. -/
theorem name_pastBind {C : Supervisors → SocketEvent → Prop} (hr : Transition.Run step C init w)
    {k : ℕ} (hname : w.name = some k) : (w.supervisor k).pc.PastBind = true := by
  refine hr.invariant (I := fun w => ∀ k, w.name = some k → (w.supervisor k).pc.PastBind = true)
    (fun k hk => by cases hk) (fun t e u ih _ hs k hk => ?_) k hname
  rcases step_name hs with ⟨-, hnone⟩ | ⟨-, hsame | ⟨-, j, hj, -, hpast⟩⟩
  · rw [hnone] at hk
    cases hk
  · exact (step_turn hs k).pastBind (ih k (hsame ▸ hk))
  · rw [hj] at hk
    exact Option.some.inj hk ▸ hpast

/-- The supervisor `k` has had its `bind`, and the name does not lead to it. -/
def Lost (k : ℕ) (w : Supervisors) : Prop :=
  (w.supervisor k).pc.PastBind = true ∧ w.name ≠ some k

/-- What is lost stays lost : a process binds its socket once. -/
theorem Lost.step {k : ℕ} (hl : Lost k w) (hs : w.step e = some w') : Lost k w' := by
  refine ⟨(step_turn hs k).pastBind hl.1, fun hk => ?_⟩
  rcases step_name hs with ⟨-, hnone⟩ | ⟨-, hsame | ⟨-, j, hj, hpc, -⟩⟩
  · rw [hnone] at hk
    cases hk
  · exact hl.2 (hsame ▸ hk)
  · rw [hj] at hk
    obtain rfl := Option.some.inj hk
    have hpast := hl.1
    rw [hpc] at hpast
    cases hpast

/-- The name leads to `k` until somebody removes it. -/
theorem name_iff {k : ℕ} : ∀ {es : List SocketEvent} {w w' : Supervisors},
    Transition.exec step Transition.Always w es = some w' →
    (w.supervisor k).pc.PastBind = true → w.name = some k →
    (w'.name = some k ↔ ∀ e ∈ es, ¬Removes e)
  | [], w, w', h, _, hname => by
    obtain rfl : w = w' := by simpa [Transition.exec] using h
    simp [hname]
  | e :: es, w, w', h, hpast, hname => by
    obtain ⟨-, u, hs, hu⟩ := Transition.exec_cons.mp h
    have hpast' := (step_turn hs k).pastBind hpast
    rw [List.forall_mem_cons]
    rcases step_name hs with ⟨hrem, hnone⟩ | ⟨hkeep, hsame | ⟨hfree, -⟩⟩
    · have hlost : Lost k w' := (Transition.run_of_exec hu).invariant
        (I := Lost k) ⟨hpast', by simp [hnone]⟩ fun t e u hl _ hs => hl.step hs
      exact ⟨fun hk => absurd hk hlost.2, fun hno => absurd hrem hno.1⟩
    · rw [name_iff hu hpast' (hsame.trans hname), and_iff_right hkeep]
    · rw [hname] at hfree
      cases hfree

/-- The command asks the supervisor `k`. -/
def Reaches (k : ℕ) : Dial → Prop
  | .queued j | .accepted j _ | .taken j => j = k
  | _ => False

/-- A command that has not connected yet does not come to a supervisor that is lost. -/
theorem Lost.not_reaches {k c : ℕ} (hl : Lost k w) (hc : ¬Reaches k (w.dial c))
    (hs : w.step e = some w') : ¬Reaches k (w'.dial c) := by
  cases e with
  | call j a => rwa [(step_call hs).2.1]
  | accept j h d =>
    obtain ⟨hqueued, -, engine, -, rfl⟩ := step_accept hs
    by_cases hd : c = d
    · subst hd
      rw [hqueued] at hc
      simpa [Reaches] using hc
    · simpa [Function.update_of_ne hd] using hc
  | connect d =>
    obtain ⟨-, rfl⟩ := step_connect hs
    by_cases hd : c = d
    · subst hd
      have hconn : w.connectToSupervisor ≠ some k :=
        fun h => hl.2 (Option.filter_eq_some_iff.mp h).1
      cases h : w.connectToSupervisor with
      | none => simp [Reaches]
      | some j =>
        rw [h] at hconn
        simpa [Reaches] using hconn
    · simpa [Function.update_of_ne hd] using hc
  | drop j x =>
    obtain rfl := step_drop hs
    exact hc
  | pass j x y =>
    obtain rfl := step_pass hs
    exact hc
  | shutdown j x =>
    obtain rfl := step_shutdown hs
    exact hc
  | take j x d =>
    obtain ⟨hqueued, rfl⟩ := step_take hs
    by_cases hd : c = d
    · subst hd
      rw [hqueued] at hc
      simpa [Reaches] using hc
    · simpa [Function.update_of_ne hd] using hc

/-- In every run of any number of supervisors and commands, calls failing and processes killed
anywhere : the name leads to a supervisor exactly until one of them, whichever it is, unlinks it;
from then on no command that has not connected yet reaches that supervisor, although it may go on
for as long as it likes. -/
theorem socket_name_lost (hr : Transition.Run step Transition.Always init w) {k : ℕ}
    (hname : w.name = some k) :
    (∀ es w', Transition.exec step Transition.Always w es = some w' →
      (w'.name = some k ↔ ∀ e ∈ es, ¬Removes e)) ∧
    ∀ w' w'', Transition.Run step Transition.Always w w' → w'.name ≠ some k →
      Transition.Run step Transition.Always w' w'' →
      w''.connectToSupervisor ≠ some k ∧
        ∀ c, ¬Reaches k (w'.dial c) → ¬Reaches k (w''.dial c) := by
  have hpast := name_pastBind hr hname
  refine ⟨fun es w' h => name_iff h hpast hname, fun w' w'' h hno h' => ?_⟩
  have hpast' : (w'.supervisor k).pc.PastBind = true :=
    h.invariant (I := fun w => (w.supervisor k).pc.PastBind = true) hpast
      fun t e u ih _ hs => (step_turn hs k).pastBind ih
  obtain ⟨hlost, hdial⟩ := h'.invariant
    (I := fun u => Lost k u ∧ ∀ c, ¬Reaches k (w'.dial c) → ¬Reaches k (u.dial c))
    ⟨⟨hpast', hno⟩, fun _ => id⟩ fun t e u ih _ hs =>
      ⟨ih.1.step hs, fun c hc => ih.1.not_reaches (ih.2 c hc) hs⟩
  exact ⟨fun hk => hlost.2 (Option.filter_eq_some_iff.mp hk).1, hdial⟩

/-- A second supervisor that is started at the same time and fails to bind takes the name of the
first with it : that one listens, and no command reaches it any more. -/
theorem socket_name_lost_two : ∃ w : Supervisors,
    Transition.Run step Transition.Always init w ∧ (w.supervisor 1).pc = .returned 1 ∧
      (w.supervisor 0).Listens ∧ (w.supervisor 0).engine.running = true ∧
      ∀ w', Transition.Run step Transition.Always w w' → w'.connectToSupervisor ≠ some 0 := by
  obtain ⟨w, hr, hname, hpc⟩ := Transition.exists_run_of_exec step Transition.Always init
    [.call 0 .start, .call 1 .start, .call 0 .unlink, .call 1 .unlink, .call 0 (.socket true),
      .call 1 (.socket true), .call 0 (.bind true), .call 0 (.listen true)]
    (fun w => w.name = some 0 ∧ (w.supervisor 1).pc = .bind ∧
      ((Transition.exec step Transition.Always w
        [.call 1 (.bind false), .call 1 .close, .call 1 .remove]).any fun w' =>
          w'.name = none ∧ (w'.supervisor 1).pc = .returned 1 ∧ (w'.supervisor 0).Listens ∧
            (w'.supervisor 0).engine.running = true) = true) (by decide)
  obtain ⟨w', hr', hnone, hret, hlistens, hrun⟩ := Transition.exists_run_of_exec step
    Transition.Always w [.call 1 (.bind false), .call 1 .close, .call 1 .remove] _ hpc.2
  obtain ⟨-, hlost⟩ := socket_name_lost hr hname
  exact ⟨w', hr.trans hr', hret, hlistens, hrun, fun w'' hr'' =>
    (hlost w' w'' hr' (by simp [hnone]) hr'').1⟩

end Supervisors

end Jackfruit
