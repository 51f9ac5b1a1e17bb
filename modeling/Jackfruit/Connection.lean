import Jackfruit.EngineStep

/-!
# Clients and the control socket

The supervisor with its clients. A client connects, sends bytes and closes whenever it likes, and
each connection is served by one handler : `recv_all` collects a `request_t` from it, and
`send_all` sends the `response_t`, both by as many partial calls as the kernel makes of it. A
`send` to a client that has closed raises SIGPIPE, and `signal` decides what a signal does to the
process.

`run_supervisor` changes the disposition of SIGINT and SIGTERM only. So as long as no handler
sends to a client that has closed, the process ends by its shutdown path and in no other way
(`supervisor_survives_clients`), and one client that does not wait for its answer ends it
(`client_kills_supervisor`). With SIGPIPE ignored no client can (`supervisor_survives_ignoring`).
-/

set_option linter.unusedSectionVars false

namespace Jackfruit

/-! ## Signals -/

/-- The signals that matter to the supervisor. -/
inductive Signal
  | SIGINT
  | SIGTERM
  | SIGPIPE
  deriving DecidableEq

/-- What a signal does to the process. -/
inductive Disposition
  /-- `SIG_DFL` : the signal terminates the process. -/
  | default
  /-- `SIG_IGN`. -/
  | ignore
  /-- `supervisor_signal_handler`. -/
  | handler
  deriving DecidableEq

/-- `signal(sig, disposition)`. -/
def signal (d : Signal → Disposition) (sig : Signal) (disposition : Disposition) :
    Signal → Disposition :=
  Function.update d sig disposition

/-- The dispositions that `run_supervisor` sets up. -/
def supervisorSignals : Signal → Disposition :=
  signal (signal (fun _ => .default) .SIGINT .handler) .SIGTERM .handler

/-! ## Messages -/

/-- `sizeof(request_t)`. -/
def REQUEST_SIZE : ℕ :=
  4 + MAX_ID_LEN + MAX_PATH_LEN + MAX_CMD_LEN + 4 + 4 + 4

/-- The `int` at an offset. -/
def decodeInt (msg : List UInt8) (offset : ℕ) : ℤ :=
  (BitVec.ofNat 32 (((msg.drop offset).take 4).foldr (fun b n => b.toNat + 256 * n) 0)).toInt

/-- The string at an offset : up to the first NUL from there on. -/
def decodeString (msg : List UInt8) (offset : ℕ) : CStr :=
  (msg.drop offset).takeWhile fun b => b ≠ 0

/-- The bytes of a `request_t` as the handler reads them. -/
def decodeRequest (msg : List UInt8) : Request where
  type := decodeInt msg 0
  id := decodeString msg 4
  rootfs := decodeString msg (4 + MAX_ID_LEN)
  command := decodeString msg (4 + MAX_ID_LEN + MAX_PATH_LEN)
  softMib := decodeInt msg (4 + MAX_ID_LEN + MAX_PATH_LEN + MAX_CMD_LEN)
  hardMib := decodeInt msg (4 + MAX_ID_LEN + MAX_PATH_LEN + MAX_CMD_LEN + 4)
  niceValue := decodeInt msg (4 + MAX_ID_LEN + MAX_PATH_LEN + MAX_CMD_LEN + 8)

/-- The bytes of an `int`. -/
def encodeInt (n : ℤ) : List UInt8 :=
  (List.range 4).map fun k => UInt8.ofNat ((BitVec.ofInt 32 n).toNat >>> (8 * k))

/-- The bytes of a `response_t`. -/
def encodeResponse (resp : Response) : List UInt8 :=
  encodeInt (if resp.ok then 1 else 0) ++ encodeInt resp.exitCode ++
    (resp.message ++ List.replicate (RESPONSE_MSG_LEN - resp.message.length) 0)

/-! ## The service -/

/-- The client's end of a connection. -/
inductive Peer
  | absent
  | connected
  | closed
  deriving DecidableEq

/-- The connection of a handler. -/
structure Conn where
  peer : Peer
  /-- Sent by the client and not received yet. -/
  inbox : List UInt8
  /-- What `recv_all` has received. -/
  received : List UInt8
  /-- What `send_all` has sent. -/
  sent : List UInt8
  deriving DecidableEq

/-- The supervisor process. -/
inductive Process
  | running
  /-- `run_supervisor` has returned, and `main` with it. -/
  | exited
  | killed (sig : Signal)
  deriving DecidableEq

/-- The supervisor with its connections. -/
structure Service where
  engine : Engine
  conn : ℕ → Conn
  process : Process
  /-- The signals that `supervisor_signal_handler` has had. -/
  signals : List Signal

/-- What a `send` or a `recv` returns. -/
inductive IoResult
  | bytes (n : ℕ)
  /-- `-1` with `EINTR`. -/
  | eintr
  /-- `-1` with any other error. -/
  | error
  deriving DecidableEq

/-- What the supervisor, the clients and whoever sends it signals do. `recv` and `send` are one call
of the loops of `recv_all` and `send_all` in a handler, with what it returns. -/
inductive ServiceEvent
  /-- Somebody sends SIGINT or SIGTERM to the supervisor. -/
  | kill (term : Bool)
  /-- A step of the engine off the sockets. -/
  | engine (e : Event)
  | connect (h : ℕ)
  | write (h : ℕ) (bytes : List UInt8)
  | close (h : ℕ)
  | accept (h : ℕ)
  | recv (h : ℕ) (res : IoResult)
  | send (h : ℕ) (res : IoResult)

/-- The steps of the engine that a signal or a connection decides. -/
def Event.isExternal : Event → Bool
  | .signal | .accept _ | .recv _ _ | .hangup _ | .send _ => true
  | _ => false

namespace Service

/-- `run_supervisor` at its accept loop. -/
def init : Service where
  engine := Engine.init
  conn _ := ⟨.absent, [], [], []⟩
  process := .running
  signals := []

variable (disp : Signal → Disposition) (s : Service)

/-- The connection of `h` becomes `c`. -/
def setConn (h : ℕ) (c : Conn) : Service :=
  { s with conn := Function.update s.conn h c }

/-- The engine takes a step. The process is gone when `run_supervisor` returns. -/
def engineStep (e : Event) : Option Service :=
  (s.engine.step e).map fun engine =>
    { s with
      engine := engine
      process := if engine.main = .returned then .exited else s.process }

/-- A signal is delivered to the process. -/
def raise (sig : Signal) : Option Service :=
  match disp sig with
  | .default => some { s with process := .killed sig }
  | .ignore => some s
  | .handler => ({ s with signals := sig :: s.signals }).engineStep .signal

/-- One turn of the loop of `recv_all`. -/
def recvStep (h : ℕ) (res : IoResult) : Option Service :=
  if (s.engine.handler h).pc = .recv then
    match res with
    | .bytes 0 =>
      if (s.conn h).inbox = [] ∧ (s.conn h).peer = .closed then s.engineStep (.hangup h) else none
    | .bytes n =>
      let c := s.conn h
      if n ≤ c.inbox.length ∧ c.received.length + n ≤ REQUEST_SIZE then
        let received := c.received ++ c.inbox.take n
        let t := s.setConn h { c with inbox := c.inbox.drop n, received := received }
        if received.length = REQUEST_SIZE then t.engineStep (.recv h (decodeRequest received))
        else some t
      else none
    | .eintr => some s
    | .error => s.engineStep (.hangup h)
  else none

/-- One turn of the loop of `send_all`. -/
def sendStep (h : ℕ) (res : IoResult) : Option Service :=
  if (s.engine.handler h).pc = .send then
    if (s.conn h).peer = .closed then
      -- SIGPIPE comes first, and `EPIPE` only if the process outlives it.
      (s.raise disp .SIGPIPE).bind fun t =>
        if t.process = .running then t.engineStep (.send h) else some t
    else
      match res with
      | .bytes n =>
        let c := s.conn h
        let msg := encodeResponse (s.engine.handler h).resp
        if c.sent.length + n ≤ msg.length then
          let sent := c.sent ++ (msg.drop c.sent.length).take n
          let t := s.setConn h { c with sent := sent }
          if sent.length = msg.length then t.engineStep (.send h) else some t
        else none
      | .eintr => some s
      | .error => s.engineStep (.send h)
  else none

/-- What an event does. -/
def next : ServiceEvent → Option Service
  | .kill term => s.raise disp (if term then .SIGTERM else .SIGINT)
  | .engine e => if e.isExternal then none else s.engineStep e
  | .connect h =>
    if (s.conn h).peer = .absent then some (s.setConn h { s.conn h with peer := .connected })
    else none
  | .write h bytes =>
    if (s.conn h).peer = .connected then
      some (s.setConn h { s.conn h with inbox := (s.conn h).inbox ++ bytes })
    else none
  | .close h =>
    if (s.conn h).peer = .connected then some (s.setConn h { s.conn h with peer := .closed })
    else none
  | .accept h => if (s.conn h).peer ≠ .absent then s.engineStep (.accept h) else none
  | .recv h res => s.recvStep h res
  | .send h res => s.sendStep disp h res

/-- One step; none once the process has ended. -/
def step (e : ServiceEvent) : Option Service :=
  if s.process = .running then s.next disp e else none

/-- The process is running, or it has ended by the shutdown path, which only SIGINT and SIGTERM
open. -/
structure OnlyByShutdown : Prop where
  ended : s.process ≠ .running → s.process = .exited ∧ s.engine.main = .returned
  opened : s.engine.main ≠ .loop → s.engine.main ≠ .accepting →
    .SIGINT ∈ s.signals ∨ .SIGTERM ∈ s.signals

/-- No handler sends to a client that has closed. -/
def SendsToOpen : ServiceEvent → Prop
  | .send h _ => (s.conn h).peer ≠ .closed
  | _ => True

instance (e : ServiceEvent) : Decidable (s.SendsToOpen e) := by
  unfold SendsToOpen
  split <;> infer_instance

/-- A handler sends to a client that has closed only if SIGPIPE is ignored. -/
def SendsSafely (e : ServiceEvent) : Prop :=
  s.SendsToOpen e ∨ disp .SIGPIPE = .ignore

/-! ## What a step does to the engine -/

/-- SIGINT and SIGTERM go to `supervisor_signal_handler`. -/
structure Installed (disp : Signal → Disposition) : Prop where
  sigint : disp .SIGINT = .handler
  sigterm : disp .SIGTERM = .handler

theorem installed_supervisorSignals : Installed supervisorSignals :=
  ⟨by decide, by decide⟩

/-- Everything that a step can do besides the connections, if it does not raise SIGPIPE. -/
inductive Effect (s : Service) : Service → Prop
  | conn (conn : ℕ → Conn) : Effect s { s with conn := conn }
  | engine (e : Event) (engine : Engine) (conn : ℕ → Conn) : s.engine.step e = some engine →
      e ≠ .signal → Effect s { s with
        engine := engine
        conn := conn
        process := if engine.main = .returned then .exited else s.process }
  | caught (sig : Signal) (engine : Engine) : sig = .SIGINT ∨ sig = .SIGTERM →
      s.engine.step .signal = some engine → Effect s { s with
        engine := engine
        process := if engine.main = .returned then .exited else s.process
        signals := sig :: s.signals }

variable {disp : Signal → Disposition} {s s' : Service} {e : ServiceEvent} {h : ℕ}
  {res : IoResult}

theorem step_next (hs : step disp s e = some s') :
    s.process = .running ∧ s.next disp e = some s' :=
  Option.ite_none_right_eq_some.mp hs

/-- A step of the engine after a change to the connections. -/
theorem effect_engine {conn : ℕ → Conn} {e : Event}
    (hs : ({ s with conn := conn }).engineStep e = some s') (he : e ≠ .signal) : Effect s s' := by
  obtain ⟨engine, heng, rfl⟩ := Option.map_eq_some_iff.mp hs
  exact .engine e engine conn heng he

theorem recvStep_effect (hs : s.recvStep h res = some s') : Effect s s' := by
  obtain ⟨-, hs⟩ := Option.ite_none_right_eq_some.mp hs
  split at hs
  · obtain ⟨-, hs⟩ := Option.ite_none_right_eq_some.mp hs
    exact effect_engine hs nofun
  · obtain ⟨-, hs⟩ := Option.ite_none_right_eq_some.mp hs
    dsimp only at hs
    split_ifs at hs
    · exact effect_engine hs nofun
    · cases hs
      exact .conn _
  · cases hs
    exact .conn _
  · exact effect_engine hs nofun

theorem sendStep_effect (hs : s.sendStep disp h res = some s')
    (hc : (s.conn h).peer ≠ .closed ∨ disp .SIGPIPE = .ignore) : Effect s s' := by
  obtain ⟨-, hs⟩ := Option.ite_none_right_eq_some.mp hs
  split_ifs at hs with hpeer
  · have hignore := hc.resolve_left (not_not_intro hpeer)
    simp only [raise, hignore, Option.bind_some] at hs
    split_ifs at hs
    · exact effect_engine hs nofun
    · cases hs
      exact .conn _
  · split at hs
    · obtain ⟨-, hs⟩ := Option.ite_none_right_eq_some.mp hs
      dsimp only at hs
      split_ifs at hs
      · exact effect_engine hs nofun
      · cases hs
        exact .conn _
    · cases hs
      exact .conn _
    · exact effect_engine hs nofun

theorem step_effect (hd : Installed disp) (hs : step disp s e = some s')
    (hc : SendsSafely disp s e) : Effect s s' := by
  replace hs := (step_next hs).2
  cases e with
  | kill term =>
    have hsig : (if term then Signal.SIGTERM else .SIGINT) = .SIGINT ∨
        (if term then Signal.SIGTERM else .SIGINT) = .SIGTERM := by
      cases term <;> simp
    have hhandler : disp (if term then .SIGTERM else .SIGINT) = .handler := by
      cases term
      · exact hd.sigint
      · exact hd.sigterm
    simp only [next, raise, hhandler] at hs
    obtain ⟨engine, heng, rfl⟩ := Option.map_eq_some_iff.mp hs
    exact .caught _ engine hsig heng
  | engine e =>
    simp only [next] at hs
    split_ifs at hs with he
    refine effect_engine hs ?_
    rintro rfl
    exact he rfl
  | connect h | write h bytes | close h =>
    obtain ⟨-, hs⟩ := Option.ite_none_right_eq_some.mp hs
    cases hs
    exact .conn _
  | accept h =>
    obtain ⟨-, hs⟩ := Option.ite_none_right_eq_some.mp hs
    exact effect_engine hs nofun
  | recv h res => exact recvStep_effect hs
  | send h res => exact sendStep_effect hs hc

/-- The engine takes this step in the state `s`, or one that a signal or a connection decides. -/
def StepsAt (s t : Engine) (e : Event) : Prop :=
  t = s ∨ e.isExternal = true

theorem engineStep_run {e : Event} (hs : s.engineStep e = some s') :
    Transition.Run Engine.step (StepsAt s.engine) s.engine s'.engine := by
  obtain ⟨engine, heng, rfl⟩ := Option.map_eq_some_iff.mp hs
  exact .tail e .refl (Or.inl rfl) heng

theorem raise_run {sig : Signal} (hs : s.raise disp sig = some s') :
    Transition.Run Engine.step (StepsAt s.engine) s.engine s'.engine := by
  unfold raise at hs
  split at hs
  · cases hs
    exact .refl
  · cases hs
    exact .refl
  · exact engineStep_run (s := { s with signals := sig :: s.signals }) hs

theorem recvStep_run (hs : s.recvStep h res = some s') :
    Transition.Run Engine.step (StepsAt s.engine) s.engine s'.engine := by
  obtain ⟨-, hs⟩ := Option.ite_none_right_eq_some.mp hs
  split at hs
  · obtain ⟨-, hs⟩ := Option.ite_none_right_eq_some.mp hs
    exact engineStep_run hs
  · obtain ⟨-, hs⟩ := Option.ite_none_right_eq_some.mp hs
    dsimp only at hs
    split_ifs at hs
    · exact engineStep_run (s := s.setConn h _) hs
    · cases hs
      exact .refl
  · cases hs
    exact .refl
  · exact engineStep_run hs

theorem sendStep_run (hs : s.sendStep disp h res = some s') :
    Transition.Run Engine.step (StepsAt s.engine) s.engine s'.engine := by
  obtain ⟨-, hs⟩ := Option.ite_none_right_eq_some.mp hs
  split_ifs at hs with hpeer
  · obtain ⟨u, hu, hs⟩ := Option.bind_eq_some_iff.mp hs
    split_ifs at hs
    · obtain ⟨engine, heng, rfl⟩ := Option.map_eq_some_iff.mp hs
      exact .tail (.send h) (raise_run hu) (Or.inr rfl) heng
    · cases hs
      exact raise_run hu
  · split at hs
    · obtain ⟨-, hs⟩ := Option.ite_none_right_eq_some.mp hs
      dsimp only at hs
      split_ifs at hs
      · exact engineStep_run (s := s.setConn h _) hs
      · cases hs
        exact .refl
    · cases hs
      exact .refl
    · exact engineStep_run hs

/-- A step of the service is at most one step of the engine, and signals and sends. -/
theorem step_run (hs : step disp s e = some s') :
    Transition.Run Engine.step (StepsAt s.engine) s.engine s'.engine := by
  replace hs := (step_next hs).2
  cases e with
  | kill term => exact raise_run hs
  | engine e =>
    simp only [next] at hs
    split_ifs at hs
    exact engineStep_run hs
  | connect h | write h bytes | close h =>
    obtain ⟨-, hs⟩ := Option.ite_none_right_eq_some.mp hs
    cases hs
    exact .refl
  | accept h =>
    obtain ⟨-, hs⟩ := Option.ite_none_right_eq_some.mp hs
    exact engineStep_run hs
  | recv h res => exact recvStep_run hs
  | send h res => exact sendStep_run hs

/-- The clients change nothing about how the engine runs. -/
theorem engine_run {C : Service → ServiceEvent → Prop}
    (hr : Transition.Run (step disp) C s s') :
    Transition.Run Engine.step Transition.Always s.engine s'.engine :=
  hr.invariant (I := fun t => Transition.Run Engine.step Transition.Always s.engine t.engine) .refl
    fun _ _ _ ht _ hs => ht.trans (step_run hs).always

/-! ## How the supervisor ends -/

/-- The process lasts as long as `run_supervisor`, which serves until a signal comes. -/
structure Lasting (s : Service) : Prop where
  process : s.process = if s.engine.main = .returned then .exited else .running
  serving : s.engine.Serving ∨ .SIGINT ∈ s.signals ∨ .SIGTERM ∈ s.signals

theorem Lasting.onlyByShutdown (l : Lasting s) : s.OnlyByShutdown := by
  refine ⟨fun hp => ?_, fun hloop haccept => ?_⟩
  · rw [l.process] at hp ⊢
    by_cases hret : s.engine.main = .returned
    · exact ⟨if_pos hret, hret⟩
    · exact absurd (if_neg hret) hp
  · rcases l.serving with ⟨-, hmain⟩ | hsig
    · exact (hmain.elim hloop haccept).elim
    · exact hsig

theorem Lasting.step (l : Lasting s) (hrun : s.process = .running) (hs : Effect s s') :
    Lasting s' := by
  cases hs with
  | conn conn => exact ⟨l.process, l.serving⟩
  | engine e engine conn heng he =>
    refine ⟨by dsimp only; rw [hrun], ?_⟩
    exact l.serving.imp_left fun hv => hv.step (Engine.step_effect heng) he
  | caught sig engine hsig heng =>
    refine ⟨by dsimp only; rw [hrun], Or.inr ?_⟩
    rcases hsig with rfl | rfl
    · exact Or.inl List.mem_cons_self
    · exact Or.inr List.mem_cons_self

theorem Lasting.of_run (hd : Installed disp)
    (hr : Transition.Run (Service.step disp) (SendsSafely disp) init s) : Lasting s := by
  refine hr.invariant ⟨rfl, Or.inl ⟨rfl, Or.inl rfl⟩⟩ fun t e u l hc hs => ?_
  exact l.step (step_next hs).1 (step_effect hd hs hc)

/-- With SIGPIPE ignored, no client can bring the supervisor down. -/
theorem supervisor_survives_ignoring
    (hr : Transition.Run (step (signal supervisorSignals .SIGPIPE .ignore)) Transition.Always
      init s) : s.OnlyByShutdown := by
  refine (Lasting.of_run ⟨by decide, by decide⟩ (hr.mono fun t e _ => ?_)).onlyByShutdown
  exact Or.inr (by decide)

/-- A send to a client that has closed kills the process. -/
theorem killed_of_send (hs : step supervisorSignals s e = some s') (hc : ¬s.SendsToOpen e) :
    s'.process = .killed .SIGPIPE := by
  replace hs := (step_next hs).2
  cases e with
  | send h res =>
    have hpeer : (s.conn h).peer = .closed := not_not.mp hc
    obtain ⟨-, hs⟩ := Option.ite_none_right_eq_some.mp hs
    have hdefault : supervisorSignals .SIGPIPE = .default := by decide
    simp only [hpeer, if_true, raise, hdefault, Option.bind_some] at hs
    cases hs
    rfl
  | _ => exact absurd trivial hc

/-- The supervisor ends by its shutdown path only, or not at all, exactly if no handler has sent
to a client that had closed. -/
theorem supervisor_survives_clients
    (hr : Transition.Run (step supervisorSignals) Transition.Always init s) :
    s.OnlyByShutdown ↔ Transition.Run (step supervisorSignals) SendsToOpen init s := by
  constructor
  · intro hs
    have key : Transition.Run (step supervisorSignals) SendsToOpen init s ∨
        s.process = .killed .SIGPIPE := by
      refine hr.invariant (I := fun t => Transition.Run (step supervisorSignals) SendsToOpen init t
        ∨ t.process = .killed .SIGPIPE) (Or.inl .refl) fun t e u ht _ hstep => ?_
      -- A killed process takes no step.
      have hrun := ht.resolve_right (by simp [(step_next hstep).1])
      by_cases hc : t.SendsToOpen e
      · exact Or.inl (.tail e hrun hc hstep)
      · exact Or.inr (killed_of_send hstep hc)
    refine key.resolve_right fun hkilled => ?_
    have hexited := (hs.ended (by simp [hkilled])).1
    simp [hkilled] at hexited
  · intro hopen
    refine (Lasting.of_run installed_supervisorSignals ?_).onlyByShutdown
    exact hopen.mono fun t e hc => Or.inl hc

/-- A client asks for the list of containers. -/
def playRequest : List ServiceEvent :=
  [.connect 0, .write 0 ([3, 0, 0, 0] ++ List.replicate 556 0), .engine .loopTest, .accept 0,
    .recv 0 (.bytes 100), .recv 0 .eintr, .recv 0 (.bytes 460), .engine (.read 0 initResponse)]

/-- The client reads its answer before it closes. -/
theorem supervisor_survives_clients_one : ∃ s : Service, (s.engine.handler 0).pc = .closed ∧
    (s.conn 0).peer = .closed ∧ s.OnlyByShutdown := by
  obtain ⟨s, hr, hp⟩ := Transition.exists_run_of_exec (step supervisorSignals) SendsToOpen init
    (playRequest ++ [.send 0 (.bytes 5000), .send 0 (.bytes 3200), .close 0])
    (fun s => (s.engine.handler 0).pc = .closed ∧ (s.conn 0).peer = .closed) (by decide +kernel)
  exact ⟨s, hp.1, hp.2, (supervisor_survives_clients hr.always).mpr hr⟩

/-- The client closes while the handler is at work. -/
theorem client_kills_supervisor : ∃ s : Service,
    Transition.Run (step supervisorSignals) Transition.Always init s ∧
      s.process = .killed .SIGPIPE ∧ s.signals = [] ∧ ¬s.OnlyByShutdown := by
  obtain ⟨s, hr, hk, hsig⟩ := Transition.exists_run_of_exec (step supervisorSignals)
    Transition.Always init (playRequest ++ [.close 0, .send 0 .error])
    (fun s => s.process = .killed .SIGPIPE ∧ s.signals = []) (by decide +kernel)
  refine ⟨s, hr, hk, hsig, fun hs => ?_⟩
  have hexited := (hs.ended (by simp [hk])).1
  simp [hk] at hexited

end Service

end Jackfruit
