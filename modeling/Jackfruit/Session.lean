import Jackfruit.Connection
import Jackfruit.Framing
import Jackfruit.StartCalls

/-!
# Requests and responses over the control socket

The service with the `engine` commands that talk to it. A command connects, and
`send_request_to_supervisor` sends its `request_t` and waits for a `response_t`, which `main`
prints; any other program may be at the client's end of a connection too. `send_all` and `recv_all`
are the loops of `Framing`, at both ends, and every call of them may move any part of what is left,
be interrupted or fail.

A handler that has left `recv_all` has received a whole `request_t`, exactly as the client sent it,
or serves nothing. A command that prints has received a whole `response_t` (`framing_exact`).
-/

set_option linter.unusedSectionVars false

open Framing

namespace Jackfruit

/-- `sizeof(response_t)`. -/
def RESPONSE_SIZE : ℕ :=
  4 + 4 + RESPONSE_MSG_LEN

/-- Where a command is in `main`. -/
inductive ClientPc
  | sendAll
  | recvAll
  /-- `send_request_to_supervisor` has returned `0`. -/
  | answered
  /-- Has printed this message, if it is not empty. -/
  | printed (text : CStr)
  /-- Without an answer, or no longer there. -/
  | failed
  deriving DecidableEq

/-- An `engine` command with the loops of its `send_all` and `recv_all`. -/
structure Client where
  tx : Loop UInt8
  rx : Loop UInt8
  pc : ClientPc
  deriving DecidableEq

namespace Client

variable (c : Client)

/-- `send` has sent `n` bytes. -/
def advance (n : ℕ) : Client :=
  { c with
    tx := c.tx.advance n
    pc := if (c.tx.advance n).ret = some 0 then .recvAll else .sendAll }

/-- `recv` has received `bytes`. -/
def store (bytes : List UInt8) : Client :=
  { c with
    rx := c.rx.store bytes
    pc := if (c.rx.store bytes).ret = some 0 then .answered else .recvAll }

/-- The client's end is closed, by `close` or with the process. -/
def close : Client :=
  { c with pc := if c.pc = .sendAll ∨ c.pc = .recvAll then .failed else c.pc }

end Client

/-- The service, the commands, and the loops of `recv_all` in the handlers. -/
structure Session where
  service : Service
  client : ℕ → Option Client
  rx : ℕ → Loop UInt8
  /-- What has come from the client's end of a connection. No step reads it. -/
  written : ℕ → List UInt8

/-- What the service and the commands do. `send` and `recv` are one call of the loops of `send_all`
and `recv_all` in a command, with what it returns. -/
inductive SessionEvent
  /-- A step of the service, or of a client that is not an `engine` command. -/
  | service (e : ServiceEvent)
  /-- A command connects, with its request and the buffer for the response. -/
  | start (h : ℕ) (msg buf : List UInt8)
  | send (h : ℕ) (res : IoResult)
  | recv (h : ℕ) (res : IoResult)
  | print (h : ℕ)
  | close (h : ℕ)

namespace Session

/-- No client yet. `junk` is what is in the `request_t` of a handler at first. -/
def init (junk : ℕ → Fin REQUEST_SIZE → UInt8) : Session where
  service := Service.init
  client _ := none
  rx h := .start (List.ofFn (junk h))
  written _ := []

variable (disp : Signal → Disposition) (s : Session)

/-- What the call of `recv` does to the loop of the handler. -/
def rxAfter : ServiceEvent → ℕ → Loop UInt8
  | .recv h (.bytes 0) | .recv h .error => Function.update s.rx h (s.rx h).fail
  | .recv h (.bytes n) =>
    Function.update s.rx h ((s.rx h).store ((s.service.conn h).inbox.take n))
  | _ => s.rx

/-- What has come from the client's ends after the event. -/
def writtenAfter : ServiceEvent → ℕ → List UInt8
  | .write h bytes => Function.update s.written h (s.written h ++ bytes)
  | _ => s.written

/-- A step of the service. -/
def serviceStep (e : ServiceEvent) : Option Session :=
  (s.service.step disp e).map fun service =>
    { s with service := service, rx := s.rxAfter e, written := s.writtenAfter e }

/-- The client of `h` becomes `c`. -/
def setClient (h : ℕ) (c : Client) : Session :=
  { s with client := Function.update s.client h (some c) }

/-- The client's end of the connection belongs to a command. -/
def Owned : ServiceEvent → Prop
  | .connect h | .write h _ | .close h => (s.client h).isSome
  | _ => False

instance (e : ServiceEvent) : Decidable (s.Owned e) := by
  unfold Owned
  split <;> infer_instance

/-- One turn of the loop of `send_all` in a command. -/
def sendTurn (h : ℕ) (c : Client) : IoResult → Option Session
  | .bytes n =>
    if 0 < n ∧ n ≤ c.tx.len then
      (s.serviceStep disp (.write h (c.tx.chunk n))).map fun t => t.setClient h (c.advance n)
    else none
  | .eintr => some s
  | .error => some (s.setClient h { c with tx := c.tx.fail, pc := .failed })

/-- One turn of the loop of `recv_all` in a command. -/
def recvTurn (h : ℕ) (c : Client) : IoResult → Option Session
  | .bytes 0 =>
    -- The end of the stream, once the handler or the supervisor is gone.
    if c.rx.p = (s.service.conn h).sent.length ∧
        ((s.service.engine.handler h).pc = .closed ∨ s.service.process ≠ .running) then
      some (s.setClient h { c with rx := c.rx.fail, pc := .failed })
    else none
  | .bytes n =>
    if n ≤ c.rx.len ∧ c.rx.p + n ≤ (s.service.conn h).sent.length then
      some (s.setClient h (c.store (((s.service.conn h).sent.drop c.rx.p).take n)))
    else none
  | .eintr => some s
  | .error => some (s.setClient h { c with rx := c.rx.fail, pc := .failed })

/-- What an event does. -/
def step : SessionEvent → Option Session
  | .service e => if s.Owned e then none else s.serviceStep disp e
  | .start h msg buf =>
    if s.client h = none ∧ (s.service.conn h).peer = .absent ∧ msg.length = REQUEST_SIZE ∧
        buf.length = RESPONSE_SIZE then
      (s.serviceStep disp (.connect h)).map fun t =>
        t.setClient h ⟨.start msg, .start buf, .sendAll⟩
    else none
  | .send h res =>
    (s.client h).bind fun c => if c.pc = .sendAll then s.sendTurn disp h c res else none
  | .recv h res =>
    (s.client h).bind fun c => if c.pc = .recvAll then s.recvTurn h c res else none
  | .print h =>
    (s.client h).bind fun c =>
      if c.pc = .answered then
        some (s.setClient h { c with pc := .printed (decodeString c.rx.buf 8) })
      else none
  | .close h =>
    (s.client h).bind fun c =>
      (s.serviceStep disp (.close h)).map fun t => t.setClient h c.close

end Session

/-! ## A handler and its connection -/

namespace Engine

variable {s s' : Engine} {e : Event} {h : ℕ}

/-- A handler moves by a step other than `recv_all` : it begins to receive, or it had its request
before. -/
theorem PcMove.served {pc pc' : Pc} (hm : PcMove h e pc pc') (hrecv : ∀ req, e ≠ .recv h req)
    (hhangup : e ≠ .hangup h) : pc = .absent ∧ pc' = .recv ∨
      pc ≠ .absent ∧ pc ≠ .recv ∧ pc ≠ .closed ∧ pc' ≠ .absent ∧ pc' ≠ .recv := by
  cases hm with
  | accept => exact Or.inl ⟨rfl, rfl⟩
  | recv req => exact absurd rfl (hrecv req)
  | hangup => exact absurd rfl hhangup
  | register i pid pc hpc =>
    rcases hpc with rfl | rfl <;> exact Or.inr ⟨nofun, nofun, nofun, nofun, nofun⟩
  | stopEnter pc hpc =>
    rcases hpc with rfl | ⟨i, pid, rfl⟩ <;> exact Or.inr ⟨nofun, nofun, nofun, nofun, nofun⟩
  | runEnter i pc pc' hpc hpc' =>
    rcases hpc with rfl | rfl <;> rcases hpc' with rfl | rfl <;>
      exact Or.inr ⟨nofun, nofun, nofun, nofun, nofun⟩
  | _ => exact Or.inr ⟨nofun, nofun, nofun, nofun, nofun⟩

/-- A handler that has begun to answer keeps its response. -/
theorem HandlerStep.resp_eq {hd : Handler} (hs : HandlerStep s e h hd)
    (hpc : (s.handler h).pc = .send ∨ (s.handler h).pc = .closed) :
    hd.resp = (s.handler h).resp ∧ (hd.pc = .send ∨ hd.pc = .closed) := by
  have hready : s.runReady h = none := by
    unfold runReady
    rcases hpc with hpc | hpc <;> rw [hpc]
  cases hs with
  | same => exact ⟨rfl, hpc⟩
  | move hd hm =>
    cases hm with
    | send hpc' => exact ⟨rfl, Or.inr rfl⟩
    | syscall pc hm => rcases hpc with hpc | hpc <;> rw [hpc] at hm <;> cases hm
    | refused text hpc' => rcases hpc with hpc | hpc <;> simp [hpc] at hpc'
    | _ => simp_all
  | _ => simp_all

/-- Over a whole run. -/
theorem resp_of_run {C : Engine → Event → Prop} (hr : Transition.Run Engine.step C s s')
    (hpc : (s.handler h).pc = .send) : (s'.handler h).resp = (s.handler h).resp := by
  have hkept : (s'.handler h).resp = (s.handler h).resp ∧
      ((s'.handler h).pc = .send ∨ (s'.handler h).pc = .closed) := by
    refine hr.invariant (I := fun t => (t.handler h).resp = (s.handler h).resp ∧
      ((t.handler h).pc = .send ∨ (t.handler h).pc = .closed)) ⟨rfl, Or.inl hpc⟩ ?_
    intro t e u ht _ hs
    obtain ⟨hresp, hpc'⟩ := (step_handler (step_effect hs) h).resp_eq ht.2
    exact ⟨hresp.trans ht.1, hpc'⟩
  exact hkept.1

theorem hangup_handler (hs : s.step (.hangup h) = some s') :
    s'.handler h = { s.handler h with pc := .closed } := by
  replace hs := (step_next hs).2
  simp only [next, handlerStep] at hs
  obtain ⟨-, hs⟩ := Option.ite_none_right_eq_some.mp hs
  cases hs
  exact Function.update_self _ _ _

theorem dispatch_ne (req : Request) : dispatch req ≠ .absent ∧ dispatch req ≠ .recv := by
  unfold dispatch
  split_ifs <;> exact ⟨nofun, nofun⟩

end Engine

/-- A handler with its connection, the loop of its `recv_all` and what its client has written. -/
structure Receives (c : Conn) (hd : Handler) (l : Loop UInt8) (written : List UInt8) : Prop where
  wire : c.received ++ c.inbox = written
  fills : l.Fills REQUEST_SIZE c.received
  waiting : hd.pc = .absent ∨ hd.pc = .recv → l.ret = none
  served : hd.pc ≠ .absent → hd.pc ≠ .recv →
    l.ret = some (-1) ∧ hd.pc = .closed ∨ l.ret = some 0 ∧ hd.req = decodeRequest c.received
  answer : c.sent <+: encodeResponse hd.resp
  answering : c.sent ≠ [] → hd.pc = .send ∨ hd.pc = .closed

namespace Receives

variable {c : Conn} {hd : Handler} {l : Loop UInt8} {written bytes : List UInt8} {s s' : Engine}
  {e : Event} {h n : ℕ}

/-- Other steps of the engine than those of `recv_all`. -/
theorem engine (hr : Receives c (s.handler h) l written) (hs : s.step e = some s')
    (hrecv : ∀ req, e ≠ .recv h req) (hhangup : e ≠ .hangup h) :
    Receives c (s'.handler h) l written := by
  have hstep := Engine.step_handler (Engine.step_effect hs) h
  have hreq := hstep.req_eq hrecv
  have hanswer : c.sent <+: encodeResponse (s'.handler h).resp ∧
      (c.sent ≠ [] → (s'.handler h).pc = .send ∨ (s'.handler h).pc = .closed) := by
    by_cases hsent : c.sent = []
    · rw [hsent]
      exact ⟨List.nil_prefix, fun h => absurd rfl h⟩
    · obtain ⟨hresp, hpc⟩ := hstep.resp_eq (hr.answering hsent)
      exact ⟨hresp ▸ hr.answer, fun _ => hpc⟩
  rcases Engine.step_pc hs h with hm | ⟨-, -, heq⟩
  · rcases hm.served hrecv hhangup with ⟨hpc, hpc'⟩ | ⟨hpc, hpc', hclosed, hne, hne'⟩
    · refine ⟨hr.wire, hr.fills, fun _ => hr.waiting (Or.inl hpc), fun _ hne => absurd hpc' hne,
        hanswer.1, hanswer.2⟩
    · refine ⟨hr.wire, hr.fills, fun h => (h.elim hne hne').elim, fun _ _ => Or.inr ?_,
        hanswer.1, hanswer.2⟩
      rw [hreq]
      exact (hr.served hpc hpc').resolve_left fun h => hclosed h.2
  · rw [heq]
    exact hr

theorem peer (hr : Receives c hd l written) (peer : Peer) :
    Receives { c with peer := peer } hd l written :=
  ⟨hr.wire, hr.fills, hr.waiting, hr.served, hr.answer, hr.answering⟩

theorem write (hr : Receives c hd l written) (bytes : List UInt8) :
    Receives { c with inbox := c.inbox ++ bytes } hd l (written ++ bytes) :=
  ⟨by rw [← List.append_assoc, hr.wire], hr.fills, hr.waiting, hr.served, hr.answer, hr.answering⟩

/-- A call of `recv`, for as long as the handler stays in `recv_all`. -/
theorem recv (hr : Receives c hd l written) (hpc : hd.pc = .recv) (hn : n ≤ c.inbox.length)
    (hsize : c.received.length + n < REQUEST_SIZE) :
    Receives { c with inbox := c.inbox.drop n, received := c.received ++ c.inbox.take n } hd
      (l.store (c.inbox.take n)) written := by
  have hret := hr.waiting (Or.inr hpc)
  have hlen : (c.inbox.take n).length = n := List.length_take_of_le hn
  have hrest := hr.fills.rest
  have hle : (c.inbox.take n).length ≤ l.len := by omega
  refine ⟨?_, hr.fills.store hret hle, fun _ => hr.fills.ret_store hret ?_,
    fun _ hne => absurd hpc hne, hr.answer, hr.answering⟩
  · rw [List.append_assoc, List.take_append_drop, hr.wire]
  · omega

/-- The call of `recv` that completes the request. -/
theorem recv_last (hr : Receives c (s.handler h) l written) (hpc : (s.handler h).pc = .recv)
    (hn : n ≤ c.inbox.length) (hsize : c.received.length + n = REQUEST_SIZE)
    (hs : s.step (.recv h (decodeRequest (c.received ++ c.inbox.take n))) = some s') :
    Receives { c with inbox := c.inbox.drop n, received := c.received ++ c.inbox.take n }
      (s'.handler h) (l.store (c.inbox.take n)) written := by
  obtain ⟨resp, hhandler⟩ := Engine.recv_handler hs
  have hlen : (c.inbox.take n).length = n := List.length_take_of_le hn
  have hrest := hr.fills.rest
  have hle : (c.inbox.take n).length ≤ l.len := by omega
  have hfills := hr.fills.store (hr.waiting (Or.inr hpc)) hle
  have hsent : c.sent = [] := by
    by_contra hne
    simpa [hpc] using hr.answering hne
  rw [hhandler]
  refine ⟨?_, hfills, fun h => ?_, fun _ _ => Or.inr ⟨hfills.ret_eq_zero_iff.mpr ?_, rfl⟩, ?_,
    fun hne => absurd hsent hne⟩
  · rw [List.append_assoc, List.take_append_drop, hr.wire]
  · exact (h.elim (Engine.dispatch_ne _).1 (Engine.dispatch_ne _).2).elim
  · rw [List.length_append]
    omega
  · change c.sent <+: _
    rw [hsent]
    exact List.nil_prefix

/-- `recv_all` fails. -/
theorem hangup (hr : Receives c (s.handler h) l written) (hpc : (s.handler h).pc = .recv)
    (hs : s.step (.hangup h) = some s') : Receives c (s'.handler h) l.fail written := by
  rw [Engine.hangup_handler hs]
  have hsent : c.sent = [] := by
    by_contra hne
    simpa [hpc] using hr.answering hne
  refine ⟨hr.wire, hr.fills.fail (hr.waiting (Or.inr hpc)), by simp,
    fun _ _ => Or.inl ⟨rfl, rfl⟩, ?_, fun hne => absurd hsent hne⟩
  exact hr.answer

/-- A call of `send`. -/
theorem send (hr : Receives c hd l written) (hpc : hd.pc = .send) (n : ℕ) :
    Receives { c with sent := c.sent ++ ((encodeResponse hd.resp).drop c.sent.length).take n } hd l
      written := by
  refine ⟨hr.wire, hr.fills, hr.waiting, hr.served, ?_, fun _ => Or.inl hpc⟩
  obtain ⟨rest, hrest⟩ := hr.answer
  rw [← hrest, List.drop_left]
  exact (List.prefix_append_right_inj _).mpr (List.take_prefix _ _)

end Receives

namespace Service

variable {disp : Signal → Disposition} {s t : Service} {rx : ℕ → Loop UInt8}
  {written : ℕ → List UInt8} {e : Event} {h : ℕ} {res : IoResult}

/-- Every handler is as its connection says. -/
def Receiving (rx : ℕ → Loop UInt8) (written : ℕ → List UInt8) (s : Service) : Prop :=
  ∀ h, Receives (s.conn h) (s.engine.handler h) (rx h) (written h)

theorem Receiving.engineStep (hr : s.Receiving rx written) (hs : s.engineStep e = some t)
    (hrecv : ∀ h req, e ≠ .recv h req) (hhangup : ∀ h, e ≠ .hangup h) :
    t.Receiving rx written := by
  obtain ⟨engine, heng, rfl⟩ := Option.map_eq_some_iff.mp hs
  exact fun g => (hr g).engine heng (hrecv g) (hhangup g)

theorem Receiving.raise {sig : Signal} (hr : s.Receiving rx written)
    (hs : s.raise disp sig = some t) : t.Receiving rx written := by
  unfold Service.raise at hs
  split at hs
  · cases hs
    exact hr
  · cases hs
    exact hr
  · have hr' : ({ s with signals := sig :: s.signals } : Service).Receiving rx written := hr
    exact hr'.engineStep hs nofun nofun

/-- A change to one connection, with its loop and what was written to it. -/
theorem Receiving.update {c : Conn} {l : Loop UInt8} {w : List UInt8}
    (hr : s.Receiving rx written) (hc : Receives c (s.engine.handler h) l w) :
    (s.setConn h c).Receiving (Function.update rx h l) (Function.update written h w) := by
  intro g
  rcases eq_or_ne g h with rfl | hne
  · simpa [setConn] using hc
  · simpa [setConn, hne] using hr g

theorem Receiving.peer (hr : s.Receiving rx written) (h : ℕ) (peer : Peer) :
    (s.setConn h { s.conn h with peer := peer }).Receiving rx written := by
  have hconn := hr.update ((hr h).peer peer)
  rwa [Function.update_eq_self, Function.update_eq_self] at hconn

theorem Receiving.sendStep (hr : s.Receiving rx written) (hs : s.sendStep disp h res = some t) :
    t.Receiving rx written := by
  obtain ⟨hpc, hs⟩ := Option.ite_none_right_eq_some.mp hs
  split_ifs at hs with hpeer
  · obtain ⟨u, hu, hs⟩ := Option.bind_eq_some_iff.mp hs
    split_ifs at hs
    · exact (hr.raise hu).engineStep hs nofun nofun
    · cases hs
      exact hr.raise hu
  · cases res with
    | bytes n =>
      obtain ⟨-, hs⟩ := Option.ite_none_right_eq_some.mp hs
      have hsent := hr.update ((hr h).send hpc n)
      rw [Function.update_eq_self, Function.update_eq_self] at hsent
      dsimp only at hs
      split_ifs at hs
      · exact hsent.engineStep hs nofun nofun
      · cases hs
        exact hsent
    | eintr =>
      cases hs
      exact hr
    | error => exact hr.engineStep hs nofun nofun

theorem Receiving.hangup (hr : s.Receiving rx written) (hpc : (s.engine.handler h).pc = .recv)
    (hs : s.engineStep (.hangup h) = some t) :
    t.Receiving (Function.update rx h (rx h).fail) written := by
  obtain ⟨engine, heng, rfl⟩ := Option.map_eq_some_iff.mp hs
  intro g
  rcases eq_or_ne g h with rfl | hne
  · rw [Function.update_self]
    exact (hr g).hangup hpc heng
  · rw [Function.update_of_ne hne]
    exact (hr g).engine heng nofun fun heq => hne (Event.hangup.inj heq).symm

theorem Receiving.recvBytes {n : ℕ} (hr : s.Receiving rx written) (hn : n ≠ 0)
    (hs : s.recvStep h (.bytes n) = some t) :
    t.Receiving (Function.update rx h ((rx h).store ((s.conn h).inbox.take n))) written := by
  obtain ⟨hpc, hs⟩ := Option.ite_none_right_eq_some.mp hs
  obtain ⟨n, rfl⟩ := Nat.exists_eq_succ_of_ne_zero hn
  obtain ⟨⟨hle, hsize⟩, hs⟩ := Option.ite_none_right_eq_some.mp hs
  have hlen : ((s.conn h).inbox.take (n + 1)).length = n + 1 := List.length_take_of_le hle
  dsimp only at hs
  rw [List.length_append, hlen] at hs
  split_ifs at hs with hlast
  · obtain ⟨engine, heng, rfl⟩ := Option.map_eq_some_iff.mp hs
    intro g
    rcases eq_or_ne g h with rfl | hne
    · simpa [setConn] using (hr g).recv_last hpc hle hlast heng
    · have hg := (hr g).engine heng (fun req heq => hne (Event.recv.inj heq).1.symm) nofun
      simpa [setConn, hne] using hg
  · cases hs
    have hconn := hr.update ((hr h).recv hpc hle (by omega))
    rwa [Function.update_eq_self h written] at hconn

end Service

namespace Session

variable {disp : Signal → Disposition} {s t : Session} {h : ℕ} {c : Client}

theorem receiving_serviceStep {e : ServiceEvent} (hr : s.service.Receiving s.rx s.written)
    (hs : s.serviceStep disp e = some t) : t.service.Receiving t.rx t.written := by
  obtain ⟨service, hstep, rfl⟩ := Option.map_eq_some_iff.mp hs
  replace hs := (Service.step_next hstep).2
  cases e with
  | kill term => exact hr.raise hs
  | engine e =>
    simp only [Service.next] at hs
    split_ifs at hs with he
    refine hr.engineStep hs ?_ ?_
    · rintro h req rfl
      exact he rfl
    · rintro h rfl
      exact he rfl
  | connect h | close h =>
    obtain ⟨-, hs⟩ := Option.ite_none_right_eq_some.mp hs
    cases hs
    exact hr.peer h _
  | write h bytes =>
    obtain ⟨-, hs⟩ := Option.ite_none_right_eq_some.mp hs
    cases hs
    have hconn := hr.update ((hr h).write bytes)
    rwa [Function.update_eq_self h s.rx] at hconn
  | accept h =>
    obtain ⟨-, hs⟩ := Option.ite_none_right_eq_some.mp hs
    exact hr.engineStep hs (by simp) (by simp)
  | recv h res =>
    change s.service.recvStep h res = some service at hs
    obtain ⟨hpc, hs'⟩ := Option.ite_none_right_eq_some.mp hs
    cases res with
    | bytes n =>
      cases n with
      | zero =>
        obtain ⟨-, hs'⟩ := Option.ite_none_right_eq_some.mp hs'
        exact hr.hangup hpc hs'
      | succ n => exact hr.recvBytes n.succ_ne_zero hs
    | eintr =>
      cases hs'
      exact hr
    | error => exact hr.hangup hpc hs'
  | send h res => exact hr.sendStep hs

end Session

/-! ## A command and its connection -/

namespace Service

variable {disp : Signal → Disposition} {s t : Service} {e : ServiceEvent} {h : ℕ}

/-- Everything a step can do to a connection. -/
inductive ConnStep (s : Service) (e : ServiceEvent) (h : ℕ) : Conn → Prop
  | same : ConnStep s e h (s.conn h)
  | peer (peer : Peer) : peer ≠ .absent → ConnStep s e h { s.conn h with peer := peer }
  | write (bytes : List UInt8) : e = .write h bytes → (s.conn h).peer = .connected →
      ConnStep s e h { s.conn h with inbox := (s.conn h).inbox ++ bytes }
  | recv (n : ℕ) : ConnStep s e h { s.conn h with
      inbox := (s.conn h).inbox.drop n
      received := (s.conn h).received ++ (s.conn h).inbox.take n }
  | send (bytes : List UInt8) : ConnStep s e h { s.conn h with sent := (s.conn h).sent ++ bytes }

theorem ConnStep.update {g : ℕ} {c : Conn} (hc : ConnStep s e g c) :
    ConnStep s e h ((s.setConn g c).conn h) := by
  rcases eq_or_ne h g with rfl | hne
  · simpa [setConn] using hc
  · simpa [setConn, hne] using ConnStep.same

theorem conn_engineStep {ev : Event} (hs : s.engineStep ev = some t) : t.conn = s.conn := by
  obtain ⟨engine, -, rfl⟩ := Option.map_eq_some_iff.mp hs
  rfl

theorem conn_raise {sig : Signal} (hs : s.raise disp sig = some t) : t.conn = s.conn := by
  unfold raise at hs
  split at hs
  · cases hs
    rfl
  · cases hs
    rfl
  · have hconn : t.conn = ({ s with signals := sig :: s.signals } : Service).conn :=
      conn_engineStep hs
    exact hconn

theorem step_conn (hs : step disp s e = some t) (h : ℕ) : ConnStep s e h (t.conn h) := by
  replace hs := (step_next hs).2
  cases e with
  | kill term => exact conn_raise hs ▸ .same
  | engine e =>
    simp only [next] at hs
    split_ifs at hs
    exact conn_engineStep hs ▸ .same
  | connect g | close g =>
    obtain ⟨-, hs⟩ := Option.ite_none_right_eq_some.mp hs
    cases hs
    exact ConnStep.update (.peer _ (by simp))
  | write g bytes =>
    obtain ⟨hpeer, hs⟩ := Option.ite_none_right_eq_some.mp hs
    cases hs
    exact ConnStep.update (.write bytes rfl hpeer)
  | accept g =>
    obtain ⟨-, hs⟩ := Option.ite_none_right_eq_some.mp hs
    exact conn_engineStep hs ▸ .same
  | recv g res =>
    obtain ⟨-, hs⟩ := Option.ite_none_right_eq_some.mp hs
    split at hs
    · obtain ⟨-, hs⟩ := Option.ite_none_right_eq_some.mp hs
      exact conn_engineStep hs ▸ .same
    · obtain ⟨-, hs⟩ := Option.ite_none_right_eq_some.mp hs
      dsimp only at hs
      split_ifs at hs
      · exact conn_engineStep hs ▸ ConnStep.update (.recv _)
      · cases hs
        exact ConnStep.update (.recv _)
    · cases hs
      exact .same
    · exact conn_engineStep hs ▸ .same
  | send g res =>
    obtain ⟨-, hs⟩ := Option.ite_none_right_eq_some.mp hs
    split_ifs at hs with hpeer
    · obtain ⟨u, hu, hs⟩ := Option.bind_eq_some_iff.mp hs
      split_ifs at hs
      · exact (conn_engineStep hs).trans (conn_raise hu) ▸ .same
      · cases hs
        exact conn_raise hu ▸ .same
    · split at hs
      · obtain ⟨-, hs⟩ := Option.ite_none_right_eq_some.mp hs
        dsimp only at hs
        split_ifs at hs
        · exact conn_engineStep hs ▸ ConnStep.update (.send _)
        · cases hs
          exact ConnStep.update (.send _)
      · cases hs
        exact .same
      · exact conn_engineStep hs ▸ .same

end Service

/-- A command with its connection and what it has written. -/
structure Client.Talks (c : Client) (conn : Conn) (written : List UInt8) : Prop where
  length : c.tx.buf.length = REQUEST_SIZE
  sends : c.tx.Sends c.tx.buf written
  fills : c.rx.Fills RESPONSE_SIZE (conn.sent.take c.rx.p)
  waiting : c.pc = .sendAll ∨ c.pc = .recvAll → c.rx.ret = none
  answered : c.pc = .answered → c.rx.ret = some 0
  printed : ∀ text, c.pc = .printed text → c.rx.ret = some 0 ∧ text = decodeString c.rx.buf 8

namespace Client.Talks

variable {c : Client} {conn conn' : Conn} {written : List UInt8} {n : ℕ}

theorem le_sent (ht : c.Talks conn written) : c.rx.p ≤ conn.sent.length := by
  have hp := ht.fills.p
  rw [List.length_take] at hp
  omega

/-- The handler sends more. -/
theorem mono (ht : c.Talks conn written) (hsent : conn.sent <+: conn'.sent) :
    c.Talks conn' written := by
  obtain ⟨rest, hrest⟩ := hsent
  refine ⟨ht.length, ht.sends, ?_, ht.waiting, ht.answered, ht.printed⟩
  rw [← hrest, List.take_append_of_le_length ht.le_sent]
  exact ht.fills

theorem advance (ht : c.Talks conn written) (hpc : c.pc = .sendAll) (hn : n ≤ c.tx.len) :
    (c.advance n).Talks conn (written ++ c.tx.chunk n) := by
  refine ⟨ht.length, ht.sends.advance hn, ht.fills, fun _ => ht.waiting (Or.inl hpc), ?_, ?_⟩
  · intro h
    simp only [Client.advance] at h
    split_ifs at h
  · intro text h
    simp only [Client.advance] at h
    split_ifs at h

theorem store (ht : c.Talks conn written) (hpc : c.pc = .recvAll) (hn : n ≤ c.rx.len)
    (hsent : c.rx.p + n ≤ conn.sent.length) :
    (c.store ((conn.sent.drop c.rx.p).take n)).Talks conn written := by
  have hret := ht.waiting (Or.inr hpc)
  have hlen : ((conn.sent.drop c.rx.p).take n).length = n := by
    rw [List.length_take, List.length_drop]
    omega
  have hle : ((conn.sent.drop c.rx.p).take n).length ≤ c.rx.len := by omega
  have hfills := ht.fills.store hret hle
  rw [← List.take_add] at hfills
  refine ⟨ht.length, ht.sends, ?_, fun h => ?_, fun h => ?_, fun text h => ?_⟩
  · change (c.rx.store _).Fills RESPONSE_SIZE (conn.sent.take (c.rx.p + _))
    rwa [hlen]
  · simp only [Client.store] at h ⊢
    split_ifs at h with h0
    · simp at h
    · exact (Loop.ret_store hret).resolve_right h0
  · simp only [Client.store] at h ⊢
    split_ifs at h with h0
    exact h0
  · simp only [Client.store] at h
    split_ifs at h

/-- `recv_all` or `send_all` fails. -/
theorem fail {c' : Client} (ht : c.Talks conn written) (hpc : c'.pc = .failed)
    (hlength : c'.tx.buf = c.tx.buf) (hsends : c'.tx.Sends c.tx.buf written)
    (hfills : c'.rx.Fills RESPONSE_SIZE (conn.sent.take c'.rx.p)) : c'.Talks conn written :=
  ⟨hlength ▸ ht.length, hlength ▸ hsends, hfills, by simp [hpc], by simp [hpc], by simp [hpc]⟩

theorem print (ht : c.Talks conn written) (hpc : c.pc = .answered) :
    ({ c with pc := .printed (decodeString c.rx.buf 8) } : Client).Talks conn written := by
  refine ⟨ht.length, ht.sends, ht.fills, by simp, nofun, fun text h => ?_⟩
  exact ⟨ht.answered hpc, (ClientPc.printed.inj h).symm⟩

theorem close (ht : c.Talks conn written) : c.close.Talks conn written := by
  by_cases hpc : c.pc = .sendAll ∨ c.pc = .recvAll
  · exact ht.fail (if_pos hpc) rfl ht.sends ht.fills
  · have hclose : c.close = c := by
      rw [Client.close, if_neg hpc]
    rwa [hclose]

end Client.Talks

namespace Session

/-- Every handler and every command is as its connection says. -/
structure Inv (s : Session) : Prop where
  receiving : s.service.Receiving s.rx s.written
  talks : ∀ h c, s.client h = some c → c.Talks (s.service.conn h) (s.written h)
  fresh : ∀ h, (s.service.conn h).peer = .absent → s.written h = []

variable {disp : Signal → Disposition} {s t : Session} {h : ℕ} {c : Client} {e : ServiceEvent}

theorem written_serviceStep (hs : s.serviceStep disp e = some t)
    (he : ∀ bytes, e ≠ .write h bytes) : t.written h = s.written h := by
  obtain ⟨service, -, rfl⟩ := Option.map_eq_some_iff.mp hs
  cases e with
  | write g bytes =>
    have hne : h ≠ g := by
      rintro rfl
      exact he bytes rfl
    exact Function.update_of_ne hne _ _
  | _ => rfl

theorem conn_serviceStep (hs : s.serviceStep disp e = some t) (h : ℕ) :
    s.service.ConnStep e h (t.service.conn h) := by
  obtain ⟨service, hstep, rfl⟩ := Option.map_eq_some_iff.mp hs
  exact Service.step_conn hstep h

theorem sent_serviceStep (hs : s.serviceStep disp e = some t) (h : ℕ) :
    (s.service.conn h).sent <+: (t.service.conn h).sent := by
  have hconn := conn_serviceStep hs h
  generalize t.service.conn h = c at hconn ⊢
  cases hconn with
  | send bytes => exact List.prefix_append _ _
  | _ => exact List.prefix_refl _

theorem client_serviceStep (hs : s.serviceStep disp e = some t) : t.client = s.client := by
  obtain ⟨service, -, rfl⟩ := Option.map_eq_some_iff.mp hs
  rfl

theorem fresh_serviceStep (hfresh : ∀ h, (s.service.conn h).peer = .absent → s.written h = [])
    (hs : s.serviceStep disp e = some t) (h : ℕ) (hpeer : (t.service.conn h).peer = .absent) :
    t.written h = [] := by
  have hconn := conn_serviceStep hs h
  have hpeer' : (s.service.conn h).peer = .absent := by
    generalize t.service.conn h = c at hconn hpeer
    cases hconn with
    | peer p hp => exact absurd hpeer hp
    | _ => exact hpeer
  rw [written_serviceStep hs, hfresh h hpeer']
  rintro bytes rfl
  obtain ⟨service, hstep, -⟩ := Option.map_eq_some_iff.mp hs
  obtain ⟨hconnected, -⟩ := Option.ite_none_right_eq_some.mp (Service.step_next hstep).2
  simp [hpeer'] at hconnected

/-- A step of the service that does not write for the command keeps it as its connection says. -/
theorem talks_serviceStep (ht : c.Talks (s.service.conn h) (s.written h))
    (hs : s.serviceStep disp e = some t) (he : ∀ bytes, e ≠ .write h bytes) :
    c.Talks (t.service.conn h) (t.written h) := by
  rw [written_serviceStep hs he]
  exact ht.mono (sent_serviceStep hs h)

theorem Inv.setClient (hi : Inv s) (hc : c.Talks (s.service.conn h) (s.written h)) :
    Inv (s.setClient h c) := by
  refine ⟨hi.receiving, fun g c' hg => ?_, hi.fresh⟩
  change Function.update s.client h (some c) g = some c' at hg
  rcases eq_or_ne g h with rfl | hne
  · rw [Function.update_self] at hg
    exact Option.some.inj hg ▸ hc
  · rw [Function.update_of_ne hne] at hg
    exact hi.talks g c' hg

/-- A step of the service for the command at `h`, which goes on as `c`. -/
theorem Inv.serviceClient (hi : Inv s) (hs : s.serviceStep disp e = some t)
    (he : ∀ g, g ≠ h → ∀ bytes, e ≠ .write g bytes)
    (hc : c.Talks (t.service.conn h) (t.written h)) : Inv (t.setClient h c) := by
  have hreceiving := receiving_serviceStep hi.receiving hs
  have hfresh := fresh_serviceStep hi.fresh hs
  have htalks : ∀ g c', g ≠ h → s.client g = some c' →
      c'.Talks (t.service.conn g) (t.written g) :=
    fun g c' hne hg => talks_serviceStep (hi.talks g c' hg) hs (he g hne)
  refine ⟨hreceiving, fun g c' hg => ?_, hfresh⟩
  change Function.update t.client h (some c) g = some c' at hg
  rcases eq_or_ne g h with rfl | hne
  · rw [Function.update_self] at hg
    exact Option.some.inj hg ▸ hc
  · rw [Function.update_of_ne hne, client_serviceStep hs] at hg
    exact htalks g c' hne hg

theorem Inv.sendTurn {res : IoResult} (hi : Inv s) (hc : s.client h = some c)
    (hpc : c.pc = .sendAll) (hs : s.sendTurn disp h c res = some t) : Inv t := by
  have ht := hi.talks h c hc
  cases res with
  | bytes n =>
    obtain ⟨⟨-, hn⟩, hs⟩ := Option.ite_none_right_eq_some.mp hs
    obtain ⟨u, hu, rfl⟩ := Option.map_eq_some_iff.mp hs
    refine hi.serviceClient hu (fun g hne bytes heq => hne (ServiceEvent.write.inj heq).1.symm) ?_
    have hwritten : u.written h = s.written h ++ c.tx.chunk n := by
      obtain ⟨service, -, rfl⟩ := Option.map_eq_some_iff.mp hu
      exact Function.update_self _ _ _
    rw [hwritten]
    exact (ht.advance hpc hn).mono (sent_serviceStep hu h)
  | eintr =>
    cases hs
    exact hi
  | error =>
    cases hs
    exact hi.setClient (ht.fail rfl rfl ht.sends.fail ht.fills)

theorem Inv.recvTurn {res : IoResult} (hi : Inv s) (hc : s.client h = some c)
    (hpc : c.pc = .recvAll) (hs : s.recvTurn h c res = some t) : Inv t := by
  have ht := hi.talks h c hc
  have hfail : Inv (s.setClient h { c with rx := c.rx.fail, pc := .failed }) :=
    hi.setClient (ht.fail rfl rfl ht.sends (ht.fills.fail (ht.waiting (Or.inr hpc))))
  unfold Session.recvTurn at hs
  split at hs
  · obtain ⟨-, hs⟩ := Option.ite_none_right_eq_some.mp hs
    cases hs
    exact hfail
  · obtain ⟨⟨hn, hle⟩, hs⟩ := Option.ite_none_right_eq_some.mp hs
    cases hs
    exact hi.setClient (ht.store hpc hn hle)
  · cases hs
    exact hi
  · cases hs
    exact hfail

theorem Inv.step {e : SessionEvent} (hi : Inv s) (hs : s.step disp e = some t) : Inv t := by
  cases e with
  | service e =>
    simp only [Session.step] at hs
    split_ifs at hs with howned
    refine ⟨receiving_serviceStep hi.receiving hs, fun h c hc => ?_, fresh_serviceStep hi.fresh hs⟩
    rw [client_serviceStep hs] at hc
    refine talks_serviceStep (hi.talks h c hc) hs ?_
    rintro bytes rfl
    exact howned (Option.isSome_iff_exists.mpr ⟨c, hc⟩)
  | start h msg buf =>
    obtain ⟨⟨-, hpeer, hmsg, hbuf⟩, hs⟩ := Option.ite_none_right_eq_some.mp hs
    obtain ⟨u, hu, rfl⟩ := Option.map_eq_some_iff.mp hs
    refine hi.serviceClient hu (fun g hne => nofun) ?_
    rw [written_serviceStep hu nofun, hi.fresh h hpeer]
    have hpos : 0 < buf.length := by
      rw [hbuf]
      decide
    exact ⟨hmsg, Loop.sends_start, hbuf ▸ Loop.fills_start, fun _ => Loop.ret_start hpos, nofun,
      nofun⟩
  | send h res =>
    obtain ⟨c, hc, hs⟩ := Option.bind_eq_some_iff.mp hs
    obtain ⟨hpc, hs⟩ := Option.ite_none_right_eq_some.mp hs
    exact hi.sendTurn hc hpc hs
  | recv h res =>
    obtain ⟨c, hc, hs⟩ := Option.bind_eq_some_iff.mp hs
    obtain ⟨hpc, hs⟩ := Option.ite_none_right_eq_some.mp hs
    exact hi.recvTurn hc hpc hs
  | print h =>
    obtain ⟨c, hc, hs⟩ := Option.bind_eq_some_iff.mp hs
    obtain ⟨hpc, hs⟩ := Option.ite_none_right_eq_some.mp hs
    cases hs
    exact hi.setClient ((hi.talks h c hc).print hpc)
  | close h =>
    obtain ⟨c, hc, hs⟩ := Option.bind_eq_some_iff.mp hs
    obtain ⟨u, hu, rfl⟩ := Option.map_eq_some_iff.mp hs
    refine hi.serviceClient hu (fun g hne => nofun) ?_
    exact (talks_serviceStep (hi.talks h c hc) hu nofun).close

theorem inv_init (junk : ℕ → Fin REQUEST_SIZE → UInt8) : Inv (init junk) where
  receiving h := by
    have hlength : (List.ofFn (junk h)).length = REQUEST_SIZE := List.length_ofFn
    have hpos : 0 < (List.ofFn (junk h)).length := by
      rw [hlength]
      decide
    exact ⟨rfl, hlength ▸ Loop.fills_start, fun _ => Loop.ret_start hpos,
      fun hne => absurd rfl hne, List.nil_prefix, fun hne => absurd rfl hne⟩
  talks h c hc := by cases hc
  fresh _ _ := rfl

theorem Inv.of_run {C : Session → SessionEvent → Prop} {junk : ℕ → Fin REQUEST_SIZE → UInt8}
    (hr : Transition.Run (Session.step disp) C (init junk) s) : Inv s :=
  hr.invariant (inv_init junk) fun _ _ _ ht _ hs => ht.step hs

/-! ## The engine of a session -/

theorem service_serviceStep {e : ServiceEvent} (hs : s.serviceStep disp e = some t) :
    s.service.step disp e = some t.service := by
  obtain ⟨service, hstep, rfl⟩ := Option.map_eq_some_iff.mp hs
  exact hstep

/-- A command takes a step of the service, or reads what is there. -/
theorem step_service {e : SessionEvent} (hs : s.step disp e = some t) :
    t.service = s.service ∨ ∃ e', s.service.step disp e' = some t.service := by
  cases e with
  | service e =>
    simp only [Session.step] at hs
    split_ifs at hs
    exact Or.inr ⟨e, service_serviceStep hs⟩
  | start g msg buf =>
    obtain ⟨-, hs⟩ := Option.ite_none_right_eq_some.mp hs
    obtain ⟨u, hu, rfl⟩ := Option.map_eq_some_iff.mp hs
    have hservice := service_serviceStep hu
    exact Or.inr ⟨.connect g, hservice⟩
  | send g res =>
    obtain ⟨c, -, hs⟩ := Option.bind_eq_some_iff.mp hs
    obtain ⟨-, hs⟩ := Option.ite_none_right_eq_some.mp hs
    cases res with
    | bytes n =>
      obtain ⟨-, hs⟩ := Option.ite_none_right_eq_some.mp hs
      obtain ⟨u, hu, rfl⟩ := Option.map_eq_some_iff.mp hs
      have hservice := service_serviceStep hu
      exact Or.inr ⟨.write g (c.tx.chunk n), hservice⟩
    | eintr | error =>
      cases hs
      exact Or.inl rfl
  | recv g res =>
    obtain ⟨c, -, hs⟩ := Option.bind_eq_some_iff.mp hs
    obtain ⟨-, hs⟩ := Option.ite_none_right_eq_some.mp hs
    unfold recvTurn at hs
    split at hs
    all_goals try split_ifs at hs
    all_goals cases hs
    all_goals exact Or.inl rfl
  | print g =>
    obtain ⟨c, -, hs⟩ := Option.bind_eq_some_iff.mp hs
    obtain ⟨-, hs⟩ := Option.ite_none_right_eq_some.mp hs
    cases hs
    exact Or.inl rfl
  | close g =>
    obtain ⟨c, -, hs⟩ := Option.bind_eq_some_iff.mp hs
    obtain ⟨u, hu, rfl⟩ := Option.map_eq_some_iff.mp hs
    have hservice := service_serviceStep hu
    exact Or.inr ⟨.close g, hservice⟩

/-- The commands change nothing about how the engine runs. -/
theorem engine_run {C : Session → SessionEvent → Prop} (hr : Transition.Run (step disp) C s t) :
    Transition.Run Engine.step Transition.Always s.service.engine t.service.engine := by
  have hservice : Transition.Run (Service.step disp) Transition.Always s.service t.service :=
    hr.map Session.service fun _ _ _ _ _ hs =>
      (step_service hs).imp_right fun ⟨e, hstep⟩ => ⟨e, trivial, hstep⟩
  exact Service.engine_run hservice

/-! ## Exact framing -/

/-- The handler has left `recv_all` without a request, or with the first bytes that its client has
written. -/
theorem Inv.dispatched (hi : Inv s) (habsent : (s.service.engine.handler h).pc ≠ .absent)
    (hrecv : (s.service.engine.handler h).pc ≠ .recv) :
    (s.rx h).ret = some (-1) ∧ (s.service.engine.handler h).pc = .closed ∨
      (s.rx h).ret = some 0 ∧ (s.rx h).buf.length = REQUEST_SIZE ∧
        (s.rx h).buf <+: s.written h ∧ s.service.engine.req h = decodeRequest (s.rx h).buf := by
  have hr := hi.receiving h
  refine (hr.served habsent hrecv).imp_right fun ⟨hret, hreq⟩ => ?_
  rw [hr.fills.buf_eq hret]
  exact ⟨hret, hr.fills.ret_eq_zero_iff.mp hret, hr.wire ▸ List.prefix_append _ _, hreq⟩

/-- A command that prints has received the first bytes that the handler has sent. -/
theorem Inv.answered (hi : Inv s) (hc : s.client h = some c)
    (hpc : c.pc = .answered ∨ ∃ text, c.pc = .printed text) :
    c.rx.ret = some 0 ∧ c.rx.buf.length = RESPONSE_SIZE ∧
      c.rx.buf <+: encodeResponse (s.service.engine.handler h).resp := by
  have ht := hi.talks h c hc
  have hret : c.rx.ret = some 0 := by
    rcases hpc with hpc | ⟨text, hpc⟩
    · exact ht.answered hpc
    · exact (ht.printed text hpc).1
  rw [ht.fills.buf_eq hret]
  exact ⟨hret, ht.fills.ret_eq_zero_iff.mp hret,
    (List.take_prefix _ _).trans (hi.receiving h).answer⟩

/-- The message of a command is what its handler serves. -/
theorem Inv.request_sent (hi : Inv s) (hc : s.client h = some c)
    (hlength : (s.rx h).buf.length = REQUEST_SIZE) (hpre : (s.rx h).buf <+: s.written h) :
    (s.rx h).buf = c.tx.buf := by
  have ht := hi.talks h c hc
  exact (hpre.trans ht.sends.isPrefix).eq_of_length (hlength.trans ht.length.symm)

/-- A command asks for the list of containers. -/
def playCommand : List SessionEvent :=
  [.start 0 ([3, 0, 0, 0] ++ List.replicate 556 0) (List.replicate RESPONSE_SIZE 0),
    .send 0 (.bytes 1), .service (.engine .loopTest), .service (.accept 0),
    .service (.recv 0 (.bytes 1)), .send 0 .eintr, .send 0 (.bytes 559),
    .service (.recv 0 .eintr), .service (.recv 0 (.bytes 559)),
    .service (.engine (.read 0 (setResponse true 0 (cstr "none")))),
    .service (.send 0 (.bytes 5000)), .recv 0 (.bytes 10), .service (.send 0 (.bytes 3200)),
    .recv 0 .eintr, .recv 0 (.bytes 8190), .print 0]

end Session

end Jackfruit
