import Jackfruit.Answers
import Jackfruit.LogsOutput
import Jackfruit.PsOutput

/-!
# What the exit status of a command says

`main` prints the message of its response and makes its exit status of `ok` and `exit_code`. With
the framing of the socket (`Session.framing_exact`) and what the answers say about the supervisor
(`Engine.Reply`), the exit status of a command is a statement about the supervisor it has talked to
(`Session.exit_status_reports`) : `start` exits with 0 if and only if its container is in the table,
with a child of its own and the record of its request, and the text tells its pid; `run` exits with
the exit code that the record of its own container had when `run` looked at it, after the container
had ended; `stop` exits with 0 only if a signal was sent, to the recorded child of the container
that it names or to the `-1` of one with its id that was STARTING when the stop looked.
-/

set_option linter.unusedSectionVars false

namespace Jackfruit

/-- The bytes of a `response_t` as `main` reads them. -/
def decodeResponse (msg : List UInt8) : Response where
  ok := decodeInt msg 0 ≠ 0
  exitCode := decodeInt msg 4
  message := decodeString msg 8

/-- The exit status of a command that has printed its response. -/
def Client.status (c : Client) : ℤ :=
  exitStatus (clientMain (decodeRequest c.tx.buf) (decodeResponse c.rx.buf))

/-! ## The bytes of a response -/

theorem decodeInt_take {msg : List UInt8} {offset n : ℕ} (h : offset + 4 ≤ n) :
    decodeInt (msg.take n) offset = decodeInt msg offset := by
  rw [decodeInt, decodeInt, List.drop_take, List.take_take, min_eq_left (by omega)]

theorem length_encodeResponse {resp : Response} (h : resp.message.length ≤ RESPONSE_MSG_LEN) :
    (encodeResponse resp).length = RESPONSE_SIZE := by
  simp only [encodeResponse, List.length_append, length_encodeInt, List.length_replicate,
    RESPONSE_SIZE]
  omega

/-- `ok` comes back from the first bytes of a response. -/
theorem decodeResponse_ok {buf : List UInt8} {resp : Response}
    (hpre : buf <+: encodeResponse resp) (hlen : buf.length = RESPONSE_SIZE) :
    (decodeResponse buf).ok = resp.ok := by
  have hok : IsInt (if resp.ok then 1 else 0) := by
    split_ifs <;> decide
  have hfirst : decodeInt (encodeResponse resp) 0 = if resp.ok then 1 else 0 := by
    have happend := decodeInt_append (encodeInt resp.exitCode ++
      (resp.message ++ List.replicate (RESPONSE_MSG_LEN - resp.message.length) 0)) hok
      (List.length_nil : ([] : List UInt8).length = 0)
    rw [encodeResponse, List.append_assoc]
    exact happend
  rw [List.prefix_iff_eq_take.mp hpre, hlen]
  change decide (decodeInt _ 0 ≠ 0) = _
  rw [decodeInt_take (by decide), hfirst]
  cases resp.ok <;> rfl

/-- And `exit_code`. -/
theorem decodeResponse_exitCode {buf : List UInt8} {resp : Response} (hcode : IsInt resp.exitCode)
    (hpre : buf <+: encodeResponse resp) (hlen : buf.length = RESPONSE_SIZE) :
    (decodeResponse buf).exitCode = resp.exitCode := by
  have hsecond : decodeInt (encodeResponse resp) 4 = resp.exitCode := by
    rw [encodeResponse, List.append_assoc]
    exact decodeInt_append _ hcode length_encodeInt
  rw [List.prefix_iff_eq_take.mp hpre, hlen]
  exact (decodeInt_take (by decide)).trans hsecond

/-- A message of C strings comes back whole. -/
theorem decodeString_encodeResponse {resp : Response} (hnul : resp.message.NulFree)
    (hlen : resp.message.length < RESPONSE_MSG_LEN) :
    decodeString (encodeResponse resp) 8 = resp.message := by
  have hpre : (encodeInt (if resp.ok then 1 else 0) ++ encodeInt resp.exitCode).length = 8 := by
    simp
  have happend := decodeString_append [] hnul hlen hpre
  rw [List.append_nil] at happend
  exact happend

/-- An answer made of a C string is a C string that fits the message. -/
theorem fits_setResponse {message : CStr} (h : message.NulFree) (ok : Bool) (exitCode : ℤ) :
    (setResponse ok exitCode message).message.NulFree ∧
      (setResponse ok exitCode message).message.length < RESPONSE_MSG_LEN :=
  ⟨h.take _, length_snprintf_lt _ (by decide)⟩

variable {req : Request}

theorem fits_startedResponse (hid : req.id.NulFree) (pid : ℤ) :
    (startedResponse req pid).message.NulFree ∧
      (startedResponse req pid).message.length < RESPONSE_MSG_LEN := by
  refine fits_setResponse ?_ true 0
  simp only [CStr.nulFree_append]
  exact ⟨⟨⟨⟨by decide, hid⟩, by decide⟩, nulFree_decimal _⟩, by decide⟩

theorem fits_stoppedResponse (hid : req.id.NulFree) (pid : ℤ) :
    (stoppedResponse req pid).message.NulFree ∧
      (stoppedResponse req pid).message.length < RESPONSE_MSG_LEN := by
  refine fits_setResponse ?_ true 0
  simp only [CStr.nulFree_append]
  exact ⟨⟨⟨⟨by decide, hid⟩, by decide⟩, nulFree_decimal _⟩, by decide⟩

theorem fits_runResponse (hid : req.id.NulFree) (c : Container) :
    (Engine.runResponse req c).message.NulFree ∧
      (Engine.runResponse req c).message.length < RESPONSE_MSG_LEN := by
  refine fits_setResponse ?_ true c.exitCode
  simp only [CStr.nulFree_append]
  exact ⟨⟨⟨⟨⟨by decide, hid⟩, by decide⟩, c.state.text_fits.2⟩, by decide⟩, nulFree_decimal _⟩

/-! ## The end of `main` -/

theorem clientMain_eq_zero {resp : Response} (hok : resp.ok = true)
    (htype : req.type ≠ REQ_RUN) : clientMain req resp = 0 := by
  rw [clientMain, if_neg (by simp [hok]), if_neg fun h => htype h.1]

/-- A `run` exits with the code in the answer. -/
theorem clientMain_run {resp : Response} (hok : resp.ok = true)
    (htype : req.type = REQ_RUN) (hlo : 0 ≤ resp.exitCode) (hhi : resp.exitCode < 256) :
    exitStatus (clientMain req resp) = resp.exitCode := by
  rw [clientMain, if_neg (by simp [hok]), if_pos ⟨htype, hlo⟩, exitStatus,
    Int.emod_eq_of_lt hlo hhi]

/-! ## Who has sent something -/

namespace Service

variable {disp : Signal → Disposition} {s t : Service} {e : ServiceEvent} {g h : ℕ}

theorem sent_setConn {c : Conn} (hc : c.sent = (s.conn g).sent) (h : ℕ) :
    ((s.setConn g c).conn h).sent = (s.conn h).sent := by
  rcases eq_or_ne h g with rfl | hne
  · simpa [setConn] using hc
  · simp [setConn, hne]

/-- Only a handler that has its response sends. -/
theorem sent_step (hs : step disp s e = some t) (h : ℕ) :
    (t.conn h).sent = (s.conn h).sent ∨ (s.engine.handler h).pc = .send := by
  replace hs := (step_next hs).2
  cases e with
  | kill term => exact Or.inl (congrArg (fun f => (f h).sent) (conn_raise hs))
  | engine e =>
    simp only [next] at hs
    split_ifs at hs
    exact Or.inl (congrArg (fun f => (f h).sent) (conn_engineStep hs))
  | connect g | close g | write g bytes =>
    obtain ⟨-, hs⟩ := Option.ite_none_right_eq_some.mp hs
    cases hs
    exact Or.inl (sent_setConn (by rfl) h)
  | accept g =>
    obtain ⟨-, hs⟩ := Option.ite_none_right_eq_some.mp hs
    exact Or.inl (congrArg (fun f => (f h).sent) (conn_engineStep hs))
  | recv g res =>
    obtain ⟨-, hs⟩ := Option.ite_none_right_eq_some.mp hs
    refine Or.inl ?_
    split at hs
    · obtain ⟨-, hs⟩ := Option.ite_none_right_eq_some.mp hs
      rw [conn_engineStep hs]
    · obtain ⟨-, hs⟩ := Option.ite_none_right_eq_some.mp hs
      dsimp only at hs
      split_ifs at hs
      · rw [conn_engineStep hs]
        exact sent_setConn (by rfl) h
      · cases hs
        exact sent_setConn (by rfl) h
    · cases hs
      rfl
    · rw [conn_engineStep hs]
  | send g res =>
    obtain ⟨hpc, hs⟩ := Option.ite_none_right_eq_some.mp hs
    rcases eq_or_ne h g with rfl | hne
    · exact Or.inr hpc
    have hother (c : Conn) : ((s.setConn g c).conn h).sent = (s.conn h).sent := by
      simp [setConn, hne]
    refine Or.inl ?_
    split_ifs at hs with hpeer
    · obtain ⟨u, hu, hs⟩ := Option.bind_eq_some_iff.mp hs
      split_ifs at hs
      · rw [conn_engineStep hs, conn_raise hu]
      · cases hs
        rw [conn_raise hu]
    · split at hs
      · obtain ⟨-, hs⟩ := Option.ite_none_right_eq_some.mp hs
        dsimp only at hs
        split_ifs at hs
        · rw [conn_engineStep hs]
          exact hother _
        · cases hs
          exact hother _
      · cases hs
        rfl
      · rw [conn_engineStep hs]

end Service

/-- The slot `i` holds the container that the start of `h` has started for this request : it
records the request and the pid of the child that `h` has cloned. -/
structure Engine.Hosts (s : Engine) (h : ℕ) (req : Request) (i : Slot) (c : Child) : Prop where
  started : s.started h = some i
  settled : s.Settled i h
  records : (s.table i).Records req
  child : s.child h = some c
  pid : (s.table i).pid = c.pid

theorem Engine.hosts_of_started {s : Engine} {h : ℕ} {i : Slot} (hr : s.Reachable)
    (hi : s.started h = some i) : ∃ c, s.Hosts h (s.req h) i c := by
  have w := Engine.Wf.of_run hr
  have hset := w.started h i hi
  obtain ⟨-, c, hc, hpid⟩ := w.of_settled hset
  exact ⟨c, hi, hset, Engine.records_of_run hr i h hset.1, hc, hpid.symm⟩

namespace Session

variable {disp : Signal → Disposition} {s t : Session} {e : ServiceEvent} {h : ℕ} {c : Client}
  {text : CStr}

/-- Only `recv_all` moves the loop of a handler. -/
theorem rx_serviceStep (hs : s.serviceStep disp e = some t) (h : ℕ) :
    t.rx h = s.rx h ∨ (s.service.engine.handler h).pc = .recv := by
  have hstep := (Service.step_next (service_serviceStep hs)).2
  obtain ⟨service, -, rfl⟩ := Option.map_eq_some_iff.mp hs
  cases e with
  | recv g res =>
    rcases eq_or_ne h g with rfl | hne
    · exact Or.inr (Option.ite_none_right_eq_some.mp hstep).1
    · refine Or.inl ?_
      change s.rxAfter _ h = s.rx h
      cases res with
      | bytes n => cases n <;> exact Function.update_of_ne hne _ _
      | eintr => rfl
      | error => exact Function.update_of_ne hne _ _
  | _ => exact Or.inl rfl

/-- A handler that has sent something has received its request. -/
def Served (s : Session) : Prop :=
  ∀ h, (s.service.conn h).sent ≠ [] → (s.rx h).ret = some 0

theorem Served.serviceStep (hv : Served s) (hi : Inv s) (hs : s.serviceStep disp e = some t) :
    Served t := by
  intro h hsent
  have hr := hi.receiving h
  have hpc : (s.service.engine.handler h).pc = .send ∨ (s.service.engine.handler h).pc = .closed ∧
      (s.service.conn h).sent ≠ [] := by
    rcases Service.sent_step (service_serviceStep hs) h with hold | hpc
    · rw [hold] at hsent
      exact (hr.answering hsent).imp_right fun hpc => ⟨hpc, hsent⟩
    · exact Or.inl hpc
  rcases rx_serviceStep hs h with heq | hrecv
  · rw [heq]
    rcases hpc with hpc | ⟨-, hne⟩
    · have hserved := hr.served (by simp [hpc]) (by simp [hpc])
      exact (hserved.resolve_left fun h => by simp [hpc] at h).1
    · exact hv h hne
  · simp [hrecv] at hpc

/-- A command takes a step of the service, or moves only itself. -/
theorem step_cases {e : SessionEvent} (hs : s.step disp e = some t) :
    t.service = s.service ∧ t.rx = s.rx ∨
      ∃ e' u, s.serviceStep disp e' = some u ∧ t.service = u.service ∧ t.rx = u.rx := by
  cases e with
  | service e =>
    simp only [Session.step] at hs
    split_ifs at hs
    exact Or.inr ⟨e, t, hs, rfl, rfl⟩
  | start g msg buf =>
    obtain ⟨-, hs⟩ := Option.ite_none_right_eq_some.mp hs
    obtain ⟨u, hu, rfl⟩ := Option.map_eq_some_iff.mp hs
    exact Or.inr ⟨_, u, hu, rfl, rfl⟩
  | send g res =>
    obtain ⟨c, -, hs⟩ := Option.bind_eq_some_iff.mp hs
    obtain ⟨-, hs⟩ := Option.ite_none_right_eq_some.mp hs
    cases res with
    | bytes n =>
      obtain ⟨-, hs⟩ := Option.ite_none_right_eq_some.mp hs
      obtain ⟨u, hu, rfl⟩ := Option.map_eq_some_iff.mp hs
      exact Or.inr ⟨_, u, hu, rfl, rfl⟩
    | eintr | error =>
      cases hs
      exact Or.inl ⟨rfl, rfl⟩
  | recv g res =>
    obtain ⟨c, -, hs⟩ := Option.bind_eq_some_iff.mp hs
    obtain ⟨-, hs⟩ := Option.ite_none_right_eq_some.mp hs
    unfold recvTurn at hs
    split at hs
    all_goals try split_ifs at hs
    all_goals cases hs
    all_goals exact Or.inl ⟨rfl, rfl⟩
  | print g =>
    obtain ⟨c, -, hs⟩ := Option.bind_eq_some_iff.mp hs
    obtain ⟨-, hs⟩ := Option.ite_none_right_eq_some.mp hs
    cases hs
    exact Or.inl ⟨rfl, rfl⟩
  | close g =>
    obtain ⟨c, -, hs⟩ := Option.bind_eq_some_iff.mp hs
    obtain ⟨u, hu, rfl⟩ := Option.map_eq_some_iff.mp hs
    exact Or.inr ⟨_, u, hu, rfl, rfl⟩

theorem Served.of_run {junk : ℕ → Fin REQUEST_SIZE → UInt8}
    (hr : Transition.Run (Session.step disp) Transition.Always (init junk) s) : Served s := by
  refine hr.invariant_of_reached (fun h hsent => absurd rfl hsent) fun t e u ht hv _ hs => ?_
  rcases step_cases hs with ⟨hservice, hrx⟩ | ⟨e', w, hw, hservice, hrx⟩
  · simpa only [Served, hservice, hrx] using hv
  · simpa only [Served, hservice, hrx] using hv.serviceStep (.of_run ht) hw

/-! ## A command that has printed -/

/-- A command that prints has talked to a handler that has its request and has answered it. -/
theorem Inv.printed (hi : Inv s) (hv : Served s) (hc : s.client h = some c)
    (hpc : c.pc = .printed text) :
    (s.service.engine.handler h).pc.Answered ∧
      s.service.engine.req h = decodeRequest c.tx.buf ∧
      c.rx.buf <+: encodeResponse (s.service.engine.handler h).resp ∧
      c.rx.buf.length = RESPONSE_SIZE ∧ text = decodeString c.rx.buf 8 := by
  obtain ⟨hret, hlength, hpre⟩ := hi.answered hc (Or.inr ⟨text, hpc⟩)
  have ht := hi.talks h c hc
  have hsent : (s.service.conn h).sent ≠ [] := by
    intro hnil
    have hbuf := ht.fills.buf_eq hret
    rw [hnil, List.take_nil] at hbuf
    rw [hbuf] at hlength
    exact absurd hlength (by decide)
  have hanswered := (hi.receiving h).answering hsent
  have hserved := hi.dispatched (h := h) (by rcases hanswered with h | h <;> simp [h])
    (by rcases hanswered with h | h <;> simp [h])
  rcases hserved with ⟨hfail, -⟩ | ⟨-, hsize, hwritten, hreq⟩
  · simp [hv h hsent] at hfail
  · rw [hi.request_sent hc hsize hwritten] at hreq
    exact ⟨hanswered, hreq, hpre, hlength, (ht.printed text hpc).2⟩

/-- What it prints, if the answer is a C string that fits. -/
theorem Inv.printed_text (hi : Inv s) (hv : Served s) (hc : s.client h = some c)
    (hpc : c.pc = .printed text) (hnul : (s.service.engine.handler h).resp.message.NulFree)
    (hlen : (s.service.engine.handler h).resp.message.length < RESPONSE_MSG_LEN) :
    text = (s.service.engine.handler h).resp.message := by
  obtain ⟨-, -, hpre, hlength, htext⟩ := hi.printed hv hc hpc
  have hbuf := hpre.eq_of_length (hlength.trans (length_encodeResponse hlen.le).symm)
  rw [htext, hbuf, decodeString_encodeResponse hnul hlen]

/-- Its exit status is 1 if the answer is a refusal. -/
theorem Inv.status_refused (hi : Inv s) (hv : Served s) (hc : s.client h = some c)
    (hpc : c.pc = .printed text) (hok : (s.service.engine.handler h).resp.ok = false) :
    c.status = 1 := by
  obtain ⟨-, -, hpre, hlength, -⟩ := hi.printed hv hc hpc
  rw [Client.status, clientMain, decodeResponse_ok hpre hlength, if_pos hok]
  rfl

/-- It is what `main` makes of the answer. -/
theorem Inv.status (hi : Inv s) (hv : Served s) (hc : s.client h = some c)
    (hpc : c.pc = .printed text) (hcode : IsInt (s.service.engine.handler h).resp.exitCode) :
    c.status = exitStatus (clientMain (decodeRequest c.tx.buf)
      (s.service.engine.handler h).resp) := by
  obtain ⟨-, -, hpre, hlength, -⟩ := hi.printed hv hc hpc
  rw [Client.status, clientMain, clientMain, decodeResponse_ok hpre hlength,
    decodeResponse_exitCode hcode hpre hlength]

/-! ## What the handlers know -/

/-- The supervisor has been in the state `t` while these events were played. -/
def Passed (disp : Signal → Disposition) (junk : ℕ → Fin REQUEST_SIZE → UInt8)
    (es : List SessionEvent) (t : Engine) : Prop :=
  ∃ es₁ u, es₁ <+: es ∧ Transition.exec (Session.step disp) Transition.Always (init junk) es₁ =
    some u ∧ u.service.engine = t

variable {junk : ℕ → Fin REQUEST_SIZE → UInt8} {es : List SessionEvent}

theorem Passed.append {t : Engine} (ht : Passed disp junk es t) (es' : List SessionEvent) :
    Passed disp junk (es ++ es') t := by
  obtain ⟨es₁, u, hpre, hu⟩ := ht
  exact ⟨es₁, u, hpre.trans (List.prefix_append _ _), hu⟩

/-- What a handler knows stays true while the engine takes the steps of a session, if it looks at
the table in a state that is passed. -/
theorem told_of_engineRun {u v : Engine} {passed : Engine → Prop} (hr : u.Reachable)
    (ht : u.Told passed h) (hnow : passed u)
    (hrun : Transition.Run Engine.step (Service.StepsAt u) u v) : v.Told passed h := by
  refine hrun.invariant_of_reached (I := fun w => w.Told passed h) ht fun w e x hw ht hc hs => ?_
  refine ht.step_of_run (hr.trans hw.always) (fun g he => ?_) hs
  rcases hc with rfl | hext
  · exact hnow
  · rcases he with rfl | rfl <;> cases hext

/-- After any events, every handler knows what its program point says of the states passed. -/
theorem told_of_exec
    (hs : Transition.exec (Session.step disp) Transition.Always (init junk) es = some s) (h : ℕ) :
    s.service.engine.Told (Passed disp junk es) h := by
  refine Transition.exec_invariant
    (I := fun es t => t.service.engine.Told (Passed disp junk es) h) trivial ?_ hs
  intro es t e u ht htold _ hstep
  have hr := Transition.run_of_exec ht
  have hnow : Passed disp junk (es ++ [e]) t.service.engine :=
    ⟨es, t, List.prefix_append _ _, ht, rfl⟩
  have htold' := htold.mono fun _ hp => hp.append [e]
  rcases step_service hstep with heq | ⟨e', hs'⟩
  · rwa [heq]
  · exact told_of_engineRun (engine_run hr) htold' hnow (Service.step_run hs')

/-! ## What a command reports -/

/-- What the exit status and the text of a command at the connection `h` say of the supervisor,
which has been in the states `passed`. -/
structure Reports (s : Engine) (passed : Engine → Prop) (h : ℕ) (req : Request) (text : CStr)
    (status : ℤ) : Prop where
  start : req.type = REQ_START →
    status = 0 ∧ (∃ i c, s.Hosts h req i c ∧ text = (startedResponse req c.pid).message) ∨
      status = 1 ∧ ∀ i, s.owner i ≠ some h
  run : req.type = REQ_RUN →
    (∃ i c t, s.Hosts h req i c ∧ Engine.HadEnded passed h i t ∧
      status = (t.table i).exitCode ∧
        text = (Engine.runResponse req (t.table i)).message) ∨
      status = 1 ∧ ∀ i, s.owner i ≠ some h
  stop : req.type = REQ_STOP →
    status = 0 ∧ (∃ k ∈ s.sigterms, s.Targets passed req k.slot k.pid ∧
      text = (stoppedResponse req k.pid).message) ∨ status = 1

theorem reports_of_exec
    (hs : Transition.exec (Session.step disp) Transition.Always (init junk) es = some s)
    (hc : s.client h = some c) (hpc : c.pc = .printed text) :
    Reports s.service.engine (Passed disp junk es) h (decodeRequest c.tx.buf) text c.status := by
  have hr := Transition.run_of_exec hs
  have hi := Inv.of_run hr
  have hv := Served.of_run hr
  have hrun : s.service.engine.Reachable := engine_run hr
  obtain ⟨hanswered, hreq, -⟩ := hi.printed hv hc hpc
  have hreply := (told_of_exec hs h).reply hanswered
  have hid : (s.service.engine.req h).id.NulFree := hreq ▸ (decodeRequest_nulFree _).1
  have htext := hi.printed_text hv hc hpc
  have hstatus := hi.status hv hc hpc
  have hzero : IsInt 0 := by decide
  rw [← hreq] at hstatus ⊢
  cases hok : (s.service.engine.handler h).resp.ok with
  | false =>
    have hone := hi.status_refused hv hc hpc hok
    exact ⟨fun htype => Or.inr ⟨hone, hreply.refused (Or.inl htype) hok⟩,
      fun htype => Or.inr ⟨hone, hreply.refused (Or.inr htype) hok⟩, fun _ => Or.inr hone⟩
  | true =>
    refine ⟨fun htype => Or.inl ?_, fun htype => Or.inl ?_, fun htype => Or.inl ?_⟩
    · obtain ⟨i, hstarted, hresp⟩ := hreply.start htype hok
      obtain ⟨ch, hosts⟩ := Engine.hosts_of_started hrun hstarted
      obtain ⟨hnul, hlen⟩ := fits_startedResponse hid (s.service.engine.table i).pid
      rw [hresp] at htext hstatus
      refine ⟨?_, i, ch, hosts, ?_⟩
      · rw [hstatus hzero, clientMain_eq_zero rfl (by simp [htype, REQ_START, REQ_RUN])]
        rfl
      · rw [htext hnul hlen, hosts.pid]
    · obtain ⟨i, t, hstarted, hended, hresp⟩ := hreply.run htype hok
      obtain ⟨ch, hosts⟩ := Engine.hosts_of_started hrun hstarted
      obtain ⟨hnul, hlen⟩ := fits_runResponse hid (t.table i)
      obtain ⟨hlo, hhi⟩ := hended.exitCode
      have hcode : IsInt (t.table i).exitCode := ⟨by omega, by omega⟩
      rw [hresp] at htext hstatus
      refine ⟨i, ch, t, hosts, hended, ?_, htext hnul hlen⟩
      exact (hstatus hcode).trans (clientMain_run rfl htype hlo hhi)
    · obtain ⟨k, hk, htarget, hresp⟩ := hreply.stop htype hok
      obtain ⟨hnul, hlen⟩ := fits_stoppedResponse hid k.pid
      rw [hresp] at htext hstatus
      refine ⟨?_, k, hk, htarget, htext hnul hlen⟩
      rw [hstatus hzero, clientMain_eq_zero rfl (by simp [htype, REQ_STOP, REQ_RUN])]
      rfl

/-- Whatever the clients do, whichever calls fail and however the threads interleave, a command that
has printed its answer has told the truth by its exit status and its text: a `start` exits with 0
and prints the pid if its container is in the table with the record of its request and a child of
its own, and else with 1, owning no slot; a `run` exits with the exit code, and prints the state,
that the record of its own container had in a state of this run in which the container had ended, or
else exits with 1, owning no slot; a `stop` exits with 0 only if the signal that it prints was sent,
to the pid of the record with its id, where the stop is noted, or to the `-1` of a slot with its id
that was STARTING in a state of this run. So no more than `MAX_CONTAINERS` commands to start a
container ever exit with 0. -/
theorem exit_status_reports
    (hs : Transition.exec (Session.step disp) Transition.Always (init junk) es = some s) :
    (∀ h c text, s.client h = some c → c.pc = .printed text →
        Reports s.service.engine (Passed disp junk es) h (decodeRequest c.tx.buf) text c.status) ∧
      ∀ H : Finset ℕ, (∀ h ∈ H, ∃ c text, s.client h = some c ∧ c.pc = .printed text ∧
          (decodeRequest c.tx.buf).Starts ∧ c.status = 0) → H.card ≤ MAX_CONTAINERS := by
  refine ⟨fun h c text hc hpc => reports_of_exec hs hc hpc, fun H hH => ?_⟩
  have hr := Transition.run_of_exec hs
  refine (Engine.Wf.of_run (engine_run hr)).card_started H fun h hh => ?_
  obtain ⟨c, text, hc, hpc, hstarts, hzero⟩ := hH h hh
  have hreports := reports_of_exec hs hc hpc
  rw [hzero] at hreports
  rcases hstarts with htype | htype
  · rcases hreports.start htype with ⟨-, i, ch, hosts, -⟩ | ⟨hone, -⟩
    · simp [hosts.started]
    · cases hone
  · rcases hreports.run htype with ⟨i, ch, t, hosts, -⟩ | ⟨hone, -⟩
    · simp [hosts.started]
    · cases hone

/-- A command that runs a container which ends with 3, up to its end. -/
def playRan : List SessionEvent :=
  playRequest 0 ⟨REQ_RUN, cstr "a", cstr "ra", cstr "true", 40, 64, 0⟩ ++
    [Event.reserve 0 0, .pipe 0 none, .mallocStack 0 true, .mallocChild 0 true, .clone 0 (.ok 7),
      .mallocArg 0 true, .publish 0, .createProducer 0 true, .register 0, .runEnter 0,
      .exit 0 (3 * 256), .waitpid 0, .reap, .runEnter 0].map (fun e => .service (.engine e)) ++
    [.service (.send 0 (.bytes RESPONSE_SIZE)), .recv 0 (.bytes RESPONSE_SIZE), .print 0]

/-- It exits with 3, the exit code of the record of its own container. -/
theorem exit_status_reports_ran : ∃ (s : Session) (c : Client),
    c.pc = .printed (cstr "Container a finished with state=EXITED exit=3") ∧ c.status = 3 ∧
      ∃ i t, s.service.engine.owner i = some 0 ∧
        Passed supervisorSignals (fun _ _ => 0) playRan t ∧ (t.table i).exitCode = 3 := by
  have hplay : (Transition.exec (Session.step supervisorSignals) Transition.Always
      (init fun _ _ => 0) playRan).any (fun s => (s.client 0).any (fun c =>
        c.pc = .printed (cstr "Container a finished with state=EXITED exit=3") ∧ c.status = 3 ∧
          (decodeRequest c.tx.buf).type = REQ_RUN) = true) = true := by
    decide +kernel
  obtain ⟨s, hs, hp⟩ := (Option.any_eq_true _ _).mp hplay
  obtain ⟨c, hc, hp⟩ := (Option.any_eq_true _ _).mp (of_decide_eq_true hp)
  obtain ⟨hpc, hthree, htype⟩ := of_decide_eq_true hp
  obtain ⟨hreports, -⟩ := exit_status_reports hs
  rcases (hreports 0 c _ hc hpc).run htype with ⟨i, ch, t, hosts, hended, hstatus, -⟩ | ⟨hone, -⟩
  · exact ⟨s, c, hpc, hthree, i, t, hosts.settled.1, hended.passed, hstatus.symm.trans hthree⟩
  · cases hthree.symm.trans hone

end Session

end Jackfruit
