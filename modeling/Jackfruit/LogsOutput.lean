import Jackfruit.Printing
import Jackfruit.Records
import Jackfruit.Session
import Jackfruit.Wire

/-!
# The log of a container

`build_logs_output` copies the log file into the message of a response, byte by byte, and `main`
prints the message as a C string. The copy stops when the message is full, and the string ends at
the first NUL in the file.

So the supervisor stays inside its buffer and leaves a NUL in it whatever the file holds, and the
client shows the whole file if and only if the file is shorter than the message and holds no NUL
(`logs_shows_file_iff`).
-/

set_option linter.unusedSectionVars false

open Printing

namespace Jackfruit

/-- `sizeof(resp.message)` as `build_logs_output` gets it. -/
def logsSize : UInt64 :=
  UInt64.ofNat RESPONSE_MSG_LEN

/-- `log_path` after the critical section; empty if no container has the id. -/
def logsPath (t : Table) (id : CStr) : CStr :=
  match findContainerByIdLocked t id with
  | some idx => safeStrcpy (t idx).logFile MAX_PATH_LEN
  | none => []

/-- `build_logs_output` : what is in `out` and in `*ok_out`; none if it writes outside of `out`.
`fopen path` is what is in the file, up to the `EOF` of `fgetc`. -/
def buildLogsOutput (fopen : CStr → Option (List UInt8)) (outSize : UInt64) (t : Table) (id : CStr)
    (out : List UInt8) : Option (List UInt8 × Bool) :=
  let logPath := logsPath t id
  if logPath = [] then
    (snprintfAt out 0 outSize.toNat (cstr "No such container: " ++ id ++ cstr "\n")).map (·, false)
  else
    match fopen logPath with
    | none =>
      (snprintfAt out 0 outSize.toNat
        (cstr "Unable to open log file: " ++ logPath ++ cstr "\n")).map (·, false)
    | some content =>
      (copyBytes outSize content ⟨out, 0⟩).bind fun w =>
        (storeAt w.out w.used.toNat 0).bind fun out =>
          if w.used = 0 then
            (snprintfAt out 0 outSize.toNat (cstr "(log file is empty)\n")).map (·, true)
          else some (out, true)

/-- The response to `REQ_LOGS`, in a message that `init_response` has zeroed. -/
def logsResponse (fopen : CStr → Option (List UInt8)) (t : Table) (req : Request) :
    Option Response :=
  (buildLogsOutput fopen logsSize t req.id (List.replicate RESPONSE_MSG_LEN 0)).map fun r =>
    ⟨r.2, if r.2 then 0 else -1, r.1⟩

/-- What `main` prints of a message. -/
def mainPrints (message : CStr) : List UInt8 :=
  if message = [] then [] else message ++ cstr "\n"

variable {fopen : CStr → Option (List UInt8)} {outSize : UInt64} {t : Table} {id : CStr}
  {out content : List UInt8}

/-! ## The buffer -/

/-- The buffer has its size, and a NUL is in it. -/
def Terminated (out : List UInt8) (outSize : UInt64) : Prop :=
  out.length = outSize.toNat ∧ 0 ∈ out

theorem terminated_of_eq {text rest : List UInt8}
    (hlen : (text ++ 0 :: rest).length = outSize.toNat) :
    Terminated (text ++ 0 :: rest) outSize :=
  ⟨hlen, List.mem_append_right _ List.mem_cons_self⟩

/-- A single `snprintf` into the whole buffer. -/
theorem terminated_snprintfAt (text : CStr) (hout : out.length = outSize.toNat)
    (hpos : 0 < outSize.toNat) :
    ∃ out', snprintfAt out 0 outSize.toNat text = some out' ∧ Terminated out' outSize := by
  obtain ⟨rest, hprint, hlen⟩ := snprintfAt_zero text (hout ▸ hpos)
  exact ⟨_, hout ▸ hprint, terminated_of_eq (hlen.trans hout)⟩

/-- What `build_logs_output` leaves of the file that it has opened. -/
theorem buildLogsOutput_eq (hout : out.length = outSize.toNat) (hroom : 1 < outSize.toNat)
    (hpath : logsPath t id ≠ []) (hfile : fopen (logsPath t id) = some content)
    (hne : content ≠ []) :
    ∃ rest, buildLogsOutput fopen outSize t id out =
        some (content.take (outSize.toNat - 1) ++ 0 :: rest, true) ∧
      (content.take (outSize.toNat - 1) ++ 0 :: rest).length = outSize.toNat := by
  obtain ⟨q, hcopy, hq⟩ := (copied_nil hout (by omega)).copyBytes content
  rw [List.nil_append, List.length_nil, Nat.sub_zero] at hq
  obtain ⟨rest, hstore, hlen⟩ := hq.storeAt 0
  have hused : q.used ≠ 0 := by
    intro hzero
    have hlength := hq.used
    rw [hzero, List.length_take] at hlength
    have hpos := List.length_pos_of_ne_nil hne
    change 0 = _ at hlength
    omega
  refine ⟨rest, ?_, hlen⟩
  simp only [buildLogsOutput, if_neg hpath, hfile, hcopy, Option.bind_some, hstore, if_neg hused]

/-- Whatever the table, the id and the file are, `build_logs_output` writes only into its buffer and
leaves a NUL there. -/
theorem buildLogsOutput_terminated (fopen : CStr → Option (List UInt8)) (t : Table) (id : CStr)
    (hout : out.length = outSize.toNat) (hpos : 0 < outSize.toNat) :
    ∃ r, buildLogsOutput fopen outSize t id out = some r ∧ Terminated r.1 outSize := by
  unfold buildLogsOutput
  dsimp only
  split_ifs with hpath
  · obtain ⟨out', hprint, hout'⟩ := terminated_snprintfAt
      (cstr "No such container: " ++ id ++ cstr "\n") hout hpos
    exact ⟨(out', false), by rw [hprint, Option.map_some], hout'⟩
  cases fopen (logsPath t id) with
  | none =>
    obtain ⟨out', hprint, hout'⟩ := terminated_snprintfAt
      (cstr "Unable to open log file: " ++ logsPath t id ++ cstr "\n") hout hpos
    exact ⟨(out', false), by simp only [hprint, Option.map_some], hout'⟩
  | some content =>
    obtain ⟨q, hcopy, hq⟩ := (copied_nil hout hpos).copyBytes content
    obtain ⟨rest, hstore, hlen⟩ := hq.storeAt 0
    simp only [hcopy, hstore, Option.bind_some]
    split_ifs with hused
    · obtain ⟨out', hprint, hout'⟩ := terminated_snprintfAt (cstr "(log file is empty)\n") hlen hpos
      exact ⟨(out', true), by rw [hprint, Option.map_some], hout'⟩
    · exact ⟨_, rfl, terminated_of_eq hlen⟩

/-! ## The path -/

theorem logFile_ne_nil (id : CStr) : snprintf MAX_PATH_LEN (logFileOf id) ≠ [] := by
  intro h
  rw [snprintf, logFileOf, List.append_assoc] at h
  have hhead : (cstr "logs/").head? = some 108 := by decide
  obtain ⟨rest, hlogs⟩ := List.head?_eq_some_iff.mp hhead
  rw [hlogs] at h
  cases h

/-- The path of a container that is known is that of its log file. -/
theorem logsPath_eq {s : Engine} {i : Slot} (hr : s.Reachable)
    (hfind : findContainerByIdLocked s.table id = some i) :
    logsPath s.table id = (s.table i).logFile ∧ logsPath s.table id ≠ [] := by
  obtain ⟨h, ho⟩ := ((Engine.Wf.of_run hr).used_iff i).mp (findContainerByIdLocked_spec hfind).1
  have hfile := (Engine.records_of_run hr i h ho).logFile
  have hpath : logsPath s.table id = (s.table i).logFile := by
    rw [logsPath, hfind]
    refine (safeStrcpy_eq_iff (by decide)).mpr ?_
    rw [hfile]
    exact length_snprintf_lt _ (by decide)
  exact ⟨hpath, by rw [hpath, hfile]; exact logFile_ne_nil _⟩

/-- The response has as much of the file as there is room for. -/
theorem logsResponse_eq {s : Engine} {i : Slot} {req : Request} (hr : s.Reachable)
    (hfind : findContainerByIdLocked s.table req.id = some i)
    (hfile : fopen (s.table i).logFile = some content) (hne : content ≠ []) :
    ∃ rest, logsResponse fopen s.table req =
        some ⟨true, 0, content.take (RESPONSE_MSG_LEN - 1) ++ 0 :: rest⟩ ∧
      (content.take (RESPONSE_MSG_LEN - 1) ++ 0 :: rest).length = RESPONSE_MSG_LEN := by
  have hsize : logsSize.toNat = RESPONSE_MSG_LEN := by decide
  have hzero : (List.replicate RESPONSE_MSG_LEN (0 : UInt8)).length = logsSize.toNat :=
    List.length_replicate.trans hsize.symm
  obtain ⟨hpath, hpath'⟩ := logsPath_eq hr hfind
  obtain ⟨rest, hout, hlen⟩ := buildLogsOutput_eq hzero (by decide) hpath' (hpath ▸ hfile) hne
  rw [hsize] at hout hlen
  exact ⟨rest, by rw [logsResponse, hout, Option.map_some]; rfl, hlen⟩

/-! ## The response on its way -/

namespace Engine

variable {s s' : Engine} {h : ℕ}

theorem read_handler {resp : Response} (hs : s.step (.read h resp) = some s') :
    s'.handler h = { s.handler h with resp := resp, pc := .send } := by
  replace hs := (step_next hs).2
  simp only [next, handlerStep] at hs
  obtain ⟨-, hs⟩ := Option.ite_none_right_eq_some.mp hs
  cases hs
  exact Function.update_self _ _ _

end Engine

namespace Session

variable {disp : Signal → Disposition} {s s' t : Session} {h : ℕ} {c : Client}
  {text : CStr} {resp : Response}

theorem read_handler (hs : s.step disp (.service (.engine (.read h resp))) = some t) :
    t.service.engine.handler h =
      { s.service.engine.handler h with resp := resp, pc := .send } := by
  simp only [Session.step] at hs
  split_ifs at hs
  have hservice := (Service.step_next (service_serviceStep hs)).2
  simp only [Service.next] at hservice
  split_ifs at hservice
  obtain ⟨engine, heng, hengine⟩ := Option.map_eq_some_iff.mp hservice
  have hhandler : t.service.engine.handler h = engine.handler h := by rw [← hengine]
  rw [hhandler, Engine.read_handler heng]

/-- A client prints the message of its handler's response, up to the first NUL. -/
theorem Inv.printed_message (hi : Inv s) (hc : s.client h = some c) (hpc : c.pc = .printed text)
    (hlen : (s.service.engine.handler h).resp.message.length = RESPONSE_MSG_LEN) :
    text = (s.service.engine.handler h).resp.message.takeWhile fun b => b ≠ 0 := by
  obtain ⟨-, hlength, hpre⟩ := hi.answered hc (Or.inr ⟨text, hpc⟩)
  generalize (s.service.engine.handler h).resp = resp at hlen hpre
  have hsize : (encodeResponse resp).length = RESPONSE_SIZE := by
    simp only [encodeResponse, List.length_append, length_encodeInt, List.length_replicate, hlen]
    rfl
  have hbuf : c.rx.buf = encodeResponse resp := hpre.eq_of_length (hlength.trans hsize.symm)
  have hdrop : (encodeResponse resp).drop 8 = resp.message := by
    rw [encodeResponse, hlen, Nat.sub_self, List.replicate_zero, List.append_nil,
      List.drop_left' (by simp)]
  rw [((hi.talks h c hc).printed text hpc).2, hbuf, decodeString, hdrop]

/-! ## What the client shows -/

/-- The handler of `h` reads `content` in the log file of a container that it knows, and has its
response to `REQ_LOGS`. -/
structure ReadsLog (disp : Signal → Disposition) (fopen : CStr → Option (List UInt8)) (h : ℕ)
    (content : List UInt8) (s s' : Session) : Prop where
  type : (s.service.engine.req h).type = REQ_LOGS
  known : ∃ i, findContainerByIdLocked s.service.engine.table (s.service.engine.req h).id = some i ∧
    fopen (s.service.engine.table i).logFile = some content
  step : ∃ resp, logsResponse fopen s.service.engine.table (s.service.engine.req h) = some resp ∧
    s.step disp (.service (.engine (.read h resp))) = some s'

theorem ReadsLog.response {junk : ℕ → Fin REQUEST_SIZE → UInt8}
    (hr : Transition.Run (Session.step disp) Transition.Always (init junk) s)
    (hread : ReadsLog disp fopen h content s s') (hne : content ≠ []) :
    (s'.service.engine.handler h).pc = .send ∧
      ∃ rest, (s'.service.engine.handler h).resp.message =
          content.take (RESPONSE_MSG_LEN - 1) ++ 0 :: rest ∧
        (content.take (RESPONSE_MSG_LEN - 1) ++ 0 :: rest).length = RESPONSE_MSG_LEN := by
  obtain ⟨i, hfind, hfile⟩ := hread.known
  obtain ⟨resp, hresp, hs⟩ := hread.step
  obtain ⟨rest, hresp', hlen⟩ := logsResponse_eq (engine_run hr) hfind hfile hne
  obtain rfl := Option.some.inj (hresp.symm.trans hresp')
  rw [read_handler hs]
  exact ⟨rfl, rest, rfl, hlen⟩

/-- The client shows the file up to its first NUL, and not more than the message has room for. -/
theorem ReadsLog.printed {junk : ℕ → Fin REQUEST_SIZE → UInt8}
    (hr : Transition.Run (Session.step disp) Transition.Always (init junk) s)
    (hread : ReadsLog disp fopen h content s s') (hne : content ≠ [])
    (hr' : Transition.Run (Session.step disp) Transition.Always s' t) (hc : t.client h = some c)
    (hpc : c.pc = .printed text) :
    text = (content.take (RESPONSE_MSG_LEN - 1)).takeWhile fun b => b ≠ 0 := by
  obtain ⟨hsend, rest, hmessage, hlen⟩ := hread.response hr hne
  obtain ⟨resp, -, hs⟩ := hread.step
  have hi : Inv t := .of_run ((hr.tail _ trivial hs).trans hr')
  have hkept := congrArg Response.message (Engine.resp_of_run (engine_run hr') hsend)
  rw [hmessage] at hkept
  rw [hi.printed_message hc hpc (hkept ▸ hlen), hkept, takeWhile_append_nul]

/-- What the client prints of a text is the file exactly if the text is the whole file. -/
theorem mainPrints_eq_iff (hne : content ≠ []) :
    mainPrints text = content ++ cstr "\n" ↔ text = content := by
  unfold mainPrints
  split_ifs with htext
  · refine iff_of_false (fun h => ?_) fun h => hne (h ▸ htext)
    exact hne (List.append_eq_nil_iff.mp h.symm).1
  · exact List.append_left_inj _

/-- A file is shown whole exactly if nothing of it is cut. -/
theorem takeWhile_take_eq_iff {size : ℕ} (hsize : 0 < size) :
    (content.take (size - 1)).takeWhile (fun b => b ≠ 0) = content ↔
      content.length < size ∧ CStr.NulFree content := by
  constructor
  · intro h
    have hle := (List.takeWhile_prefix (fun b : UInt8 => b ≠ 0)
      (l := content.take (size - 1))).length_le
    rw [h, List.length_take] at hle
    refine ⟨by omega, fun b hb => ?_⟩
    rw [← h] at hb
    simpa using List.mem_takeWhile_imp hb
  · rintro ⟨hlen, hnul⟩
    rw [List.take_of_length_le (by omega), List.takeWhile_eq_self_iff]
    simpa [CStr.NulFree] using hnul

/-- The supervisor writes only into the message and leaves a NUL there, whatever it is asked for and
whatever it finds. In every run in which it reads the log file of a container that it knows, the
client shows the whole file, with its newline behind it, if and only if the file is shorter than the
message and holds no NUL. -/
theorem logs_shows_file_iff (fopen : CStr → Option (List UInt8)) :
    (∀ (t : Table) (id : CStr) (out : List UInt8), out.length = RESPONSE_MSG_LEN →
      ∃ r, buildLogsOutput fopen logsSize t id out = some r ∧ Terminated r.1 logsSize) ∧
    ∀ disp junk h (content : List UInt8) (s s' t : Session) c text,
      Transition.Run (Session.step disp) Transition.Always (init junk) s →
      ReadsLog disp fopen h content s s' → content ≠ [] →
      Transition.Run (Session.step disp) Transition.Always s' t →
      t.client h = some c → c.pc = .printed text →
        (mainPrints text = content ++ cstr "\n" ↔
          content.length < RESPONSE_MSG_LEN ∧ CStr.NulFree content) := by
  have hsize : logsSize.toNat = RESPONSE_MSG_LEN := by decide
  constructor
  · intro t id out hout
    exact buildLogsOutput_terminated fopen t id (hout.trans hsize.symm) (by decide)
  · intro disp junk h content s s' t c text hr hread hne hr' hc hpc
    rw [mainPrints_eq_iff hne, hread.printed hr hne hr' hc hpc]
    exact takeWhile_take_eq_iff (by decide)

/-- A command connects and its request arrives. -/
def playRequest (h : ℕ) (req : Request) : List SessionEvent :=
  [.start h (encodeRequest req) (List.replicate RESPONSE_SIZE 0), .send h (.bytes REQUEST_SIZE),
    .service (.engine .loopTest), .service (.accept h), .service (.recv h (.bytes REQUEST_SIZE))]

/-- A container is started, and a command asks for its log. -/
def playLogs : List SessionEvent :=
  playRequest 0 ⟨REQ_START, cstr "a", cstr "ra", cstr "true", 40, 64, 0⟩ ++
    [Event.reserve 0 0, .pipe 0 none, .mallocStack 0 true, .mallocChild 0 true, .clone 0 (.ok 7),
      .mallocArg 0 true, .publish 0, .createProducer 0 true,
      .register 0].map (fun e => .service (.engine e)) ++
    playRequest 1 ⟨REQ_LOGS, cstr "a", [], [], 40, 64, 0⟩

/-- Files of which only the container's log exists. -/
def onlyLog (content : List UInt8) (path : CStr) : Option (List UInt8) :=
  if path = cstr "logs/a.log" then some content else none

/-- The command for the log of a container, with a file that fills the message. -/
theorem exists_shown
    (hfull : content.take (RESPONSE_MSG_LEN - 1) = List.replicate (RESPONSE_MSG_LEN - 1) 120) :
    ∃ (s s' t : Session) (c : Client) (text : CStr),
      Transition.Run (Session.step supervisorSignals) Transition.Always (init fun _ _ => 0) s ∧
      ReadsLog supervisorSignals (onlyLog content) 1 content s s' ∧
      Transition.Run (Session.step supervisorSignals) Transition.Always s' t ∧
      t.client 1 = some c ∧ c.pc = .printed text := by
  let answer : List SessionEvent :=
    [.service (.send 1 (.bytes RESPONSE_SIZE)), .recv 1 (.bytes RESPONSE_SIZE), .print 1]
  let resp : Response := ⟨true, 0, List.replicate (RESPONSE_MSG_LEN - 1) 120 ++ [0]⟩
  let shown (c : Client) : Bool :=
    match c.pc with
    | .printed _ => true
    | _ => false
  obtain ⟨s, hr, htype, hfind, hlog, hplay⟩ := Transition.exists_run_of_exec
    (Session.step supervisorSignals) Transition.Always (init fun _ _ => 0) playLogs
    (fun s => (s.service.engine.req 1).type = REQ_LOGS ∧
      findContainerByIdLocked s.service.engine.table (s.service.engine.req 1).id = some 0 ∧
      (s.service.engine.table 0).logFile = cstr "logs/a.log" ∧
      ((s.step supervisorSignals (.service (.engine (.read 1 resp)))).bind fun s' =>
          Transition.exec (Session.step supervisorSignals) Transition.Always s' answer).any
        (fun t => (t.client 1).any shown) = true)
    (by decide +kernel)
  obtain ⟨t, hplay, hprinted⟩ := (Option.any_eq_true _ _).mp hplay
  obtain ⟨s', hs, hplay⟩ := Option.bind_eq_some_iff.mp hplay
  obtain ⟨c, hc, hpc⟩ := (Option.any_eq_true _ _).mp hprinted
  obtain ⟨text, hpc⟩ : ∃ text, c.pc = .printed text := by
    dsimp only [shown] at hpc
    split at hpc
    · exact ⟨_, ‹_›⟩
    · cases hpc
  have hfile : onlyLog content (s.service.engine.table 0).logFile = some content := by
    rw [hlog, onlyLog, if_pos rfl]
  have hne : content ≠ [] := by
    rintro rfl
    have hlength := congrArg List.length hfull
    rw [List.take_nil, List.length_nil, List.length_replicate] at hlength
    exact absurd hlength (by decide)
  obtain ⟨rest, hresp, hlen⟩ := logsResponse_eq (engine_run hr) hfind hfile hne
  have hrest : rest = [] := by
    rw [hfull, List.length_append, List.length_replicate, List.length_cons] at hlen
    exact List.eq_nil_of_length_eq_zero (by simp only [RESPONSE_MSG_LEN] at hlen; omega)
  rw [hfull, hrest] at hresp
  exact ⟨s, s', t, c, text, hr, ⟨htype, ⟨0, hfind, hfile⟩, resp, hresp, hs⟩,
    Transition.run_of_exec hplay, hc, hpc⟩

/-- The longest file that is shown whole. -/
theorem logs_shows_file_iff_longest : ∃ (t : Session) (c : Client) (text : CStr),
    t.client 1 = some c ∧ c.pc = .printed text ∧
    mainPrints text = List.replicate (RESPONSE_MSG_LEN - 1) 120 ++ cstr "\n" := by
  have hfull : (List.replicate (RESPONSE_MSG_LEN - 1) (120 : UInt8)).take (RESPONSE_MSG_LEN - 1) =
      List.replicate (RESPONSE_MSG_LEN - 1) 120 := List.take_of_length_le (by simp)
  obtain ⟨s, s', t, c, text, hr, hread, hr', hc, hpc⟩ := exists_shown hfull
  have hne : List.replicate (RESPONSE_MSG_LEN - 1) (120 : UInt8) ≠ [] :=
    List.ne_nil_of_length_pos (by rw [List.length_replicate]; decide)
  have hshown := (logs_shows_file_iff _).2 _ _ _ _ s s' t c text hr hread hne hr' hc hpc
  refine ⟨t, c, text, hc, hpc, hshown.mpr ⟨?_, fun b hb => ?_⟩⟩
  · rw [List.length_replicate]
    decide
  · rw [List.eq_of_mem_replicate hb]
    decide

/-- A file that is one byte longer is cut. -/
theorem logs_cuts_file : ∃ (s s' t : Session) (c : Client) (text : CStr),
    Transition.Run (Session.step supervisorSignals) Transition.Always (init fun _ _ => 0) s ∧
    ReadsLog supervisorSignals (onlyLog (List.replicate RESPONSE_MSG_LEN 120)) 1
      (List.replicate RESPONSE_MSG_LEN 120) s s' ∧
    Transition.Run (Session.step supervisorSignals) Transition.Always s' t ∧
    t.client 1 = some c ∧ c.pc = .printed text ∧
    mainPrints text ≠ List.replicate RESPONSE_MSG_LEN 120 ++ cstr "\n" := by
  have hfull : (List.replicate RESPONSE_MSG_LEN (120 : UInt8)).take (RESPONSE_MSG_LEN - 1) =
      List.replicate (RESPONSE_MSG_LEN - 1) 120 := by
    rw [List.take_replicate]
    rfl
  have hne : List.replicate RESPONSE_MSG_LEN (120 : UInt8) ≠ [] :=
    List.ne_nil_of_length_pos (by rw [List.length_replicate]; decide)
  obtain ⟨s, s', t, c, text, hr, hread, hr', hc, hpc⟩ := exists_shown hfull
  refine ⟨s, s', t, c, text, hr, hread, hr', hc, hpc, fun hshown => ?_⟩
  rw [mainPrints_eq_iff hne, hread.printed hr hne hr' hc hpc, takeWhile_take_eq_iff (by decide),
    List.length_replicate] at hshown
  exact absurd hshown.1 (lt_irrefl _)

end Session

end Jackfruit
