import Jackfruit.CommandLine
import Jackfruit.Containers
import Jackfruit.Records
import Jackfruit.Wire

/-!
# From the command line to the container

`main` copies the words of a `start` into a request, the supervisor copies the request into a slot
and into the arguments of the child, and `child_main` takes its host name, its root and its command
from these. Every copy cuts off what does not fit, and nobody looks at the length of a word.

A container runs what was typed exactly if the words are shorter than their fields, and an id leads
`stop` and `logs` to the container that was started with it if no other typed id begins with the
same 31 bytes.
-/

set_option linter.unusedSectionVars false

namespace Jackfruit

variable {argv : List CStr} {req : Request}

/-! ## What `main` sends -/

theorem nulFree_word (h : ∀ w ∈ argv, CStr.NulFree w) (k : ℕ) : CStr.NulFree (word argv k) := by
  rw [word, List.getD_eq_getElem?_getD]
  cases hk : argv[k]? with
  | none => exact nofun
  | some w => exact h w (List.mem_of_getElem? hk)

theorem atoi_isInt (s : CStr) : IsInt (atoi s) :=
  ⟨BitVec.le_toInt _, BitVec.toInt_lt⟩

theorem setFlags_ints : ∀ (words : List (OptionalFlag × CStr)) (req : Request), req.Ints →
    (setFlags (words.map fun p => (p.1, atoi p.2)) req).Ints
  | [], _, h => h
  | (f, value) :: words, req, ⟨htype, hsoft, hhard, hnice⟩ => by
    refine setFlags_ints words (f.set req (atoi value)) ?_
    have hvalue := atoi_isInt value
    cases f
    · exact ⟨htype, hvalue, hhard, hnice⟩
    · exact ⟨htype, hsoft, hvalue, hnice⟩
    · exact ⟨htype, hsoft, hhard, hvalue⟩

theorem mainRequest_ints (h : mainRequest argv = some req) : req.Ints := by
  have hsoft : IsInt DEFAULT_SOFT_MIB := by decide
  have hhard : IsInt DEFAULT_HARD_MIB := by decide
  have hnice : IsInt DEFAULT_NICE := by decide
  rcases mainRequest_cases h with ⟨words, rfl⟩ | rfl | ⟨type, htype, rfl⟩
  · refine setFlags_ints words _ ⟨?_, hsoft, hhard, hnice⟩
    have htype : IsInt (if word argv 1 = cstr "start" then REQ_START else REQ_RUN) := by
      split_ifs <;> decide
    exact htype
  · exact ⟨(by decide : IsInt REQ_PS), hsoft, hhard, hnice⟩
  · have htype' : IsInt type := by
      rcases htype with rfl | rfl <;> decide
    exact ⟨htype', hsoft, hhard, hnice⟩

theorem mainRequest_terminated (h : mainRequest argv = some req) : req.Terminated := by
  have hid : initRequestDefaults.Terminated := by decide
  rcases mainRequest_cases h with ⟨words, rfl⟩ | rfl | ⟨type, -, rfl⟩
  · rw [setFlags_eq]
    exact ⟨length_snprintf_lt _ (by decide), length_snprintf_lt _ (by decide),
      length_snprintf_lt _ (by decide)⟩
  · exact hid
  · exact ⟨length_snprintf_lt _ (by decide), hid.2⟩

theorem mainRequest_nulFree (hargv : ∀ w ∈ argv, CStr.NulFree w)
    (h : mainRequest argv = some req) : req.NulFree := by
  rcases mainRequest_cases h with ⟨words, rfl⟩ | rfl | ⟨type, -, rfl⟩
  · rw [setFlags_eq]
    exact ⟨(nulFree_word hargv 2).take _, (nulFree_word hargv 3).take _,
      (nulFree_word hargv 4).take _⟩
  · decide
  · exact ⟨(nulFree_word hargv 2).take _, nofun, nofun⟩

/-- The handler has the request that `main` has made. -/
theorem decode_mainRequest (hargv : ∀ w ∈ argv, CStr.NulFree w)
    (h : mainRequest argv = some req) : decodeRequest (encodeRequest req) = req :=
  decodeRequest_encodeRequest (mainRequest_ints h) (mainRequest_nulFree hargv h)
    (mainRequest_terminated h)

/-! ## What the container gets -/

/-- The process has its settings from these arguments. -/
structure Proc.Carries (p : Proc) (a : ChildArg) : Prop where
  arg : p.arg = a
  hostname : p.pc = .chroot ∨ p.pc = .exec ∨ p.pc = .program → p.hostname = some a.id
  root : p.pc = .exec ∨ p.pc = .program → p.root = some a.rootfs
  command : p.pc = .program → p.command = some a.command

theorem Proc.Carries.childStep {p p' : Proc} {a : ChildArg} {ok : Bool} (hc : p.Carries a)
    (hs : p.childStep ok = some p') : p'.Carries a := by
  obtain ⟨rfl, hhost, hroot, hcmd⟩ := hc
  unfold Proc.childStep at hs
  split at hs
  case h_4 hpc => split_ifs at hs <;> cases hs <;> exact ⟨rfl, by simp, by simp, by simp⟩
  case h_8 hpc =>
    cases hs
    exact ⟨rfl, fun _ => hhost (Or.inl hpc), fun _ => rfl, by simp⟩
  case h_9 hpc =>
    cases hs
    exact ⟨rfl, fun _ => hhost (Or.inr (Or.inl hpc)), fun _ => hroot (Or.inl hpc), fun _ => rfl⟩
  all_goals cases hs
  all_goals exact ⟨rfl, by simp, by simp, by simp⟩

namespace Engine

variable {s : Engine} {i : Slot} {h : ℕ} {argv : ℕ → List CStr}

/-- The client of `h` is the command with the words `argv h`. -/
def Typed (argv : ℕ → List CStr) (_ : Engine) : Event → Prop
  | .recv h req => (mainRequest (argv h)).map (fun r => decodeRequest (encodeRequest r)) = some req
  | _ => True

instance (s : Engine) (e : Event) : Decidable (Typed argv s e) := by
  rcases e <;> dsimp only [Typed] <;> infer_instance

theorem Typed.request {t : Engine} {req : Request} (hargv : ∀ h, ∀ w ∈ argv h, CStr.NulFree w)
    (ht : Typed argv t (.recv h req)) : mainRequest (argv h) = some req := by
  obtain ⟨r, hr, rfl⟩ := Option.map_eq_some_iff.mp ht
  rw [decode_mainRequest (hargv h) hr]
  exact hr

theorem owner_typed (hargv : ∀ h, ∀ w ∈ argv h, CStr.NulFree w)
    (hr : Transition.Run Engine.step (Typed argv) init s) (ho : s.owner i = some h) :
    mainRequest (argv h) = some (s.req h) ∧ (s.req h).Starts :=
  owner_received (P := fun h req => mainRequest (argv h) = some req) hr
    (fun _ _ _ hc => hc.request hargv) ho

end Engine

namespace Processes

variable {s : Processes} {g h k : ℕ} {p : Proc} {i : Slot} {argv : ℕ → List CStr}

/-- The clients are commands with the words `argv`. -/
def Typed (argv : ℕ → List CStr) (s : Processes) : ProcessEvent → Prop
  | .engine e => s.engine.Typed argv e
  | _ => True

instance (s : Processes) (e : ProcessEvent) : Decidable (Typed argv s e) := by
  rcases e <;> dsimp only [Typed] <;> infer_instance

theorem typed_engine_run (hr : Transition.Run step (Typed argv) init s) :
    Transition.Run Engine.step (Engine.Typed argv) Engine.init s.engine := by
  refine hr.map Processes.engine fun t e u ht hc hs => ?_
  rcases (Accounts.of_run ht).step_engine hs with heq | ⟨e', rfl, hs'⟩
  · exact Or.inl heq
  · exact Or.inr ⟨e', hc, hs'⟩

/-- Every process of a container carries the arguments that were typed for it. -/
theorem carries_of_run (hargv : ∀ h, ∀ w ∈ argv h, CStr.NulFree w)
    (hr : Transition.Run step (Typed argv) init s) (hp : s.proc h k = some p) :
    ∃ req, mainRequest (argv h) = some req ∧ req.Starts ∧ p.Carries req.childArg := by
  refine hr.invariant_of_reached (I := fun t => ∀ k p, t.proc h k = some p →
    ∃ req, mainRequest (argv h) = some req ∧ req.Starts ∧ p.Carries req.childArg)
    (fun k p hp => ?_) (fun t e u ht ih hc hs k p hp => ?_) k p hp
  · cases hp
  · cases step_proc hs hp with
    | same _ hold => exact ih k p hold
    | clone pid he =>
      subst he
      have heng := (step_engine hs).engine
      obtain ⟨i, hpc⟩ : ∃ i, (t.engine.handler h).pc = .clone i := by
        rcases Engine.step_pc heng h with hm | ⟨hne, -⟩
        · generalize hpc : (t.engine.handler h).pc = pc at hm
          generalize (u.engine.handler h).pc = pc' at hm
          cases hm
          exact ⟨_, rfl⟩
        · exact absurd rfl hne
      have ho := ((Accounts.of_run ht).wf.reserved h i (by rw [hpc]; rfl)).1
      obtain ⟨hmain, hstart⟩ := Engine.owner_typed hargv (typed_engine_run ht) ho
      refine ⟨_, hmain, hstart, rfl, ?_, ?_, ?_⟩ <;> simp [Proc.spawned]
    | setup p₀ _ ok _ hold hstep =>
      obtain ⟨req, hmain, hstart, hcar⟩ := ih 0 p₀ hold
      exact ⟨req, hmain, hstart, hcar.childStep hstep⟩
    | forked k₀ _ hold => exact ih k₀ p hold
    | program p₀ f hold hpc hf =>
      obtain ⟨req, hmain, hstart, hcar⟩ := ih k p₀ hold
      exact ⟨req, hmain, hstart, hcar.arg, hcar.hostname, hcar.root, hcar.command⟩

/-- Whatever is typed : the program of a container runs with the host name, the root and the command
that were typed exactly if the words are shorter than their fields; and a container that `stop` or
`logs` finds was started with the id that they were given exactly if the two ids are the same from
their 32nd byte on. -/
theorem typed_runs_iff (hargv : ∀ h, ∀ w ∈ argv h, CStr.NulFree w)
    (hr : Transition.Run step (Typed argv) init s) :
    (∀ h k p, s.proc h k = some p → p.pc = .program →
      ((p.hostname = some (word (argv h) 2) ∧ p.root = some (word (argv h) 3) ∧
          p.command = some (word (argv h) 4)) ↔
        (word (argv h) 2).length < MAX_ID_LEN ∧ (word (argv h) 3).length < MAX_PATH_LEN ∧
          (word (argv h) 4).length < MAX_CMD_LEN)) ∧
    ∀ h i, ¬(s.engine.handler h).pc.Idle →
      (s.engine.req h).type = REQ_STOP ∨ (s.engine.req h).type = REQ_LOGS →
      findContainerByIdLocked s.engine.table (s.engine.req h).id = some i →
      ∃ g, s.engine.owner i = some g ∧ (word (argv g) 2 = word (argv h) 2 ↔
        (word (argv g) 2).drop (MAX_ID_LEN - 1) = (word (argv h) 2).drop (MAX_ID_LEN - 1)) := by
  have heng := typed_engine_run hr
  constructor
  · intro h k p hp hpc
    obtain ⟨req, hmain, hstart, hcar⟩ := carries_of_run hargv hr hp
    obtain ⟨hid, hroot, hcmd⟩ := mainRequest_start hmain hstart
    rw [hcar.hostname (Or.inr (Or.inr hpc)), hcar.root (Or.inr hpc), hcar.command hpc,
      Request.childArg]
    simp only [hid, hroot, hcmd, safeStrcpy_safeStrcpy, Option.some.injEq]
    rw [safeStrcpy_eq_iff (by decide), safeStrcpy_eq_iff (by decide),
      safeStrcpy_eq_iff (by decide)]
  · intro h i hidle htype hfind
    have w := Engine.Wf.of_run heng
    obtain ⟨hu, hid⟩ := findContainerByIdLocked_spec hfind
    obtain ⟨g, ho⟩ := (w.used_iff i).mp hu
    refine ⟨g, ho, fun heq => by rw [heq], fun hdrop => ?_⟩
    obtain ⟨hmain, hstart⟩ := Engine.owner_typed hargv heng ho
    have hmain' : mainRequest (argv h) = some (s.engine.req h) :=
      (Engine.Received.of_run (P := fun h req => mainRequest (argv h) = some req) heng
        (fun _ _ _ hc => hc.request hargv) h).resolve_left hidle
    have htake : (word (argv g) 2).take (MAX_ID_LEN - 1) =
        (word (argv h) 2).take (MAX_ID_LEN - 1) := by
      rw [(Engine.records_of_run heng i g ho).id, (mainRequest_start hmain hstart).1,
        safeStrcpy_safeStrcpy, mainRequest_id hmain' htype] at hid
      exact hid
    rw [← List.take_append_drop (MAX_ID_LEN - 1) (word (argv g) 2), htake, hdrop,
      List.take_append_drop]

/-- The command of `h` connects and its request arrives. -/
def playCommand (argv : ℕ → List CStr) (h : ℕ) : List ProcessEvent :=
  [.engine .loopTest, .engine (.accept h), .engine (.recv h (decodeRequest (encodeRequest
    ((mainRequest (argv h)).getD initRequestDefaults))))]

/-- A start up to its answer, and `child_main` up to the program. -/
def playContainer (h : ℕ) (pid : ℤ) : List ProcessEvent :=
  [.engine (.reserve h 0), .engine (.pipe h none), .engine (.mallocStack h true),
    .engine (.mallocChild h true), .engine (.clone h (.ok pid)), .cleanup h, .cleanup h,
    .engine (.mallocArg h true), .engine (.publish h), .engine (.createProducer h true),
    .engine (.register h)] ++ List.replicate 9 (.child h true)

/-- A start and a stop of `id`, by the two commands. -/
def startAndStop (id id' : CStr) (h : ℕ) : List CStr :=
  if h = 0 then [cstr "engine", cstr "start", id, cstr "./r", cstr "true"]
  else [cstr "engine", cstr "stop", id']

theorem startAndStop_nulFree {id id' : CStr} (hid : id.NulFree) (hid' : id'.NulFree) (h : ℕ) :
    ∀ w ∈ startAndStop id id' h, CStr.NulFree w := by
  have hlit : ∀ w ∈ ["engine", "start", "./r", "true", "stop"].map cstr, CStr.NulFree w := by
    decide
  unfold startAndStop
  split_ifs <;> simp_all

/-- A container that has the name that was typed, and a stop that finds it by this name. -/
theorem typed_runs_iff_example : ∃ (s : Processes) (p : Proc), s.proc 0 0 = some p ∧
    p.hostname = some (cstr "a") ∧ p.command = some (cstr "true") ∧
    ∃ g, s.engine.owner 0 = some g ∧ word (startAndStop (cstr "a") (cstr "a") g) 2 = cstr "a" := by
  obtain ⟨s, hr, hs⟩ := Transition.exists_run_of_exec step
    (Typed (startAndStop (cstr "a") (cstr "a"))) init
    (playCommand (startAndStop (cstr "a") (cstr "a")) 0 ++ playContainer 0 7 ++
      playCommand (startAndStop (cstr "a") (cstr "a")) 1)
    (fun s => (s.proc 0 0).map Proc.pc = some .program ∧ (s.engine.handler 1).pc = .stop ∧
      (s.engine.req 1).type = REQ_STOP ∧
      findContainerByIdLocked s.engine.table (s.engine.req 1).id = some 0) (by decide +kernel)
  obtain ⟨hp, hpc, htype, hfind⟩ := hs
  obtain ⟨p, hp, hprog⟩ := Option.map_eq_some_iff.mp hp
  have htyped := typed_runs_iff (startAndStop_nulFree (by decide) (by decide)) hr
  obtain ⟨hhost, -, hcmd⟩ := (htyped.1 0 0 p hp hprog).mpr (by decide)
  obtain ⟨g, ho, hid⟩ := htyped.2 1 0 (by simp [Pc.Idle, hpc]) (Or.inl htype) hfind
  refine ⟨s, p, hp, hhost, hcmd, g, ho, hid.mpr ?_⟩
  unfold startAndStop
  split_ifs <;> rfl

/-- Two names of 32 bytes that differ in the last one. -/
def longNames : ℕ → List CStr :=
  startAndStop (List.replicate 32 97) (List.replicate 31 97 ++ [98])

/-- The container is started, and answered with `ok`, under a name that nobody typed, and a stop of
another name than that of its start finds it. -/
theorem typed_name_cut : ∃ (s : Processes) (p : Proc),
    Transition.Run step (Typed longNames) init s ∧ s.proc 0 0 = some p ∧ p.pc = .program ∧
    (s.engine.handler 0).resp.ok = true ∧
    p.hostname ≠ some (word (longNames 0) 2) ∧ s.engine.owner 0 = some 0 ∧
    (s.engine.handler 1).pc = .stop ∧
    findContainerByIdLocked s.engine.table (s.engine.req 1).id = some 0 ∧
    word (longNames 0) 2 ≠ word (longNames 1) 2 := by
  obtain ⟨s, hr, hp, hok, ho, hpc, hfind⟩ := Transition.exists_run_of_exec step
    (Typed longNames) init
    (playCommand longNames 0 ++ playContainer 0 7 ++ playCommand longNames 1)
    (fun s => (s.proc 0 0).map (fun p => (p.pc, p.hostname)) =
        some (.program, some (List.replicate 31 97)) ∧ (s.engine.handler 0).resp.ok = true ∧
      s.engine.owner 0 = some 0 ∧ (s.engine.handler 1).pc = .stop ∧
      findContainerByIdLocked s.engine.table (s.engine.req 1).id = some 0) (by decide +kernel)
  obtain ⟨p, hp, hprog⟩ := Option.map_eq_some_iff.mp hp
  obtain ⟨hprog, hhost⟩ := Prod.mk.inj hprog
  exact ⟨s, p, hr, hp, hprog, hok, hhost ▸ by decide, ho, hpc, hfind, by decide⟩

end Processes

end Jackfruit
