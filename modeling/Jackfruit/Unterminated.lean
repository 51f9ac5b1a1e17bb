import Jackfruit.LifeCycle
import Jackfruit.Records
import Jackfruit.Wire

/-!
# Ids that are not terminated

A client may send any `REQUEST_SIZE` bytes. If the field of the id has no NUL, the handler reads on
into the next field, up to the first NUL : the id that it looks up and the path that it makes of it
are longer than the field, and the slot keeps a cut copy. Then the record names another log file
than the slot has, and another start may have the id that was cut off (`two_records_of_one_id`).

A record is consistent exactly if its request has a NUL in the field of the id and no earlier slot
has a cut copy of a longer id in its place.
-/

set_option linter.unusedSectionVars false

namespace Jackfruit

variable {t : Table} {c : Container} {req : Request} {i : Slot}

/-- The slot has the log file of its id and is the one that its id leads to. -/
def Consistent (t : Table) (i : Slot) : Prop :=
  (t i).logFile = logFileOf (t i).id ∧ findContainerByIdLocked t (t i).id = some i

instance (t : Table) (i : Slot) : Decidable (Consistent t i) :=
  inferInstanceAs (Decidable (_ ∧ _))

theorem length_logFileOf (id : CStr) : (logFileOf id).length = id.length + 9 := by
  have h₁ : (cstr "logs/").length = 5 := by decide
  have h₂ : (cstr ".log").length = 4 := by decide
  rw [logFileOf, List.length_append, List.length_append, h₁, h₂]
  omega

/-- The log file is that of the recorded id if the id fits its field, and only then. -/
theorem Container.Records.logFile_iff (hr : c.Records req) :
    c.logFile = logFileOf c.id ↔ req.id.length < MAX_ID_LEN := by
  rw [hr.id, hr.logFile]
  constructor
  · intro h
    have hlen := congrArg List.length h
    rw [snprintf, List.length_take, length_logFileOf, length_logFileOf, safeStrcpy, snprintf,
      List.length_take] at hlen
    simp only [MAX_PATH_LEN, MAX_ID_LEN] at hlen ⊢
    omega
  · intro h
    rw [(safeStrcpy_eq_iff (by decide)).mpr h, snprintf, List.take_of_length_le]
    rw [length_logFileOf]
    simp only [MAX_PATH_LEN, MAX_ID_LEN] at h ⊢
    omega

namespace Engine

variable {s : Engine} {h : ℕ} {msg : ℕ → List UInt8}

/-- The request of `h` is the message `msg h`, of any bytes with a NUL in or after the id. -/
def Sends (msg : ℕ → List UInt8) (_ : Engine) : Event → Prop
  | .recv h req =>
    (msg h).length = REQUEST_SIZE ∧ 0 ∈ (msg h).drop 4 ∧ req = decodeRequest (msg h)
  | _ => True

/-- A start that enters its first critical section has the NUL of its id in the field. -/
def IdInField (msg : ℕ → List UInt8) (_ : Engine) : Event → Prop
  | .reserve h _ => 0 ∈ ((msg h).drop 4).take MAX_ID_LEN
  | _ => True

instance (s : Engine) (e : Event) : Decidable (Sends msg s e) := by
  rcases e <;> dsimp only [Sends] <;> infer_instance

instance (s : Engine) (e : Event) : Decidable (IdInField msg s e) := by
  rcases e <;> dsimp only [IdInField] <;> infer_instance

/-- An owner has its message in the request. -/
theorem owner_message (hr : Transition.Run Engine.step (Sends msg) init s)
    (ho : s.owner i = some h) : 0 ∈ (msg h).drop 4 ∧ s.req h = decodeRequest (msg h) :=
  (owner_received (P := fun h req => 0 ∈ (msg h).drop 4 ∧ req = decodeRequest (msg h)) hr
    (fun _ _ _ hc => hc.2) ho).1

/-- The ids are distinct and fit their fields if every start that gets to the table has the NUL of
its id in the field. -/
theorem ids_of_run
    (hr : Transition.Run Engine.step (fun s e => Sends msg s e ∧ IdInField msg s e) init s) :
    IdsDistinct s ∧
      ∀ i h, s.owner i = some h → 0 ∈ ((msg h).drop 4).take MAX_ID_LEN := by
  refine hr.invariant_of_reached (I := fun t => IdsDistinct t ∧
    ∀ i h, t.owner i = some h → 0 ∈ ((msg h).drop 4).take MAX_ID_LEN)
    ⟨fun i j hi => ?_, fun i h ho => ?_⟩ fun t e u ht ⟨hd, hf⟩ hc hs => ⟨?_, fun i h ho => ?_⟩
  · simp [init, initContainers, Container.init] at hi
  · cases ho
  · refine hd.step (step_effect hs) ?_
    rintro h now rfl hpc
    obtain ⟨hnul, hreq⟩ := (Received.of_run
      (P := fun h req => 0 ∈ (msg h).drop 4 ∧ req = decodeRequest (msg h)) ht
      (fun t h req hc => hc.1.2) h).resolve_left (by simp [Pc.Idle, hpc])
    rw [hreq]
    exact (decodeString_length_lt_iff hnul).mpr hc.2
  · rcases owner_cases (step_effect hs) ho with hold | ⟨now, rfl, -⟩
    · exact hf i h hold
    · exact hc.2

/-- Whatever messages the clients send : the record of a start that returned `0` is consistent
exactly if its message has a NUL in the field of the id, and no earlier slot has a cut copy of the
same id. If every start that gets to the table has that NUL, all these records are consistent. -/
theorem record_consistent_iff (hr : Transition.Run step (Sends msg) init s) :
    (∀ h i, s.started h = some i → (Consistent s.table i ↔
      0 ∈ ((msg h).drop 4).take MAX_ID_LEN ∧ ∀ j < i, ∀ g, s.owner j = some g →
        safeStrcpy (decodeString (msg g) 4) MAX_ID_LEN ≠ decodeString (msg h) 4)) ∧
    (Transition.Run step (fun s e => Sends msg s e ∧ IdInField msg s e) init s →
      ∀ h i, s.started h = some i → Consistent s.table i) := by
  have w := Wf.of_run hr
  have hrec := records_of_run hr
  constructor
  · intro h i hst
    have ho := (w.started h i hst).1
    obtain ⟨hnul, hreq⟩ := owner_message hr ho
    have hlen : (s.req h).id.length < MAX_ID_LEN ↔ 0 ∈ ((msg h).drop 4).take MAX_ID_LEN := by
      rw [hreq]
      exact decodeString_length_lt_iff hnul
    rw [Consistent, (hrec i h ho).logFile_iff, hlen,
      findContainerByIdLocked_self_iff ((w.used_iff i).mpr ⟨h, ho⟩)]
    refine and_congr_right fun hfits => ?_
    have hid : (s.table i).id = decodeString (msg h) 4 := by
      rw [(hrec i h ho).id, (safeStrcpy_eq_iff (by decide)).mpr (hlen.mpr hfits), hreq]
      rfl
    have hother (j : Slot) (g : ℕ) (hj : s.owner j = some g) :
        (s.table j).id = safeStrcpy (decodeString (msg g) 4) MAX_ID_LEN := by
      rw [(hrec j g hj).id, (owner_message hr hj).2]
      rfl
    constructor
    · intro hfirst j hji g hj
      rw [← hother j g hj, ← hid]
      exact hfirst j hji ((w.used_iff j).mpr ⟨g, hj⟩)
    · intro hfirst j hji hu
      obtain ⟨g, hj⟩ := (w.used_iff j).mp hu
      rw [hother j g hj, hid]
      exact hfirst j hji g hj
  · intro hr' h i hst
    have ho := (w.started h i hst).1
    have hu := (w.used_iff i).mpr ⟨h, ho⟩
    obtain ⟨hd, hf⟩ := ids_of_run hr'
    obtain ⟨hnul, hreq⟩ := owner_message hr ho
    refine ⟨(hrec i h ho).logFile_iff.mpr ?_, (findContainerByIdLocked_self_iff hu).mpr ?_⟩
    · rw [hreq]
      exact (decodeString_length_lt_iff hnul).mpr (hf i h ho)
    · exact fun j hji huj hid => hji.ne (hd j i huj hu hid)

/-- A message with an id of up to 32 bytes; with 32 there is no NUL in its field. -/
def startMessage (id : CStr) (rootfs : String) : List UInt8 :=
  encodeRequest ⟨REQ_START, id, cstr rootfs, cstr "true", 40, 64, 0⟩

/-- A start with its message, up to the first critical section. -/
def playReserve (msg : ℕ → List UInt8) (h : ℕ) : List Event :=
  [.loopTest, .accept h, .recv h (decodeRequest (msg h)), .reserve h 0]

/-- The rest of a start that succeeds. -/
def playStarted (h : ℕ) (pid : ℤ) : List Event :=
  [.pipe h none, .mallocStack h true, .mallocChild h true, .clone h (.ok pid), .mallocArg h true,
    .publish h, .createProducer h true, .register h]

/-- The longest id that fits. -/
theorem record_consistent_iff_fits : ∃ s : Engine, s.started 0 = some 0 ∧ Consistent s.table 0 := by
  let msg (_ : ℕ) := startMessage (List.replicate 31 97) "r"
  obtain ⟨s, hr, hst⟩ := Transition.exists_run_of_exec step
    (fun s e => Sends msg s e ∧ IdInField msg s e) init
    (playReserve msg 0 ++ playStarted 0 7) (fun s => s.started 0 = some 0) (by decide +kernel)
  exact ⟨s, hst, (record_consistent_iff (hr.mono fun _ _ hc => hc.1)).2 hr 0 0 hst⟩

/-- Two messages with the same 31 bytes of an id; the second one's field has no NUL. -/
def twoIds (h : ℕ) : List UInt8 :=
  if h = 0 then startMessage (cstr "b") "b"
  else if h = 1 then startMessage (List.replicate 31 97) "c"
  else startMessage (List.replicate 32 97) "d"

/-- The second start passes the check for its id and takes a slot before the first one's, with a
log file that no record names; the first container cannot be reached any more. -/
theorem two_records_of_one_id : ∃ s : Engine, Transition.Run step (Sends twoIds) init s ∧
    s.started 1 = some 1 ∧ s.started 2 = some 0 ∧ (s.table 0).id = (s.table 1).id ∧
    ¬(s.table 0).logFile = logFileOf (s.table 0).id ∧
    ¬findContainerByIdLocked s.table (s.table 1).id = some 1 := by
  obtain ⟨s, hr, hs⟩ := Transition.exists_run_of_exec step (Sends twoIds) init
    (playReserve twoIds 0 ++ playReserve twoIds 1 ++ playStarted 1 7 ++
      [.pipe 0 (some (cstr "EMFILE")), .rollback 0] ++ playReserve twoIds 2 ++ playStarted 2 8)
    (fun s => s.started 1 = some 1 ∧ s.started 2 = some 0 ∧ (s.table 0).id = (s.table 1).id ∧
      ¬(s.table 0).logFile = logFileOf (s.table 0).id ∧
      ¬findContainerByIdLocked s.table (s.table 1).id = some 1) (by decide +kernel)
  exact ⟨s, hr, hs⟩

end Engine

end Jackfruit
