import Jackfruit.LifeCycle
import Jackfruit.Records
import Jackfruit.SlotMap
import Jackfruit.TableSections

/-!
# The table of containers as a map from ids

What a client knows of the supervisor is a finite map from ids to records, with room for
`MAX_CONTAINERS` of them; in which slot a container is makes no difference to it. `registry` is the
map of a table, and `StoreStep` says what each step is on the map and what the client is told : a
start inserts its id or is refused for one of three reasons, a failed start erases it again, and
publishing, stopping and reaping overwrite the record of one id. `registry_refines` proves it of
every step of every run with requests that fit their fields.
-/

set_option linter.unusedSectionVars false

namespace Jackfruit

/-- What the table records of a container. -/
structure Record where
  pid : ℤ
  state : ContainerState
  rootfs : CStr
  command : CStr
  logFile : CStr
  softMib : ℤ
  hardMib : ℤ
  niceValue : ℤ
  exitCode : ℤ
  stopRequested : Bool
  startTime : ℤ
  deriving DecidableEq

/-- The finite map from ids to records. -/
abbrev Registry :=
  Finmap fun _ : CStr => Record

/-- What the registry knows of a slot. -/
def Container.record (c : Container) : Record :=
  ⟨c.pid, c.state, c.rootfs, c.command, c.logFile, c.softMib, c.hardMib, c.niceValue, c.exitCode,
    c.stopRequested, c.startTime⟩

namespace Record

/-- The record of a container that is being started. -/
def new (req : Request) (now : ℤ) : Record :=
  ⟨-1, .starting, req.rootfs, req.command, logFileOf req.id, req.softMib, req.hardMib,
    req.niceValue, -1, false, now⟩

/-- The container is STARTING or RUNNING. -/
def Live (r : Record) : Prop :=
  isLiveState r.state = true

instance (r : Record) : Decidable r.Live :=
  inferInstanceAs (Decidable (_ = _))

/-- A stop is noted. -/
def requestStop (r : Record) : Record :=
  { r with stopRequested := true }

/-- The end of the container is recorded. -/
def reap (r : Record) (status : ℕ) : Record :=
  { r with state := reapState r.stopRequested status, exitCode := reapExitCode status }

end Record

/-- What a slot holds. -/
def occupied (t : Table) (i : Slot) : Option (CStr × Record) :=
  if (t i).used then some ((t i).id, (t i).record) else none

/-- The map of a table. -/
def registry (t : Table) : Registry :=
  SlotMap.toMap (occupied t)

/-- A container in a live state uses this directory. -/
def RootfsInUse (R : Registry) (rootfs : CStr) : Prop :=
  ∃ id r, R.lookup id = some r ∧ r.Live ∧ r.rootfs = rootfs

variable {t : Table} {i : Slot} {id : CStr} {r : Record} {c : Container} {req : Request}

/-! ## Tables with distinct ids -/

/-- The used slots have distinct ids. -/
def Table.IdsDistinct (t : Table) : Prop :=
  ∀ i j, (t i).used = true → (t j).used = true → (t i).id = (t j).id → i = j

theorem occupied_eq_some : occupied t i = some (id, r) ↔
    (t i).used = true ∧ (t i).id = id ∧ (t i).record = r := by
  unfold occupied
  split_ifs with hu <;> simp [hu]

theorem Table.IdsDistinct.occupied (hd : t.IdsDistinct) : SlotMap.Distinct (occupied t) := by
  rintro i j ⟨id, r⟩ ⟨id', r'⟩ hi hj heq
  obtain ⟨hui, hidi, -⟩ := occupied_eq_some.mp hi
  obtain ⟨huj, hidj, -⟩ := occupied_eq_some.mp hj
  exact hd i j hui huj (hidi.trans (heq.trans hidj.symm))

theorem occupied_update : occupied (Function.update t i c) =
    Function.update (occupied t) i (if c.used then some (c.id, c.record) else none) := by
  funext j
  rcases eq_or_ne j i with rfl | hji
  · rw [Function.update_self, Jackfruit.occupied, Function.update_self]
  · rw [Function.update_of_ne hji, Jackfruit.occupied, Function.update_of_ne hji,
      Jackfruit.occupied]

theorem lookup_registry (hd : t.IdsDistinct) : (registry t).lookup id = some r ↔
    ∃ i, (t i).used = true ∧ (t i).id = id ∧ (t i).record = r := by
  rw [registry, SlotMap.lookup_toMap hd.occupied]
  exact exists_congr fun i => occupied_eq_some

/-- The record of a used slot. -/
theorem lookup_of_used (hd : t.IdsDistinct) (hu : (t i).used = true) :
    (registry t).lookup (t i).id = some (t i).record :=
  (lookup_registry hd).mpr ⟨i, hu, rfl, rfl⟩

theorem lookup_eq_find (hd : t.IdsDistinct) (id : CStr) :
    (registry t).lookup id = (findContainerByIdLocked t id).map fun i => (t i).record := by
  cases hfind : findContainerByIdLocked t id with
  | some i =>
    obtain ⟨hu, rfl⟩ := findContainerByIdLocked_spec hfind
    exact lookup_of_used hd hu
  | none =>
    refine SlotMap.lookup_eq_none.mpr fun i r hi => ?_
    obtain ⟨hu, hid, -⟩ := occupied_eq_some.mp hi
    simpa [hu, hid] using firstSlot_eq_none.mp hfind i

/-- Filling a slot that is free or has this id inserts in the map. -/
theorem registry_set (hd : t.IdsDistinct) (hc : c.used = true)
    (hi : (t i).used = true → (t i).id = c.id)
    (hk : ∀ j, (t j).used = true → (t j).id = c.id → j = i) :
    registry (Function.update t i c) = (registry t).insert c.id c.record := by
  rw [registry, occupied_update, if_pos hc]
  refine SlotMap.toMap_set hd.occupied ?_ ?_
  · rintro ⟨id, r⟩ hp
    obtain ⟨hu, rfl, -⟩ := occupied_eq_some.mp hp
    exact hi hu
  · rintro ⟨id, r⟩ j hq heq
    obtain ⟨hu, rfl, -⟩ := occupied_eq_some.mp hq
    exact hk j hu heq.symm

/-- Overwriting the record of a used slot. -/
theorem registry_overwrite (hd : t.IdsDistinct) (hu : (t i).used = true) (hc : c.used = true)
    (hid : c.id = (t i).id) :
    registry (Function.update t i c) = (registry t).insert (t i).id c.record := by
  rw [← hid]
  refine registry_set hd hc (fun _ => hid.symm) fun j huj hidj => ?_
  exact hd j i huj hu (hidj.trans hid)

/-- Freeing a slot erases its id. -/
theorem registry_clear (hd : t.IdsDistinct) (hu : (t i).used = true) (hc : c.used = false) :
    registry (Function.update t i c) = (registry t).erase (t i).id := by
  rw [registry, occupied_update, if_neg (by simp [hc])]
  exact SlotMap.toMap_clear hd.occupied (occupied_eq_some.mpr ⟨hu, rfl, rfl⟩)

/-- Tables that agree in what is recorded stand for the same map. -/
theorem registry_congr {t' : Table} (h : ∀ i, (t' i).used = (t i).used ∧ (t' i).id = (t i).id ∧
    (t' i).record = (t i).record) : registry t' = registry t := by
  refine congrArg SlotMap.toMap (funext fun i => ?_)
  obtain ⟨hu, hid, hr⟩ := h i
  rw [occupied, occupied, hu, hid, hr]

theorem card_registry_le (hd : t.IdsDistinct) : (registry t).keys.card ≤ MAX_CONTAINERS :=
  SlotMap.card_keys_le hd.occupied

theorem card_registry_eq_iff (hd : t.IdsDistinct) :
    (registry t).keys.card = MAX_CONTAINERS ↔ findFreeContainerSlotLocked t = none := by
  rw [registry, SlotMap.card_keys_eq_iff hd.occupied, findFreeContainerSlotLocked,
    firstSlot_eq_none]
  refine forall_congr' fun i => ?_
  unfold occupied
  cases (t i).used <;> simp

theorem rootfsInUse_iff (hd : t.IdsDistinct) (rootfs : CStr) :
    RootfsInUse (registry t) rootfs ↔ rootfsInUseLocked t rootfs = true := by
  rw [rootfsInUseLocked, Option.isSome_iff_ne_none, ne_eq, firstSlot_eq_none]
  push Not
  constructor
  · rintro ⟨id, r, hr, hlive, hroot⟩
    obtain ⟨i, hu, -, rfl⟩ := (lookup_registry hd).mp hr
    refine ⟨i, ?_⟩
    change isLiveState (t i).state = true at hlive
    change (t i).rootfs = rootfs at hroot
    simp [hu, hlive, hroot]
  · rintro ⟨i, hi⟩
    simp only [ne_eq, Bool.not_eq_false, Bool.and_eq_true, decide_eq_true_eq] at hi
    exact ⟨(t i).id, (t i).record, lookup_of_used hd hi.1.1, hi.1.2, hi.2⟩

/-! ## The operations -/

open Classical in
/-- Why the map refuses a start. -/
noncomputable def refusal (R : Registry) (req : Request) : Option CStr :=
  if req.id ∈ R then some (cstr "Container ID '" ++ req.id ++ cstr "' already exists")
  else if RootfsInUse R req.rootfs then
    some (cstr "Rootfs '" ++ req.rootfs ++ cstr "' is already used by a live container")
  else if R.keys.card = MAX_CONTAINERS then some (cstr "Max containers reached")
  else none

/-- The checks of a start are those of the map. -/
theorem startContainerCheck_refusal (hd : t.IdsDistinct) (req : Request) :
    match startContainerCheck t req with
    | .error text => refusal (registry t) req = some text
    | .ok i => refusal (registry t) req = none ∧ (t i).used = false ∧
        ∀ j, (t j).used = true → (t j).id ≠ req.id := by
  have hid : req.id ∈ registry t ↔ (findContainerByIdLocked t req.id).isSome := by
    rw [← Finmap.lookup_isSome, lookup_eq_find hd, Option.isSome_map]
  cases hck : startContainerCheck t req with
  | ok i =>
    refine ⟨?_, (startContainerCheck_ok hck).1, (startContainerCheck_ok hck).2.1⟩
    unfold startContainerCheck at hck
    split_ifs at hck with hfind hroot
    split at hck
    · cases hck
    · rename_i idx hfree
      rw [refusal, if_neg (mt hid.mp hfind), if_neg (mt (rootfsInUse_iff hd _).mp hroot), if_neg]
      rw [card_registry_eq_iff hd, hfree]
      nofun
  | error text =>
    unfold startContainerCheck at hck
    split_ifs at hck with hfind hroot
    · cases hck
      exact if_pos (hid.mpr hfind)
    · cases hck
      rw [refusal, if_neg (mt hid.mp hfind), if_pos ((rootfsInUse_iff hd _).mpr hroot)]
    · split at hck
      · rename_i hfree
        cases hck
        rw [refusal, if_neg (mt hid.mp hfind), if_neg (mt (rootfsInUse_iff hd _).mp hroot),
          if_pos ((card_registry_eq_iff hd).mpr hfree)]
      · cases hck

namespace Engine

/-- The handler answers this and is done. -/
def Answers (s' : Engine) (h : ℕ) (resp : Response) : Prop :=
  (s'.handler h).resp = resp ∧ (s'.handler h).pc = .send

/-- What a step is on the map, and what its client is told. -/
def StoreStep (s s' : Engine) (R R' : Registry) : Event → Prop
  | .reserve h now =>
    match refusal R (s.req h) with
    | some text => R' = R ∧ s'.Answers h (setResponse false (-1) text)
    | none => R' = R.insert (s.req h).id (Record.new (s.req h) now) ∧
        ∃ idx, (s'.handler h).pc = .pipe idx
  | .rollback h => ∃ r, R.lookup (s.req h).id = some r ∧ r.state = .starting ∧
      R' = R.erase (s.req h).id
  | .publish h => ∃ r c, R.lookup (s.req h).id = some r ∧ r.state = .starting ∧
      s.child h = some c ∧ R' = R.insert (s.req h).id { r with pid := c.pid, state := .running }
  | .stopEnter h =>
    match R.lookup (s.req h).id with
    | none => R' = R ∧
        s'.Answers h (setResponse false (-1) (cstr "No such container: " ++ (s.req h).id))
    | some r =>
      if r.Live then
        R' = R.insert (s.req h).id r.requestStop ∧ ∃ idx, (s'.handler h).pc = .stopKill idx r.pid
      else
        R' = R ∧ s'.Answers h (setResponse false (-1)
          (cstr "Container " ++ (s.req h).id ++ cstr " is not running"))
  | .runEnter h => R' = R ∧ ∃ r, R.lookup (s.req h).id = some r ∧
      if r.Live then ∃ idx, (s'.handler h).pc = .runWait idx
      else s'.Answers h (setResponse true r.exitCode
        (cstr "Container " ++ (s.req h).id ++ cstr " finished with state=" ++ r.state.text ++
          cstr " exit=" ++ decimal r.exitCode))
  | .reap => ∃ h pid status, s.reaper = .holding h ∧ s.child h = some ⟨pid, .reaped status⟩ ∧
      ((∀ id r, R.lookup id = some r → r.pid ≠ pid) ∧ R' = R ∨
        ∃ id r, R.lookup id = some r ∧ r.pid = pid ∧ R' = R.insert id (r.reap status))
  | .stopAll => ∀ id, R'.lookup id = (R.lookup id).map fun r =>
      if r.Live then r.requestStop else r
  | _ => R' = R

variable {s s' : Engine} {e : Event} {h : ℕ}

theorem SameButWaiters.registry_eq {t t' : Table} (h : SameButWaiters t t') :
    registry t' = registry t := by
  refine registry_congr fun i => ?_
  obtain ⟨cv, hcv⟩ := h i
  rw [hcv]
  exact ⟨rfl, rfl, rfl⟩

/-- A slot has the id of its owner's request. -/
theorem id_of_owner (hr : Transition.Run step RequestTerminated init s)
    (ho : s.owner i = some h) : (s.table i).used = true ∧ (s.table i).id = (s.req h).id := by
  refine ⟨((Wf.of_run hr).used_iff i).mpr ⟨h, ho⟩, ?_⟩
  rw [(records_of_run hr i h ho).id]
  exact safeStrcpy_eq ((Named.of_run hr).terminated h).1

/-- The record of a request that fits its fields. -/
theorem record_reserve (hreq : req.Terminated) (c : Container) (now : ℤ) :
    (c.reserve req now).record = Record.new req now ∧ (c.reserve req now).id = req.id := by
  have hlog : snprintf MAX_PATH_LEN (cstr "logs/" ++ req.id ++ cstr ".log") =
      logFileOf req.id := by
    refine List.take_of_length_le ?_
    have hlen := hreq.1
    have hdir : (cstr "logs/").length = 5 := by decide
    have hext : (cstr ".log").length = 4 := by decide
    simp only [MAX_ID_LEN] at hlen
    simp only [List.length_append, hdir, hext, MAX_PATH_LEN]
    omega
  refine ⟨?_, safeStrcpy_eq hreq.1⟩
  simp only [Container.record, Container.reserve, Record.new, safeStrcpy_eq hreq.2.1,
    safeStrcpy_eq hreq.2.2, hlog]

/-- A start takes a free slot and inserts its id, or is refused. -/
theorem storeStep_reserve (hr : Transition.Run step RequestTerminated init s) {now : ℤ}
    (hs : step s (.reserve h now) = some s') :
    StoreStep s s' (registry s.table) (registry s'.table) (.reserve h now) := by
  have hd : Table.IdsDistinct s.table := (Named.of_run hr).distinct
  obtain ⟨htable, hgoes⟩ := @section_of_step (fun _ => []) _ _ _ hs
  have hck := startContainerCheck_refusal hd (s.req h)
  simp only [StoreStep, TableSection.meaning] at htable hgoes ⊢
  cases hcheck : startContainerCheck s.table (s.req h) with
  | error text =>
    simp only [hcheck] at hck htable hgoes
    rw [hck, htable]
    exact ⟨rfl, hgoes h rfl⟩
  | ok idx =>
    simp only [hcheck] at hck htable hgoes
    obtain ⟨hnone, hfree, hnew⟩ := hck
    obtain ⟨hrec, hid⟩ :=
      record_reserve ((Named.of_run hr).terminated h) (s.table idx) now
    rw [hnone, htable, registry_set hd rfl, hrec, hid]
    · exact ⟨rfl, idx, hgoes h rfl⟩
    · exact fun hu => by simp [hfree] at hu
    · exact fun j hu hj => absurd (hj.trans hid) (hnew j hu)

/-- A failed start erases its id again. -/
theorem storeStep_rollback (hr : Transition.Run step RequestTerminated init s)
    (hs : step s (.rollback h) = some s') :
    StoreStep s s' (registry s.table) (registry s'.table) (.rollback h) := by
  have hd : Table.IdsDistinct s.table := (Named.of_run hr).distinct
  have hnext := (step_next hs).2
  simp only [next, startStep] at hnext
  split at hnext
  · rename_i idx text hpc
    cases hnext
    obtain ⟨ho, hst, -⟩ := (Wf.of_run hr).reserved h idx (by rw [hpc]; rfl)
    obtain ⟨hu, hid⟩ := id_of_owner hr ho
    refine ⟨(s.table idx).record, hid ▸ lookup_of_used hd hu, hst, ?_⟩
    rw [← hid]
    exact registry_clear hd hu rfl
  · cases hnext

/-- A start that has its child writes the pid into the record of its id. -/
theorem storeStep_publish (hr : Transition.Run step RequestTerminated init s)
    (hs : step s (.publish h) = some s') :
    StoreStep s s' (registry s.table) (registry s'.table) (.publish h) := by
  have hd : Table.IdsDistinct s.table := (Named.of_run hr).distinct
  have hnext := (step_next hs).2
  simp only [next, startStep] at hnext
  split at hnext
  · rename_i idx pid hpc
    cases hnext
    obtain ⟨ho, hst, -⟩ := (Wf.of_run hr).reserved h idx (by rw [hpc]; rfl)
    obtain ⟨c, hc, hpid⟩ := (Wf.of_run hr).inFlight h pid (by rw [hpc]; rfl)
    obtain ⟨hu, hid⟩ := id_of_owner hr ho
    refine ⟨(s.table idx).record, c, hid ▸ lookup_of_used hd hu, hst, hc, ?_⟩
    rw [← hid, hpid]
    exact registry_overwrite hd hu hu rfl
  · cases hnext

/-- A stop request looks its id up. -/
theorem storeStep_stopEnter (hr : Transition.Run step RequestTerminated init s)
    (hs : step s (.stopEnter h) = some s') :
    StoreStep s s' (registry s.table) (registry s'.table) (.stopEnter h) := by
  have hd : Table.IdsDistinct s.table := (Named.of_run hr).distinct
  obtain ⟨htable, hgoes⟩ := @section_of_step (fun _ => []) _ _ _ hs
  simp only [StoreStep, TableSection.meaning, lookup_eq_find hd] at htable hgoes ⊢
  cases hfind : findContainerByIdLocked s.table (s.req h).id with
  | none =>
    simp only [hfind] at htable hgoes
    rw [htable]
    exact ⟨rfl, hgoes h rfl⟩
  | some idx =>
    obtain ⟨hu, hid⟩ := findContainerByIdLocked_spec hfind
    have hlive : (s.table idx).record.Live ↔ isLiveState (s.table idx).state = true := Iff.rfl
    simp only [hfind] at htable hgoes
    simp only [Option.map_some, hlive]
    split_ifs at htable hgoes ⊢
    · rw [htable, ← hid]
      exact ⟨registry_overwrite hd hu hu rfl, idx, hgoes h rfl⟩
    · rw [htable]
      exact ⟨rfl, hgoes h rfl⟩

theorem registry_waiters (t : Table) (i : Slot) (cv : CondVar ℕ) :
    registry (Function.update t i { t i with stateCv := cv }) = registry t := by
  refine SameButWaiters.registry_eq fun j => ?_
  rcases eq_or_ne j i with rfl | hji
  · exact ⟨cv, Function.update_self _ _ _⟩
  · exact ⟨(t j).stateCv, Function.update_of_ne hji _ _⟩

/-- A run handler looks at the record of its own id. -/
theorem storeStep_runEnter (hr : Transition.Run step RequestTerminated init s)
    (hs : step s (.runEnter h) = some s') :
    StoreStep s s' (registry s.table) (registry s'.table) (.runEnter h) := by
  have hd : Table.IdsDistinct s.table := (Named.of_run hr).distinct
  have hsection := @section_of_step (fun _ => []) _ _ _ hs
  cases hready : s.runReady h with
  | none =>
    have hnext := (step_next hs).2
    simp only [next, handlerStep, hready] at hnext
    cases hnext
  | some idx =>
    have hpub : (s.handler h).pc.published = some idx := by
      rcases runReady_spec hready with hpc | hpc <;> rw [hpc] <;> rfl
    obtain ⟨hu, hid⟩ := id_of_owner hr ((Wf.of_run hr).published h idx hpub).1
    simp only [sectionOf, hready, Option.map_some, TableSection.meaning] at hsection
    obtain ⟨htable, hgoes⟩ := hsection
    have hlive : (s.table idx).record.Live ↔ isLiveState (s.table idx).state = true := Iff.rfl
    have hlook : (registry s.table).lookup (s.req h).id = some (s.table idx).record :=
      hid ▸ lookup_of_used hd hu
    split_ifs at htable hgoes with hst
    · refine ⟨by rw [htable, registry_waiters], _, hlook, ?_⟩
      rw [if_pos (hlive.mpr hst)]
      exact ⟨idx, hgoes⟩
    · refine ⟨by rw [htable, registry_waiters], _, hlook, ?_⟩
      rw [if_neg (mt hlive.mp hst)]
      exact hgoes

/-- The reaper overwrites the record of one id that has the pid, if there is any. -/
theorem storeStep_reap (hr : Transition.Run step RequestTerminated init s)
    (hs : step s .reap = some s') :
    StoreStep s s' (registry s.table) (registry s'.table) .reap := by
  have hd : Table.IdsDistinct s.table := (Named.of_run hr).distinct
  obtain ⟨h, pid, status, hreaper, hc, rfl⟩ := effect_reap (step_effect hs)
  refine ⟨h, pid, status, hreaper, hc, ?_⟩
  change _ ∧ registry (reaperUpdate s.table pid status) = _ ∨
    ∃ id r, _ ∧ _ ∧ registry (reaperUpdate s.table pid status) = _
  unfold reaperUpdate
  cases hfind : findContainerByPid s.table pid with
  | none =>
    refine Or.inl ⟨fun id r hlook hpid => ?_, rfl⟩
    obtain ⟨i, hu, -, rfl⟩ := (lookup_registry hd).mp hlook
    obtain ⟨j, hj⟩ := exists_findContainerByPid hu hpid
    rw [hfind] at hj
    cases hj
  | some i =>
    obtain ⟨hu, hpid⟩ := findContainerByPid_spec hfind
    exact Or.inr ⟨_, _, lookup_of_used hd hu, hpid, registry_overwrite hd hu hu rfl⟩

/-- The shutdown notes a stop in every live record. -/
theorem storeStep_stopAll (hr : Transition.Run step RequestTerminated init s)
    (hs : step s .stopAll = some s') :
    StoreStep s s' (registry s.table) (registry s'.table) .stopAll := by
  have hd : Table.IdsDistinct s.table := (Named.of_run hr).distinct
  have hd' : Table.IdsDistinct s'.table := (Named.of_run (hr.tail .stopAll trivial hs)).distinct
  have htable : s'.table = stopAllLiveContainers s.table :=
    (@section_of_step (fun _ => []) _ _ _ hs).1
  intro id
  have hkept (i : Slot) : (s'.table i).used = (s.table i).used ∧
      (s'.table i).id = (s.table i).id := by
    rw [htable, stopAllLiveContainers]
    split_ifs <;> exact ⟨rfl, rfl⟩
  have hfind : findContainerByIdLocked s'.table id = findContainerByIdLocked s.table id := by
    refine congrArg firstSlot (funext fun i => ?_)
    rw [(hkept i).1, (hkept i).2]
  rw [lookup_eq_find hd', lookup_eq_find hd, hfind, Option.map_map]
  cases hi : findContainerByIdLocked s.table id with
  | none => rfl
  | some i =>
    have hu := (findContainerByIdLocked_spec hi).1
    have hlive : (s.table i).record.Live ↔ i ∈ liveSlots s.table := by
      rw [mem_liveSlots]
      exact (and_iff_right hu).symm
    rw [Option.map_some, Option.map_some, htable, stopAllLiveContainers, Function.comp_apply]
    simp only [hlive]
    split_ifs <;> rfl

/-- In every run with requests that fit their fields the table stands for a map with at most
`MAX_CONTAINERS` ids, empty at first, and the next step is its operation on the map, with the answer
that the map gives. -/
theorem registry_refines (hr : Transition.Run step RequestTerminated init s) :
    registry init.table = ∅ ∧ (registry s.table).keys.card ≤ MAX_CONTAINERS ∧
      ∀ e s', step s e = some s' → StoreStep s s' (registry s.table) (registry s'.table) e := by
  refine ⟨?_, card_registry_le (Named.of_run hr).distinct, fun e s' hs => ?_⟩
  · exact Finmap.ext_lookup fun id => lookup_eq_find (fun i _ hu => by cases hu) id
  · have hsection := @section_of_step (fun _ => []) _ _ _ hs
    cases e with
    | reserve h now => exact storeStep_reserve hr hs
    | rollback h => exact storeStep_rollback hr hs
    | publish h => exact storeStep_publish hr hs
    | stopEnter h => exact storeStep_stopEnter hr hs
    | runEnter h => exact storeStep_runEnter hr hs
    | reap => exact storeStep_reap hr hs
    | stopAll => exact storeStep_stopAll hr hs
    | _ => exact SameButWaiters.registry_eq hsection

/-- A start of an id that is there already. -/
theorem registry_refines_refusal : ∃ s s' : Engine, (s.table 0).used = true ∧
    s'.Answers 1 (setResponse false (-1) (cstr "Container ID 'a' already exists")) ∧
      StoreStep s s' (registry s.table) (registry s'.table) (.reserve 1 0) := by
  obtain ⟨s, hr, hu, hs⟩ := Transition.exists_run_of_exec step RequestTerminated init
    (playClone 0 REQ_START "a" 7 ++ playPublish 0 ++
      [.loopTest, .accept 1, .recv 1 ⟨REQ_START, cstr "a", cstr "b", cstr "true", 40, 64, 0⟩])
    (fun s => (s.table 0).used = true ∧ ((step s (.reserve 1 0)).any fun s' =>
      (s'.handler 1).resp = setResponse false (-1) (cstr "Container ID 'a' already exists") ∧
        (s'.handler 1).pc = .send) = true)
    (by decide +kernel)
  obtain ⟨s', hs', hresp⟩ := (Option.any_eq_true _ _).mp hs
  have hanswer : (s'.handler 1).resp =
      setResponse false (-1) (cstr "Container ID 'a' already exists") ∧
      (s'.handler 1).pc = .send := of_decide_eq_true hresp
  exact ⟨s, s', hu, hanswer, (registry_refines hr).2.2 _ _ hs'⟩

end Engine

end Jackfruit
