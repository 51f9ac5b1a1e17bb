import Jackfruit.StartCalls

/-!
# What the table records of a request

A start copies its request into the slot that it reserves, each text as far as the field goes, and
the path of the log file is made of the text in the request. Nothing else writes these fields, and a
handler keeps its request, so for as long as the slot is used it records the request of its owner
(`records_of_run`).
-/

set_option linter.unusedSectionVars false

namespace Jackfruit

/-- The slot records this request. -/
structure Container.Records (c : Container) (req : Request) : Prop where
  id : c.id = safeStrcpy req.id MAX_ID_LEN
  rootfs : c.rootfs = safeStrcpy req.rootfs MAX_PATH_LEN
  command : c.command = safeStrcpy req.command MAX_CMD_LEN
  logFile : c.logFile = snprintf MAX_PATH_LEN (logFileOf req.id)
  softMib : c.softMib = req.softMib
  hardMib : c.hardMib = req.hardMib
  niceValue : c.niceValue = req.niceValue

theorem length_snprintf_lt (text : CStr) {size : ℕ} (hsize : 0 < size) :
    (snprintf size text).length < size := by
  rw [snprintf, List.length_take]
  omega

/-- A text that is copied twice is copied once. -/
theorem safeStrcpy_safeStrcpy (src : CStr) (size : ℕ) :
    safeStrcpy (safeStrcpy src size) size = safeStrcpy src size :=
  List.take_take.trans (by rw [min_self]; rfl)

/-- A text is copied as it is if and only if it fits. -/
theorem safeStrcpy_eq_iff {src : CStr} {size : ℕ} (hsize : 0 < size) :
    safeStrcpy src size = src ↔ src.length < size := by
  rw [safeStrcpy, snprintf, List.take_eq_self_iff]
  omega

/-- The handler has no request yet, or is done with it. -/
def Pc.Idle (pc : Pc) : Prop :=
  pc = .absent ∨ pc = .recv ∨ pc = .closed

namespace Engine

variable {s s' : Engine} {e : Event} {i : Slot} {g h : ℕ} {c : Container} {req : Request}
  {P : ℕ → Request → Prop}

/-- Only a reservation writes these fields. -/
theorem SlotStep.records (hs : SlotStep s e i c) (hr : (s.table i).Records req)
    (hu : (s.table i).used = true) : c.Records req := by
  cases hs with
  | reserve h now he hpc hck =>
    have hfree := (startContainerCheck_ok hck).1
    simp [hu] at hfree
  | _ => exact ⟨hr.id, hr.rootfs, hr.command, hr.logFile, hr.softMib, hr.hardMib, hr.niceValue⟩

/-- Where an owner comes from. -/
theorem owner_cases (hs : Effect s e s') (ho : s'.owner i = some g) :
    s.owner i = some g ∨ (∃ now, e = .reserve g now ∧ (s.handler g).pc = .reserve ∧
      startContainerCheck s.table (s.req g) = .ok i ∧ s' = s.reserved g i now) := by
  cases hs with
  | reserve h now idx hpc hck =>
    rcases eq_or_ne i idx with rfl | hne
    · have hown : Function.update s.owner i (some h) i = some g := ho
      rw [Function.update_self] at hown
      obtain rfl := Option.some.inj hown
      exact Or.inr ⟨now, rfl, hpc, hck, rfl⟩
    · exact Or.inl ((Function.update_of_ne hne _ _).symm.trans ho)
  | rollback h idx text hpc =>
    rcases eq_or_ne i idx with rfl | hne
    · have hown : Function.update s.owner i none i = some g := ho
      rw [Function.update_self] at hown
      cases hown
    · exact Or.inl ((Function.update_of_ne hne _ _).symm.trans ho)
  | _ => exact Or.inl ho

/-- An owner has had its request. -/
theorem Wf.owner_pc (w : Wf s) (ho : s.owner i = some h) :
    (s.handler h).pc ≠ .absent ∧ (s.handler h).pc ≠ .recv := by
  rcases w.owned i h ho with hres | ⟨-, hunborn, -⟩
  · constructor <;> intro hpc <;> simp [hpc, Pc.reserved] at hres
  · constructor <;> intro hpc <;> simp [hpc, Pc.unborn] at hunborn

/-- An owner keeps its request. -/
theorem Wf.owner_req (w : Wf s) (hs : s.step e = some s') (ho : s.owner i = some h) :
    s'.req h = s.req h := by
  refine (step_handler (step_effect hs) h).req_eq ?_
  rintro req rfl
  rcases step_pc hs h with hm | ⟨hne, -⟩
  · generalize hpc : (s.handler h).pc = pc at hm
    generalize (s'.handler h).pc = pc' at hm
    cases hm
    exact (w.owner_pc ho).2 hpc
  · exact hne rfl

/-! ## What the handlers have received -/

theorem PcMove.idle {pc pc' : Pc} (hm : PcMove h e pc pc') (hrecv : ∀ req, e ≠ .recv h req)
    (hpc : pc.Idle) : pc'.Idle := by
  cases hm with
  | accept => exact Or.inr (Or.inl rfl)
  | recv req => exact absurd rfl (hrecv req)
  | hangup => exact Or.inr (Or.inr rfl)
  | send => exact Or.inr (Or.inr rfl)
  | runEnter i pc pc' hpc' => rcases hpc' with rfl | rfl <;> simp [Pc.Idle] at hpc
  | _ => simp [Pc.Idle] at hpc

/-- Every handler that has its request has one with `P`. -/
def Received (P : ℕ → Request → Prop) (s : Engine) : Prop :=
  ∀ h, (s.handler h).pc.Idle ∨ P h (s.req h)

theorem Received.step (r : Received P s) (hs : s.step e = some s')
    (hP : ∀ h req, e = .recv h req → P h req) : Received P s' := by
  intro h
  by_cases hrecv : ∃ req, e = .recv h req
  · obtain ⟨req, rfl⟩ := hrecv
    obtain ⟨resp, hd⟩ := recv_handler hs
    have hreq : s'.req h = req := congrArg Handler.req hd
    exact Or.inr (hreq ▸ hP h req rfl)
  · have hrecv' (req : Request) : e ≠ .recv h req := fun he => hrecv ⟨req, he⟩
    have hreq : s'.req h = s.req h := (step_handler (step_effect hs) h).req_eq hrecv'
    rcases r h with hpc | hp
    · rcases step_pc hs h with hm | ⟨-, -, heq⟩
      · exact Or.inl (hm.idle hrecv' hpc)
      · exact Or.inl (heq ▸ hpc)
    · exact Or.inr (hreq ▸ hp)

theorem Received.of_run {C : Engine → Event → Prop} (hr : Transition.Run Engine.step C init s)
    (hP : ∀ t h req, C t (.recv h req) → P h req) : Received P s := by
  refine hr.invariant (fun h => Or.inl (Or.inl rfl)) fun t e u r hc hs => r.step hs ?_
  rintro h req rfl
  exact hP t h req hc

theorem dispatch_eq_reserve (h : dispatch req = .reserve) : req.Starts := by
  unfold dispatch at h
  split_ifs at h with hstart
  exact hstart

/-- Whoever reserves has received a start. -/
theorem reserve_starts {C : Engine → Event → Prop} (hr : Transition.Run Engine.step C init s)
    (hpc : (s.handler h).pc = .reserve) : (s.req h).Starts := by
  refine hr.invariant (I := fun t => (t.handler h).pc = .reserve → (t.req h).Starts)
    (fun hpc => ?_) (fun t e u ih _ hs hpc => ?_) hpc
  · simp [init, Handler.init] at hpc
  · rcases step_pc hs h with hm | ⟨-, -, heq⟩
    · rw [hpc] at hm
      generalize (t.handler h).pc = pc at hm
      generalize hpc' : Pc.reserve = pc' at hm
      cases hm with
      | recv req =>
        obtain ⟨resp, hd⟩ := recv_handler hs
        have hreq : u.req h = req := congrArg Handler.req hd
        exact hreq ▸ dispatch_eq_reserve hpc'.symm
      | register i pid pc hpc => rcases hpc with rfl | rfl <;> cases hpc'
      | stopEnter pc hpc => rcases hpc with rfl | ⟨i, pid, rfl⟩ <;> cases hpc'
      | runEnter i pc pc' _ hpc => rcases hpc with rfl | rfl <;> cases hpc'
      | _ => cases hpc'
    · rw [req, heq]
      exact ih (heq ▸ hpc)

/-- An owner has received a start. -/
theorem owner_received {C : Engine → Event → Prop} (hr : Transition.Run Engine.step C init s)
    (hP : ∀ t h req, C t (.recv h req) → P h req) (ho : s.owner i = some h) :
    P h (s.req h) ∧ (s.req h).Starts := by
  refine hr.invariant_of_reached
    (I := fun t => ∀ i, t.owner i = some h → P h (t.req h) ∧ (t.req h).Starts)
    (fun i ho => ?_) (fun t e u ht ih _ hs i ho => ?_) i ho
  · cases ho
  · rcases owner_cases (step_effect hs) ho with hold | ⟨now, rfl, hpc, -, -⟩
    · rw [(Wf.of_run ht).owner_req hs hold]
      exact ih i hold
    · have hreq : u.req h = t.req h := (step_handler (step_effect hs) h).req_eq nofun
      rw [hreq]
      exact ⟨(Received.of_run ht hP h).resolve_left (by simp [Pc.Idle, hpc]),
        reserve_starts ht hpc⟩

/-- Every used slot records the request of its owner. -/
def TableRecords (s : Engine) : Prop :=
  ∀ i h, s.owner i = some h → (s.table i).Records (s.req h)

theorem TableRecords.step (r : TableRecords s) (w : Wf s) (hs : s.step e = some s') :
    TableRecords s' := by
  intro i h ho
  have heff := step_effect hs
  rcases owner_cases heff ho with hold | ⟨now, rfl, hpc, hck, rfl⟩
  · rw [w.owner_req hs hold]
    exact (step_slot heff i).records (r i h hold) ((w.used_iff i).mpr ⟨h, hold⟩)
  · have hslot : (s.reserved h i now).table i = (s.table i).reserve (s.req h) now :=
      Function.update_self _ _ _
    have hreq : (s.reserved h i now).req h = s.req h :=
      (step_handler heff h).req_eq nofun
    rw [hslot, hreq]
    exact ⟨rfl, rfl, rfl, rfl, rfl, rfl, rfl⟩

theorem records_of_run {C : Engine → Event → Prop} (hr : Transition.Run Engine.step C init s) :
    TableRecords s := by
  refine hr.invariant_of_reached (fun i h ho => ?_) fun t e u ht r _ hs => r.step (.of_run ht) hs
  cases ho

end Engine

end Jackfruit
