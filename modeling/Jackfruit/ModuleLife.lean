import Jackfruit.MonitorList

/-!
# Loading and unloading the monitor

`monitor_init` makes five calls, each of which can fail, and undoes those before it by hand;
`monitor_exit` undoes all of them. While the device is there, requests come in, also while
`monitor_init` is still at work, and while the thread runs, passes do. The kernel's own functions
are used as they allow it : nothing is made twice, nothing is taken back that is not there or that
something else still stands on (`ModuleResource.needs`).

`module_life` says that every call of the module is one of these, that nothing is held while the
module is not loaded, and that `monitor_exit` frees every entry. A failed `monitor_init` does not
look at the list : what came in before the failure is lost, and only that. Requests that still come
in later, through a file that was opened before the device was taken back, are left out.
-/

set_option linter.unusedSectionVars false

namespace Jackfruit

/-- What `monitor_init` makes. -/
inductive ModuleResource
  /-- `alloc_chrdev_region`. -/
  | region
  /-- `cdev_add`. -/
  | cdev
  /-- `class_create`. -/
  | class_
  /-- `device_create`. -/
  | device
  /-- `kthread_run`. -/
  | thread
  deriving DecidableEq

/-- What it stands on. -/
def ModuleResource.needs : ModuleResource → List ModuleResource
  | .region => []
  | .cdev => [.region]
  | .class_ => []
  | .device => [.region, .class_]
  | .thread => []

/-- The next call of `monitor_init`. -/
def ModuleResource.next : ModuleResource → Option ModuleResource
  | .region => some .cdev
  | .cdev => some .class_
  | .class_ => some .device
  | .device => some .thread
  | .thread => none

/-- What `monitor_init` takes back, and in which order, when this call fails. -/
def ModuleResource.undo : ModuleResource → List ModuleResource
  | .region => []
  | .cdev => [.region]
  | .class_ => [.cdev, .region]
  | .device => [.class_, .cdev, .region]
  | .thread => [.device, .class_, .cdev, .region]

/-- Where the module is. -/
inductive ModulePc
  | unloaded
  /-- In `monitor_init` at this call. -/
  | init (call : ModuleResource)
  /-- In `monitor_init` after a failure, with these to take back and this to return. -/
  | undo (todo : List ModuleResource) (ret : ℤ)
  | loaded
  /-- In `monitor_exit` at `kthread_stop`. -/
  | stopThread
  /-- In `monitor_exit` at the list. -/
  | freeEntries
  /-- In `monitor_exit` with these to take back. -/
  | exit (todo : List ModuleResource)
  deriving DecidableEq

/-- The module with what it holds of the kernel and its list. -/
structure Module where
  pc : ModulePc
  held : List ModuleResource
  list : List MonitorEntry
  /-- The entries that were allocated when a `monitor_init` gave up. No step reads it. -/
  lost : List MonitorEntry
  /-- What the calls of `monitor_init` have returned. No step reads it. -/
  returned : List ℤ

/-- What the kernel asks of the module, and the calls that the module makes. -/
inductive ModuleEvent
  | insmod
  /-- The call `monitor_init` is at, with its error if it fails. -/
  | call (err : Option ℤ)
  /-- The next one is taken back, or everything has been and the function returns. -/
  | undo
  | rmmod
  | stopThread
  | freeEntries
  | ioctl (cmd : ℕ) (reqArg : Option MonitorRequest) (pidArg : Option ℤ) (kmalloc : Bool)
  | pass (obs : ℤ → Observation)

namespace Module

/-- Not loaded yet. -/
def initial : Module :=
  ⟨.unloaded, [], [], [], []⟩

variable (m : Module)

/-- A call makes `r`. -/
def make (r : ModuleResource) : Option Module :=
  if r ∉ m.held ∧ ∀ n ∈ r.needs, n ∈ m.held then some { m with held := r :: m.held } else none

/-- A call takes `r` back. -/
def takeBack (r : ModuleResource) : Option Module :=
  if r ∈ m.held ∧ ∀ n ∈ m.held, r ∉ n.needs then some { m with held := m.held.erase r } else none

/-- One step. A module that is loaded begins with an empty list; one that is being unloaded has no
users. -/
def step : ModuleEvent → Option Module
  | .insmod =>
    if m.pc = .unloaded then some { m with pc := .init .region, list := [] } else none
  | .call err =>
    match m.pc, err with
    | .init r, none =>
      (m.make r).map fun m => match r.next with
        | some r => { m with pc := .init r }
        | none => { m with pc := .loaded, returned := m.returned ++ [0] }
    | .init r, some errno => some { m with pc := .undo r.undo errno }
    | _, _ => none
  | .undo =>
    match m.pc with
    | .undo [] ret =>
      some { m with
        pc := .unloaded, list := [], lost := m.lost ++ m.list, returned := m.returned ++ [ret] }
    | .undo (r :: todo) ret => (m.takeBack r).map fun m => { m with pc := .undo todo ret }
    | .exit [] => some { m with pc := .unloaded, lost := m.lost ++ m.list, list := [] }
    | .exit (r :: todo) => (m.takeBack r).map fun m => { m with pc := .exit todo }
    | _ => none
  | .rmmod => if m.pc = .loaded then some { m with pc := .stopThread } else none
  | .stopThread =>
    if m.pc = .stopThread then
      (m.takeBack .thread).map fun m => { m with pc := .freeEntries }
    else none
  | .freeEntries =>
    if m.pc = .freeEntries then
      some { m with pc := .exit [.device, .class_, .cdev, .region], list := [] }
    else none
  | .ioctl cmd reqArg pidArg kmalloc =>
    match m.pc with
    | .init _ | .undo _ _ | .loaded =>
      if .cdev ∈ m.held then
        some { m with list := (monitorIoctl cmd reqArg pidArg kmalloc m.list).2 }
      else none
    | _ => none
  | .pass obs =>
    if .thread ∈ m.held then some { m with list := (monitorThreadPass obs m.list).1 } else none

/-- What is held at each program point. -/
def heldAt : ModulePc → List ModuleResource
  | .unloaded => []
  | .init r => r.undo
  | .undo todo _ => todo
  | .loaded | .stopThread => [.thread, .device, .class_, .cdev, .region]
  | .freeEntries => [.device, .class_, .cdev, .region]
  | .exit todo => todo

/-- What `monitor_exit` takes back after the thread. -/
abbrev exitOrder : List ModuleResource :=
  [.device, .class_, .cdev, .region]

/-- The invariant : what is held is known from the program point, and the list is a list of the
monitor, empty while nobody can get at it. -/
structure Wf (m : Module) : Prop where
  held : m.held = heldAt m.pc
  undo : ∀ todo ret, m.pc = .undo todo ret → todo <:+ exitOrder
  exit : ∀ todo, m.pc = .exit todo → todo <:+ exitOrder ∧ m.list = []
  unloaded : m.pc = .unloaded → m.list = []
  list : Monitor.Reachable m.list

variable {m m' : Module} {e : ModuleEvent} {r : ModuleResource} {todo : List ModuleResource}

theorem make_undo (r : ModuleResource) : r ∉ r.undo ∧ ∀ n ∈ r.needs, n ∈ r.undo := by
  cases r <;> decide

theorem undo_suffix (r : ModuleResource) : r.undo <:+ exitOrder := by
  cases r <;> decide

/-- The first of the things to take back is there, and nothing that is there stands on it. -/
theorem takeBack_suffix (h : r :: todo <:+ exitOrder) :
    (∀ n ∈ r :: todo, r ∉ n.needs) ∧ todo <:+ exitOrder := by
  refine ⟨?_, (List.suffix_cons r todo).trans h⟩
  have hmem : r :: todo ∈ exitOrder.tails := (List.mem_tails _ _).mpr h
  simp only [List.tails, List.mem_cons, List.cons.injEq, List.not_mem_nil, or_false,
    reduceCtorEq] at hmem
  rcases hmem with ⟨rfl, rfl⟩ | ⟨rfl, rfl⟩ | ⟨rfl, rfl⟩ | ⟨rfl, rfl⟩ <;> decide

theorem Wf.make (w : Wf m) (hpc : m.pc = .init r) :
    m.make r = some { m with held := r :: m.held } := by
  have hheld : m.held = r.undo := by rw [w.held, hpc, heldAt]
  refine if_pos ?_
  rw [hheld]
  exact make_undo r

/-- The calls that take something back. -/
theorem Wf.takeBack (w : Wf m) (htodo : r :: todo <:+ exitOrder) (hpc : heldAt m.pc = r :: todo) :
    m.takeBack r = some { m with held := todo } := by
  have hheld : m.held = r :: todo := w.held.trans hpc
  rw [Module.takeBack, hheld, List.erase_cons_head]
  exact if_pos ⟨List.mem_cons_self, (takeBack_suffix htodo).1⟩

theorem Wf.takeBack_thread (w : Wf m) (hpc : m.pc = .stopThread) :
    m.takeBack .thread = some { m with held := exitOrder } := by
  have hheld : m.held = .thread :: exitOrder := by rw [w.held, hpc, heldAt]
  rw [Module.takeBack, hheld, List.erase_cons_head]
  exact if_pos (by decide)

theorem Wf.step (w : Wf m) (hs : m.step e = some m') : Wf m' := by
  cases e with
  | insmod =>
    simp only [Module.step] at hs
    split_ifs at hs with hpc
    cases hs
    have hheld : m.held = [] := by rw [w.held, hpc, heldAt]
    exact ⟨hheld, nofun, nofun, nofun, .refl⟩
  | call err =>
    simp only [Module.step] at hs
    split at hs
    · rename_i r hpc
      rw [w.make hpc, Option.map_some] at hs
      have hheld : m.held = r.undo := by rw [w.held, hpc, heldAt]
      cases r <;> cases hs <;> exact ⟨by rw [hheld]; rfl, nofun, nofun, nofun, w.list⟩
    · rename_i r errno hpc
      cases hs
      refine ⟨by rw [w.held, hpc]; rfl, fun todo ret h => ?_, nofun, nofun, w.list⟩
      cases h
      exact undo_suffix r
    · cases hs
  | undo =>
    simp only [Module.step] at hs
    split at hs
    · rename_i ret hpc
      cases hs
      exact ⟨by rw [w.held, hpc]; rfl, nofun, nofun, fun _ => rfl, .refl⟩
    · rename_i r todo ret hpc
      have htodo := w.undo _ _ hpc
      rw [w.takeBack htodo (by rw [hpc, heldAt]), Option.map_some] at hs
      cases hs
      refine ⟨rfl, fun todo' ret' h => ?_, nofun, nofun, w.list⟩
      cases h
      exact (takeBack_suffix htodo).2
    · rename_i hpc
      cases hs
      exact ⟨by rw [w.held, hpc]; rfl, nofun, nofun, fun _ => rfl, .refl⟩
    · rename_i r todo hpc
      obtain ⟨htodo, hlist⟩ := w.exit _ hpc
      rw [w.takeBack htodo (by rw [hpc, heldAt]), Option.map_some] at hs
      cases hs
      refine ⟨rfl, nofun, fun todo' h => ?_, nofun, w.list⟩
      cases h
      exact ⟨(takeBack_suffix htodo).2, hlist⟩
    · cases hs
  | rmmod =>
    simp only [Module.step] at hs
    split_ifs at hs with hpc
    cases hs
    exact ⟨by rw [w.held, hpc]; rfl, nofun, nofun, nofun, w.list⟩
  | stopThread =>
    simp only [Module.step] at hs
    split_ifs at hs with hpc
    rw [w.takeBack_thread hpc, Option.map_some] at hs
    cases hs
    exact ⟨rfl, nofun, nofun, nofun, w.list⟩
  | freeEntries =>
    simp only [Module.step] at hs
    split_ifs at hs with hpc
    cases hs
    refine ⟨by rw [w.held, hpc]; rfl, nofun, fun todo h => ?_, nofun, .refl⟩
    cases h
    exact ⟨List.suffix_refl _, rfl⟩
  | ioctl cmd reqArg pidArg kmalloc =>
    have hlist : Monitor.Reachable (monitorIoctl cmd reqArg pidArg kmalloc m.list).2 :=
      w.list.tail (.ioctl cmd reqArg pidArg kmalloc) trivial rfl
    simp only [Module.step] at hs
    split at hs
    all_goals
      first
      | cases hs
      | rename_i hpc
        split_ifs at hs
        cases hs
        refine ⟨w.held, w.undo, fun todo h => ?_, fun h => ?_, hlist⟩
        · rw [hpc] at h
          cases h
        · rw [hpc] at h
          cases h
  | pass obs =>
    simp only [Module.step] at hs
    split_ifs at hs with hthread
    cases hs
    refine ⟨w.held, w.undo, fun todo h => ⟨(w.exit todo h).1, ?_⟩, fun h => ?_,
      w.list.tail (.pass obs) trivial rfl⟩
    · simp only [(w.exit todo h).2, monitorThreadPass]
    · simp only [w.unloaded h, monitorThreadPass]

theorem Wf.of_run {C : Module → ModuleEvent → Prop}
    (h : Transition.Run Module.step C initial m) : Wf m :=
  h.invariant ⟨rfl, nofun, nofun, fun _ => rfl, .refl⟩ fun _ _ _ w _ hs => w.step hs

/-! ## What a failed load loses -/

/-- No request comes in before `monitor_init` has returned. -/
def Patient (m : Module) : ModuleEvent → Prop
  | .ioctl _ _ _ _ => m.pc = .loaded
  | _ => True

instance (m : Module) (e : ModuleEvent) : Decidable (Patient m e) := by
  cases e <;> dsimp only [Patient] <;> infer_instance

/-- Without early requests the list is empty until the module is loaded, and nothing is lost. -/
theorem lost_of_patient (h : Transition.Run Module.step Patient initial m) :
    (∀ r, m.pc = .init r → m.list = []) ∧ (∀ todo ret, m.pc = .undo todo ret → m.list = []) ∧
      m.lost = [] := by
  refine h.invariant_of_reached (I := fun m => (∀ r, m.pc = .init r → m.list = []) ∧
    (∀ todo ret, m.pc = .undo todo ret → m.list = []) ∧ m.lost = []) ⟨nofun, nofun, rfl⟩ ?_
  rintro m e m' hrun ⟨hinit, hundo, hlost⟩ hpatient hs
  have w := Wf.of_run hrun
  cases e with
  | insmod =>
    simp only [Module.step] at hs
    split_ifs at hs with hpc
    cases hs
    exact ⟨fun _ _ => rfl, nofun, hlost⟩
  | call err =>
    simp only [Module.step] at hs
    split at hs
    · rename_i r hpc
      rw [w.make hpc, Option.map_some] at hs
      have hlist := hinit r hpc
      cases r <;> cases hs <;> exact ⟨fun _ _ => hlist, nofun, hlost⟩
    · rename_i r errno hpc
      cases hs
      exact ⟨nofun, fun _ _ _ => hinit r hpc, hlost⟩
    · cases hs
  | undo =>
    simp only [Module.step] at hs
    split at hs
    · rename_i ret hpc
      cases hs
      exact ⟨nofun, nofun, by rw [hlost, hundo _ _ hpc]; rfl⟩
    · rename_i r todo ret hpc
      rw [w.takeBack (w.undo _ _ hpc) (by rw [hpc, heldAt]), Option.map_some] at hs
      cases hs
      exact ⟨nofun, fun _ _ _ => hundo _ _ hpc, hlost⟩
    · rename_i hpc
      cases hs
      exact ⟨nofun, nofun, by rw [hlost, (w.exit _ hpc).2]; rfl⟩
    · rename_i r todo hpc
      rw [w.takeBack (w.exit _ hpc).1 (by rw [hpc, heldAt]), Option.map_some] at hs
      cases hs
      exact ⟨nofun, nofun, hlost⟩
    · cases hs
  | rmmod =>
    simp only [Module.step] at hs
    split_ifs at hs
    cases hs
    exact ⟨nofun, nofun, hlost⟩
  | stopThread =>
    simp only [Module.step] at hs
    split_ifs at hs with hpc
    rw [w.takeBack_thread hpc, Option.map_some] at hs
    cases hs
    exact ⟨nofun, nofun, hlost⟩
  | freeEntries =>
    simp only [Module.step] at hs
    split_ifs at hs
    cases hs
    exact ⟨nofun, nofun, hlost⟩
  | ioctl cmd reqArg pidArg kmalloc =>
    have hpc : m.pc = .loaded := hpatient
    simp only [Module.step, hpc] at hs
    split_ifs at hs
    cases hs
    exact ⟨nofun, nofun, hlost⟩
  | pass obs =>
    simp only [Module.step] at hs
    split_ifs at hs
    cases hs
    refine ⟨fun r hpc => ?_, fun todo ret hpc => ?_, hlost⟩
    · simp only [hinit r hpc, monitorThreadPass]
    · simp only [hundo todo ret hpc, monitorThreadPass]

/-- In every run of loads, unloads, requests and passes, with failures anywhere : each call of
`monitor_init` may be made, each thing that is taken back is there and nothing stands on it, nothing
is held while the module is not loaded, and `monitor_exit` frees the list. If no request comes in
before `monitor_init` has returned, no entry is ever lost. -/
theorem module_life (h : Transition.Run Module.step Transition.Always initial m) :
    (∀ r, m.pc = .init r → (m.make r).isSome) ∧
      (∀ r todo, (∃ ret, m.pc = .undo (r :: todo) ret) ∨ m.pc = .exit (r :: todo) →
        (m.takeBack r).isSome) ∧
      (m.pc = .stopThread → (m.takeBack .thread).isSome) ∧
      (m.pc = .unloaded → m.held = [] ∧ m.list = []) ∧
      (∀ todo, m.pc = .exit todo → m.list = []) ∧
      (m.pc = .loaded → m.held = .thread :: exitOrder) ∧ Monitor.Reachable m.list ∧
      ∀ m', Transition.Run Module.step Patient initial m' → m'.lost = [] := by
  have w := Wf.of_run h
  refine ⟨fun r hpc => ?_, ?_, fun hpc => ?_, fun hpc => ⟨?_, w.unloaded hpc⟩,
    fun todo hpc => (w.exit todo hpc).2, fun hpc => ?_, w.list, fun m' h' =>
      (lost_of_patient h').2.2⟩
  · rw [w.make hpc]
    rfl
  · rintro r todo (⟨ret, hpc⟩ | hpc)
    · rw [w.takeBack (w.undo _ _ hpc) (by rw [hpc, heldAt])]
      rfl
    · rw [w.takeBack (w.exit _ hpc).1 (by rw [hpc, heldAt])]
      rfl
  · rw [w.takeBack_thread hpc]
    rfl
  · rw [w.held, hpc, heldAt]
  · rw [w.held, hpc, heldAt]

/-- A request that comes in before the thread cannot be made. -/
theorem module_life_lost : ∃ m : Module, m.lost = [⟨7, 40, 64, false⟩] ∧ m.returned = [-12] ∧
    (m.pc = .unloaded → m.held = [] ∧ m.list = []) := by
  obtain ⟨m, hm, hlost, hret⟩ := Transition.exists_run_of_exec Module.step Transition.Always initial
    [.insmod, .call none, .call none, .call none, .call none,
      .ioctl REGISTER_CONTAINER (some ⟨7, 40, 64⟩) none true, .call (some (-12)),
      .undo, .undo, .undo, .undo, .undo]
    (fun m => m.lost = [⟨7, 40, 64, false⟩] ∧ m.returned = [-12]) (by decide)
  exact ⟨m, hlost, hret, (module_life hm).2.2.2.1⟩

end Module

end Jackfruit
