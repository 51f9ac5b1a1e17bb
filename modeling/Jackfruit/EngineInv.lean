import Jackfruit.EngineStep

/-!
# The owners of the slots

Every used slot has one owner, the handler whose start reserved it. Until the owner publishes
the slot it is STARTING with the pid `-1`; from then on it is settled : it belongs to its owner
for ever, and records the pid of its owner's child. `Wf` is the invariant that says so, and it
holds in every reachable state.

Only four steps change what `Wf` speaks about : a reservation, a `clone`, a rollback and a
publication. For all others `Frame` says that they leave it alone (`Wf.of_frame`).
-/

set_option linter.unusedSectionVars false

namespace Jackfruit

/-- The slot that a start holds without having published it. -/
def Pc.reserved : Pc → Option Slot
  | .pipe i | .mallocStack i | .mallocChild i | .clone i | .mallocArg i _ | .publish i _
  | .rollback i _ => some i
  | _ => none

/-- The pid that a start has from `clone` and goes on to publish. -/
def Pc.inFlight : Pc → Option ℤ
  | .mallocArg _ pid | .publish _ pid => some pid
  | _ => none

/-- The slot that a handler uses after its start published it. -/
def Pc.published : Pc → Option Slot
  | .createProducer i _ | .register i _ | .runTest i | .runWait i => some i
  | _ => none

/-- Before `clone`. -/
def Pc.unborn : Pc → Bool
  | .absent | .recv | .reserve | .pipe _ | .mallocStack _ | .mallocChild _ | .clone _ => true
  | _ => false

/-- A later program point that holds the same reserved slot and claims nothing new. -/
structure Pc.Weaker (pc' pc : Pc) : Prop where
  reserved : pc'.reserved = pc.reserved
  published : ∀ i, pc'.published = some i → pc.published = some i
  inFlight : ∀ pid, pc'.inFlight = some pid → pc.inFlight = some pid
  unborn : pc'.unborn = true → pc.unborn = true

theorem Pc.Weaker.refl (pc : Pc) : Pc.Weaker pc pc :=
  ⟨rfl, fun _ h => h, fun _ h => h, fun h => h⟩

/-- A program point that claims nothing but its reserved slot. -/
theorem Pc.Weaker.of_none {pc pc' : Pc} (hr : pc'.reserved = pc.reserved)
    (hp : pc'.published = none) (hf : pc'.inFlight = none)
    (hu : pc'.unborn = true → pc.unborn = true) : Pc.Weaker pc' pc :=
  ⟨hr, by simp [hp], by simp [hf], hu⟩

namespace Engine

variable {s s' : Engine} {e : Event} {i j : Slot} {g h : ℕ}

/-- The slot has been published and belongs to `h`. -/
def Settled (s : Engine) (i : Slot) (h : ℕ) : Prop :=
  s.owner i = some h ∧ (s.table i).state ≠ .starting

instance (s : Engine) (i : Slot) (h : ℕ) : Decidable (s.Settled i h) :=
  inferInstanceAs (Decidable (_ ∧ _))

/-- The owners of the slots and what they know about their slots and children. -/
structure Wf (s : Engine) : Prop where
  used_iff : ∀ i, (s.table i).used = true ↔ ∃ h, s.owner i = some h
  reserved : ∀ h i, (s.handler h).pc.reserved = some i →
    s.owner i = some h ∧ (s.table i).state = .starting ∧ (s.table i).pid = -1
  published : ∀ h i, (s.handler h).pc.published = some i → s.Settled i h
  owned : ∀ i h, s.owner i = some h →
    (s.handler h).pc.reserved = some i ∨
      (s.handler h).pc.reserved = none ∧ (s.handler h).pc.unborn = false ∧
        ((s.table i).state = .running ∨ (s.table i).state.Final) ∧
        ∃ c, s.child h = some c ∧ c.pid = (s.table i).pid
  owner_inj : ∀ i j h, s.owner i = some h → s.owner j = some h → i = j
  inFlight : ∀ h pid, (s.handler h).pc.inFlight = some pid →
    ∃ c, s.child h = some c ∧ c.pid = pid
  unborn : ∀ h, (s.handler h).pc.unborn = true → s.child h = none
  child_pos : ∀ h c, s.child h = some c → 0 < c.pid
  started : ∀ h i, s.started h = some i → s.Settled i h
  producer : ∀ h i, s.producer h = some i → s.Settled i h

theorem wf_init : Wf init where
  used_iff _ := by simp [init, initContainers, Container.init]
  reserved _ _ hi := by simp [init, Handler.init, Pc.reserved] at hi
  published _ _ hi := by simp [init, Handler.init, Pc.published] at hi
  owned _ _ hi := by simp [init] at hi
  owner_inj _ _ _ hi := by simp [init] at hi
  inFlight _ _ hp := by simp [init, Handler.init, Pc.inFlight] at hp
  unborn _ _ := rfl
  child_pos _ _ hc := by simp [init] at hc
  started _ _ hi := by simp [init] at hi
  producer _ _ hi := by simp [init] at hi

/-! ## Steps that leave the owners alone -/

/-- A slot keeps its use and its pid, and its state unless it is given a final one. -/
structure SlotFrame (c c' : Container) : Prop where
  used : c'.used = c.used
  pid : c'.pid = c.pid
  state : c'.state = c.state ∨ c.state ≠ .starting ∧ c'.state.Final

theorem SlotFrame.refl (c : Container) : SlotFrame c c :=
  ⟨rfl, rfl, Or.inl rfl⟩

theorem SlotFrame.update {t : Table} {c : Container} (hc : SlotFrame (t j) c) (i : Slot) :
    SlotFrame (t i) (Function.update t j c i) := by
  rcases eq_or_ne i j with rfl | hij
  · rwa [Function.update_self]
  · rw [Function.update_of_ne hij]
    exact .refl _

/-- A step that leaves the owners alone. -/
structure Frame (s s' : Engine) : Prop where
  slot : ∀ i, SlotFrame (s.table i) (s'.table i)
  pc : ∀ h, Pc.Weaker (s'.handler h).pc (s.handler h).pc
  owner : s'.owner = s.owner
  child : ∀ h, (s'.child h).map Child.pid = (s.child h).map Child.pid
  started : ∀ h i, s'.started h = some i → s.started h = some i ∨ s.Settled i h
  producer : ∀ h i, s'.producer h = some i → s.producer h = some i ∨ s.Settled i h

namespace Frame

variable (hf : Frame s s')
include hf

theorem settled (hi : s.Settled i h) : s'.Settled i h := by
  refine ⟨hf.owner ▸ hi.1, ?_⟩
  rcases (hf.slot i).state with heq | ⟨-, hfin⟩
  · rw [heq]
    exact hi.2
  · intro hst
    rw [hst] at hfin
    simp [ContainerState.Final] at hfin

theorem exists_child {pid : ℤ} :
    (∃ c, s'.child h = some c ∧ c.pid = pid) ↔ ∃ c, s.child h = some c ∧ c.pid = pid := by
  have hmap := hf.child h
  have key (o : Option Child) : (∃ c, o = some c ∧ c.pid = pid) ↔ o.map Child.pid = some pid := by
    simp
  rw [key, key, hmap]

end Frame

/-- The invariant survives every step that leaves the owners alone. -/
theorem Wf.of_frame (w : Wf s) (hf : Frame s s') : Wf s' where
  used_iff i := by
    rw [(hf.slot i).used, hf.owner]
    exact w.used_iff i
  reserved h i hi := by
    rw [(hf.pc h).reserved] at hi
    obtain ⟨ho, hst, hp⟩ := w.reserved h i hi
    refine ⟨hf.owner ▸ ho, ?_, (hf.slot i).pid ▸ hp⟩
    exact (hf.slot i).state.elim (fun heq => heq ▸ hst) fun hne => absurd hst hne.1
  published h i hi := hf.settled (w.published h i ((hf.pc h).published i hi))
  owned i h hi := by
    rw [hf.owner] at hi
    rcases w.owned i h hi with hres | ⟨hres, hborn, hst, hc⟩
    · exact Or.inl ((hf.pc h).reserved ▸ hres)
    · refine Or.inr ⟨(hf.pc h).reserved ▸ hres, ?_, ?_, ?_⟩
      · exact Bool.eq_false_iff.mpr fun hu => by simp [(hf.pc h).unborn hu] at hborn
      · rcases (hf.slot i).state with heq | ⟨-, hfin⟩
        · rwa [heq]
        · exact Or.inr hfin
      · rw [(hf.slot i).pid]
        exact hf.exists_child.mpr hc
  owner_inj := hf.owner ▸ w.owner_inj
  inFlight h pid hp := hf.exists_child.mpr (w.inFlight h pid ((hf.pc h).inFlight pid hp))
  unborn h hu := by
    have hmap := hf.child h
    rw [w.unborn h ((hf.pc h).unborn hu)] at hmap
    simpa using hmap
  child_pos h c hc := by
    obtain ⟨c₀, hc₀, hp⟩ := hf.exists_child.mp ⟨c, hc, rfl⟩
    exact hp ▸ w.child_pos h c₀ hc₀
  started h i hi := hf.settled ((hf.started h i hi).elim (w.started h i) id)
  producer h i hi := hf.settled ((hf.producer h i hi).elim (w.producer h i) id)

namespace Frame

theorem refl (s : Engine) : Frame s s where
  slot _ := .refl _
  pc _ := .refl _
  owner := rfl
  child _ := rfl
  started _ _ := Or.inl
  producer _ _ := Or.inl

theorem pc_update {hd : Handler} (hpc : Pc.Weaker hd.pc (s.handler h).pc) (g : ℕ) :
    Pc.Weaker (Function.update s.handler h hd g).pc (s.handler g).pc := by
  rcases eq_or_ne g h with rfl | hgh
  · rwa [Function.update_self]
  · rw [Function.update_of_ne hgh]
    exact .refl _

theorem child_update {c c' : Child} (hc : s.child h = some c) (hp : c'.pid = c.pid) (g : ℕ) :
    (Function.update s.child h (some c') g).map Child.pid = (s.child g).map Child.pid := by
  rcases eq_or_ne g h with rfl | hgh
  · simp [hc, hp]
  · rw [Function.update_of_ne hgh]

end Frame

theorem SysMove.weaker {pc pc' : Pc} (hm : SysMove pc pc') : Pc.Weaker pc' pc := by
  cases hm with
  | mallocArg i pid => exact ⟨rfl, fun _ h => h, fun _ h => h, fun h => h⟩
  | _ => exact .of_none rfl rfl rfl fun h => by simp_all [Pc.unborn]

theorem SysMove.exists_reserved {pc pc' : Pc} (hm : SysMove pc pc') :
    ∃ i, pc'.reserved = some i := by
  cases hm <;> exact ⟨_, rfl⟩

theorem HandlerMove.weaker {hd hd' : Handler} (hm : HandlerMove hd hd') :
    Pc.Weaker hd'.pc hd.pc := by
  cases hm with
  | syscall pc hpc => exact hpc.weaker
  | accept hpc =>
    rw [hpc]
    exact .of_none rfl rfl rfl fun h => h
  | hangup hpc | read resp hpc | send hpc =>
    rw [hpc]
    exact .of_none rfl rfl rfl nofun
  | refused text hpc =>
    rcases hpc with hpc | hpc <;> rw [hpc] <;> exact .of_none rfl rfl rfl nofun

/-- No program point of a start or of a run is reached from `recv_all`. -/
theorem dispatch_weaker (req : Request) : Pc.Weaker (dispatch req) .recv := by
  unfold dispatch
  split_ifs <;> exact .of_none rfl rfl rfl fun _ => rfl

/-- A run handler that may look at its slot holds the slot published. -/
theorem runReady_spec (hr : s.runReady h = some i) :
    (s.handler h).pc = .runTest i ∨ (s.handler h).pc = .runWait i := by
  unfold runReady at hr
  split at hr
  · rename_i idx hpc
    exact Or.inl (Option.some.inj hr ▸ hpc)
  · rename_i idx hpc
    split_ifs at hr
    exact Or.inr (Option.some.inj hr ▸ hpc)
  · cases hr

theorem runReady_weaker (hr : s.runReady h = some i) :
    Pc.Weaker (.runWait i) (s.handler h).pc ∧ Pc.Weaker .send (s.handler h).pc := by
  rcases runReady_spec hr with hpc | hpc <;> rw [hpc] <;>
    exact ⟨⟨rfl, fun _ h => h, nofun, nofun⟩, .of_none rfl rfl rfl nofun⟩

/-- A slot that records the pid of a child is not STARTING. -/
theorem Wf.state_ne_starting (w : Wf s) (hu : (s.table i).used = true)
    (hp : 0 < (s.table i).pid) : (s.table i).state ≠ .starting := by
  obtain ⟨h, ho⟩ := (w.used_iff i).mp hu
  rcases w.owned i h ho with hres | ⟨-, -, hst, -⟩
  · rw [(w.reserved h i hres).2.2] at hp
    omega
  · rcases hst with hst | hst
    · simp [hst]
    · intro heq
      simp [heq, ContainerState.Final] at hst

/-- Every effect but four leaves the owners alone. -/
theorem Wf.frame (w : Wf s) (hs : Effect s e s') :
    Frame s s' ∨
      (∃ h now idx, e = .reserve h now ∧ (s.handler h).pc = .reserve ∧
        startContainerCheck s.table (s.req h) = .ok idx ∧ s' = s.reserved h idx now) ∨
      (∃ h idx pid, e = .clone h (.ok pid) ∧ (s.handler h).pc = .clone idx ∧ s.PidFree pid ∧
        s' = s.forked h idx pid) ∨
      (∃ h idx text, e = .rollback h ∧ (s.handler h).pc = .rollback idx text ∧
        s' = s.rolledBack h idx text) ∨
      ∃ h idx pid, e = .publish h ∧ (s.handler h).pc = .publish idx pid ∧
        s' = s.published h idx pid := by
  cases hs with
  | reserve h now idx hpc hck => exact Or.inr (Or.inl ⟨h, now, idx, rfl, hpc, hck, rfl⟩)
  | clone h idx pid hpc hfree =>
    exact Or.inr (Or.inr (Or.inl ⟨h, idx, pid, rfl, hpc, hfree, rfl⟩))
  | rollback h idx text hpc =>
    exact Or.inr (Or.inr (Or.inr (Or.inl ⟨h, idx, text, rfl, hpc, rfl⟩)))
  | publish h idx pid hpc => exact Or.inr (Or.inr (Or.inr (Or.inr ⟨h, idx, pid, rfl, hpc, rfl⟩)))
  | control | reaperExit => exact Or.inl { Frame.refl s with }
  | handler e h hd main he hmain hm =>
    exact Or.inl { Frame.refl s with pc := Frame.pc_update hm.weaker }
  | recv h req resp hpc =>
    exact Or.inl { Frame.refl s with
      pc := Frame.pc_update (by rw [hpc]; exact dispatch_weaker req) }
  | createProducer h ok idx pid hpc =>
    have hpub := w.published h idx (by rw [hpc]; rfl)
    refine Or.inl { Frame.refl s with pc := Frame.pc_update ?_, producer := fun g i hi => ?_ }
    · rw [hpc]
      exact ⟨rfl, fun _ h => h, nofun, nofun⟩
    · dsimp only at hi
      split_ifs at hi
      · rcases eq_or_ne g h with rfl | hgh
        · rw [Function.update_self] at hi
          exact Or.inr (Option.some.inj hi ▸ hpub)
        · rw [Function.update_of_ne hgh] at hi
          exact Or.inl hi
      · exact Or.inl hi
  | register h idx pid resp hpc =>
    have hpub := w.published h idx (by rw [hpc]; rfl)
    refine Or.inl { Frame.refl s with pc := Frame.pc_update ?_, started := fun g i hi => ?_ }
    · rw [hpc]
      dsimp only
      split_ifs
      · exact ⟨rfl, fun _ h => h, nofun, nofun⟩
      · exact .of_none rfl rfl rfl nofun
    · dsimp only at hi
      rcases eq_or_ne g h with rfl | hgh
      · rw [Function.update_self] at hi
        exact Or.inr (Option.some.inj hi ▸ hpub)
      · rw [Function.update_of_ne hgh] at hi
        exact Or.inl hi
  | runWait h idx hready hlive =>
    exact Or.inl { Frame.refl s with
      slot := SlotFrame.update ⟨rfl, rfl, Or.inl rfl⟩
      pc := Frame.pc_update (runReady_weaker hready).1 }
  | runDone h idx hready hlive =>
    exact Or.inl { Frame.refl s with
      slot := SlotFrame.update ⟨rfl, rfl, Or.inl rfl⟩
      pc := Frame.pc_update (runReady_weaker hready).2 }
  | spurious h idx hpc =>
    exact Or.inl { Frame.refl s with slot := SlotFrame.update ⟨rfl, rfl, Or.inl rfl⟩ }
  | stopEnter h idx hpc hfind hlive =>
    refine Or.inl { Frame.refl s with
      slot := SlotFrame.update ⟨rfl, rfl, Or.inl rfl⟩
      pc := Frame.pc_update ?_ }
    change Pc.Weaker (.stopKill _ _) (s.handler h).pc
    rw [hpc]
    exact .of_none rfl rfl rfl nofun
  | stopKill h err idx pid resp hpc =>
    refine Or.inl { Frame.refl s with pc := Frame.pc_update ?_ }
    rw [hpc]
    exact .of_none rfl rfl rfl nofun
  | stopAll =>
    refine Or.inl { Frame.refl s with slot := fun i => ?_ }
    dsimp only [stopAllLiveContainers]
    split_ifs
    · exact ⟨rfl, rfl, Or.inl rfl⟩
    · exact .refl _
  | exit h pid status hc =>
    exact Or.inl { Frame.refl s with child := Frame.child_update hc rfl }
  | waitpid h pid status hr hc =>
    exact Or.inl { Frame.refl s with child := Frame.child_update hc rfl }
  | reap h pid status hr hc =>
    refine Or.inl { Frame.refl s with
      child := Frame.child_update hc rfl
      slot := fun i => ?_ }
    dsimp only [recorded, reaperUpdate]
    cases hfind : findContainerByPid s.table pid with
    | none => exact .refl _
    | some j =>
      obtain ⟨hu, hp⟩ := findContainerByPid_spec hfind
      have hst := w.state_ne_starting hu (hp ▸ w.child_pos h _ hc)
      have hj : SlotFrame (s.table j) ((s.table j).reap status) :=
        ⟨rfl, rfl, Or.inr ⟨hst, reapState_final _ _⟩⟩
      exact hj.update i

/-! ## Steps that change the owners -/

/-- A step of the start of `h` that touches the slot `i`, which nobody else owns. -/
structure Local (s s' : Engine) (h : ℕ) (i : Slot) : Prop where
  handler : ∀ g, g ≠ h → s'.handler g = s.handler g
  child : ∀ g, g ≠ h → s'.child g = s.child g
  table : ∀ j, j ≠ i → s'.table j = s.table j
  owner : ∀ j, j ≠ i → s'.owner j = s.owner j
  started : s'.started = s.started
  producer : s'.producer = s.producer
  other : ∀ g, s.owner i = some g → g = h
  other' : ∀ g, s'.owner i = some g → g = h
  fresh : ∀ j, ¬s.Settled j h

/-- What `Wf` says of one handler that owns no slot but `i`. -/
structure WfAt (s : Engine) (h : ℕ) (i : Slot) : Prop where
  used_iff : (s.table i).used = true ↔ s.owner i = some h
  only : ∀ j, s.owner j = some h → j = i
  reserved : ∀ j, (s.handler h).pc.reserved = some j →
    s.owner j = some h ∧ (s.table j).state = .starting ∧ (s.table j).pid = -1
  published : ∀ j, (s.handler h).pc.published = some j → s.Settled j h
  owned : s.owner i = some h →
    (s.handler h).pc.reserved = some i ∨
      (s.handler h).pc.reserved = none ∧ (s.handler h).pc.unborn = false ∧
        ((s.table i).state = .running ∨ (s.table i).state.Final) ∧
        ∃ c, s.child h = some c ∧ c.pid = (s.table i).pid
  inFlight : ∀ pid, (s.handler h).pc.inFlight = some pid → ∃ c, s.child h = some c ∧ c.pid = pid
  unborn : (s.handler h).pc.unborn = true → s.child h = none
  child_pos : ∀ c, s.child h = some c → 0 < c.pid

theorem Local.settled (l : Local s s' h i) (hj : s.Settled j g) : s'.Settled j g := by
  have hgh : g ≠ h := by
    rintro rfl
    exact l.fresh j hj
  have hji : j ≠ i := by
    rintro rfl
    exact hgh (l.other g hj.1)
  exact ⟨l.owner j hji ▸ hj.1, l.table j hji ▸ hj.2⟩

/-- A step inside a start has to keep the invariant for its own handler and slot only. -/
theorem Wf.of_local (w : Wf s) (l : Local s s' h i) (wh : WfAt s' h i) : Wf s' := by
  have hne {j g} (hg : g ≠ h) (ho : s.owner j = some g) : j ≠ i := by
    rintro rfl
    exact hg (l.other g ho)
  have hne' {j g} (hg : g ≠ h) (ho : s'.owner j = some g) : j ≠ i := by
    rintro rfl
    exact hg (l.other' g ho)
  constructor
  case used_iff =>
    intro j
    rcases eq_or_ne j i with rfl | hj
    · exact wh.used_iff.trans ⟨fun ho => ⟨h, ho⟩, fun ⟨g, ho⟩ => l.other' g ho ▸ ho⟩
    · rw [l.owner j hj, l.table j hj]
      exact w.used_iff j
  case reserved =>
    intro g j hres
    rcases eq_or_ne g h with rfl | hg
    · exact wh.reserved j hres
    · rw [l.handler g hg] at hres
      obtain ⟨ho, hst, hp⟩ := w.reserved g j hres
      rw [l.owner j (hne hg ho), l.table j (hne hg ho)]
      exact ⟨ho, hst, hp⟩
  case published =>
    intro g j hpub
    rcases eq_or_ne g h with rfl | hg
    · exact wh.published j hpub
    · rw [l.handler g hg] at hpub
      exact l.settled (w.published g j hpub)
  case owned =>
    intro j g ho
    rcases eq_or_ne g h with rfl | hg
    · obtain rfl := wh.only j ho
      exact wh.owned ho
    · have hj := hne' hg ho
      rw [l.owner j hj] at ho
      rw [l.handler g hg, l.child g hg, l.table j hj]
      exact w.owned j g ho
  case owner_inj =>
    intro j k g hj hk
    rcases eq_or_ne g h with rfl | hg
    · rw [wh.only j hj, wh.only k hk]
    · refine w.owner_inj j k g ?_ ?_
      · rwa [l.owner j (hne' hg hj)] at hj
      · rwa [l.owner k (hne' hg hk)] at hk
  case inFlight =>
    intro g pid hp
    rcases eq_or_ne g h with rfl | hg
    · exact wh.inFlight pid hp
    · rw [l.handler g hg] at hp
      rw [l.child g hg]
      exact w.inFlight g pid hp
  case unborn =>
    intro g hb
    rcases eq_or_ne g h with rfl | hg
    · exact wh.unborn hb
    · rw [l.handler g hg] at hb
      rw [l.child g hg]
      exact w.unborn g hb
  case child_pos =>
    intro g c hc
    rcases eq_or_ne g h with rfl | hg
    · exact wh.child_pos c hc
    · rw [l.child g hg] at hc
      exact w.child_pos g c hc
  case started =>
    rw [l.started]
    exact fun g j hj => l.settled (w.started g j hj)
  case producer =>
    rw [l.producer]
    exact fun g j hj => l.settled (w.producer g j hj)

theorem Wf.owner_eq_none (w : Wf s) (hu : (s.table i).used = false) : s.owner i = none := by
  by_contra hne
  obtain ⟨g, hg⟩ := Option.ne_none_iff_exists'.mp hne
  simp [(w.used_iff i).mpr ⟨g, hg⟩] at hu

/-- A start at its first critical section owns nothing yet. -/
theorem Wf.not_owner (w : Wf s) (hpc : (s.handler h).pc = .reserve) (i : Slot) :
    s.owner i ≠ some h := by
  intro ho
  rcases w.owned i h ho with hres | ⟨-, hborn, -⟩
  · simp [hpc, Pc.reserved] at hres
  · simp [hpc, Pc.unborn] at hborn

/-- A start that has not published its slot owns that slot only and no settled one. -/
theorem Wf.of_reserved (w : Wf s) (hres : (s.handler h).pc.reserved = some i) :
    s.owner i = some h ∧ (∀ j, s.owner j = some h → j = i) ∧ ∀ j, ¬s.Settled j h := by
  obtain ⟨ho, hst, -⟩ := w.reserved h i hres
  have honly (j : Slot) (hj : s.owner j = some h) : j = i := w.owner_inj j i h hj ho
  exact ⟨ho, honly, fun j hj => hj.2 (honly j hj.1 ▸ hst)⟩

theorem Wf.reserved_step {now : ℤ} (w : Wf s) (hpc : (s.handler h).pc = .reserve)
    (hu : (s.table i).used = false) : Wf (s.reserved h i now) := by
  have hfree := w.owner_eq_none hu
  have howner : (s.reserved h i now).owner i = some h := Function.update_self _ _ _
  have hslot : (s.reserved h i now).table i = (s.table i).reserve (s.req h) now :=
    Function.update_self _ _ _
  have hpipe : ((s.reserved h i now).handler h).pc = .pipe i := by
    simp [Engine.reserved, setPc, setHandler]
  have hstate : ((s.reserved h i now).table i).state = .starting := by
    rw [hslot]
    rfl
  refine w.of_local (h := h) (i := i) ⟨fun g hg => Function.update_of_ne hg _ _, fun _ _ => rfl,
    fun j hj => Function.update_of_ne hj _ _, fun j hj => Function.update_of_ne hj _ _, rfl, rfl,
    fun g hg => by simp [hfree] at hg, fun g hg => Option.some.inj (hg.symm.trans howner),
    fun j hj => w.not_owner hpc j hj.1⟩ ?_
  constructor
  case used_iff =>
    rw [hslot]
    exact ⟨fun _ => howner, fun _ => rfl⟩
  case only =>
    intro j hj
    by_contra hji
    exact w.not_owner hpc j ((Function.update_of_ne hji _ _).symm.trans hj)
  case reserved =>
    intro j hj
    obtain rfl : i = j := by simpa [hpipe, Pc.reserved] using hj
    rw [hslot]
    exact ⟨howner, rfl, rfl⟩
  case published => simp [hpipe, Pc.published]
  case owned => exact fun _ => Or.inl (by rw [hpipe]; rfl)
  case inFlight => simp [hpipe, Pc.inFlight]
  case unborn => exact fun _ => w.unborn h (by rw [hpc]; rfl)
  case child_pos => exact w.child_pos h

theorem Wf.forked_step {pid : ℤ} (w : Wf s) (hpc : (s.handler h).pc = .clone i)
    (hpid : 0 < pid) : Wf (s.forked h i pid) := by
  have hres : (s.handler h).pc.reserved = some i := by rw [hpc]; rfl
  obtain ⟨ho, honly, hfresh⟩ := w.of_reserved hres
  have hpc' : ((s.forked h i pid).handler h).pc = .mallocArg i pid := by
    simp [forked, setPc, setHandler]
  have hchild : (s.forked h i pid).child h = some ⟨pid, .alive⟩ := Function.update_self _ _ _
  refine w.of_local (h := h) (i := i) ⟨fun g hg => Function.update_of_ne hg _ _,
    fun g hg => Function.update_of_ne hg _ _, fun _ _ => rfl, fun _ _ => rfl, rfl, rfl,
    fun g hg => Option.some.inj (hg.symm.trans ho), fun g hg => Option.some.inj (hg.symm.trans ho),
    hfresh⟩ ?_
  constructor
  case used_iff => exact ⟨fun _ => ho, fun _ => (w.used_iff i).mpr ⟨h, ho⟩⟩
  case only => exact honly
  case reserved =>
    intro j hj
    obtain rfl : i = j := by simpa [hpc', Pc.reserved] using hj
    exact w.reserved h i hres
  case published => simp [hpc', Pc.published]
  case owned => exact fun _ => Or.inl (by rw [hpc']; rfl)
  case inFlight =>
    intro p hp
    obtain rfl : pid = p := by simpa [hpc', Pc.inFlight] using hp
    exact ⟨_, hchild, rfl⟩
  case unborn => simp [hpc', Pc.unborn]
  case child_pos =>
    intro c hc
    obtain rfl := Option.some.inj (hchild.symm.trans hc)
    exact hpid

theorem Wf.rolledBack_step {text : CStr} (w : Wf s) (hpc : (s.handler h).pc = .rollback i text) :
    Wf (s.rolledBack h i text) := by
  obtain ⟨ho, honly, hfresh⟩ := w.of_reserved (h := h) (i := i) (by rw [hpc]; rfl)
  have hpc' : ((s.rolledBack h i text).handler h).pc = .send := by
    simp [rolledBack, respond, setHandler]
  have howner : (s.rolledBack h i text).owner i = none := Function.update_self _ _ _
  have hslot : (s.rolledBack h i text).table i = (s.table i).release := Function.update_self _ _ _
  have hnone (j : Slot) : (s.rolledBack h i text).owner j ≠ some h := by
    rcases eq_or_ne j i with rfl | hj
    · simp [howner]
    · exact fun hj' => hj (honly j ((Function.update_of_ne hj _ _).symm.trans hj'))
  refine w.of_local (h := h) (i := i) ⟨fun g hg => Function.update_of_ne hg _ _, fun _ _ => rfl,
    fun j hj => Function.update_of_ne hj _ _, fun j hj => Function.update_of_ne hj _ _, rfl, rfl,
    fun g hg => Option.some.inj (hg.symm.trans ho), fun g hg => by simp [howner] at hg,
    hfresh⟩ ?_
  constructor
  case used_iff => simp [hslot, howner, Container.release]
  case only => exact fun j hj => absurd hj (hnone j)
  case reserved => simp [hpc', Pc.reserved]
  case published => simp [hpc', Pc.published]
  case owned => exact fun hi => absurd hi (hnone i)
  case inFlight => simp [hpc', Pc.inFlight]
  case unborn => simp [hpc', Pc.unborn]
  case child_pos => exact w.child_pos h

theorem Wf.published_step {pid : ℤ} (w : Wf s) (hpc : (s.handler h).pc = .publish i pid) :
    Wf (s.published h i pid) := by
  obtain ⟨ho, honly, hfresh⟩ := w.of_reserved (h := h) (i := i) (by rw [hpc]; rfl)
  have hpc' : ((s.published h i pid).handler h).pc = .createProducer i pid := by
    simp [Engine.published, setPc, setHandler]
  have hslot : (s.published h i pid).table i = (s.table i).publish pid h :=
    Function.update_self _ _ _
  obtain ⟨c, hc, hcp⟩ := w.inFlight h pid (by rw [hpc]; rfl)
  refine w.of_local (h := h) (i := i) ⟨fun g hg => Function.update_of_ne hg _ _, fun _ _ => rfl,
    fun j hj => Function.update_of_ne hj _ _, fun _ _ => rfl, rfl, rfl,
    fun g hg => Option.some.inj (hg.symm.trans ho), fun g hg => Option.some.inj (hg.symm.trans ho),
    hfresh⟩ ?_
  constructor
  case used_iff =>
    rw [hslot]
    exact ⟨fun _ => ho, fun _ => (w.used_iff i).mpr ⟨h, ho⟩⟩
  case only => exact honly
  case reserved => simp [hpc', Pc.reserved]
  case published =>
    intro j hj
    obtain rfl : i = j := by simpa [hpc', Pc.published] using hj
    exact ⟨ho, by simp [hslot, Container.publish]⟩
  case owned =>
    intro _
    rw [hpc', hslot]
    exact Or.inr ⟨rfl, rfl, Or.inl rfl, c, hc, hcp⟩
  case inFlight => simp [hpc', Pc.inFlight]
  case unborn => simp [hpc', Pc.unborn]
  case child_pos => exact w.child_pos h

theorem Wf.step (w : Wf s) (hs : Effect s e s') : Wf s' := by
  rcases w.frame hs with hf | ⟨h, now, i, -, hpc, hck, rfl⟩ | ⟨h, i, pid, -, hpc, hfree, rfl⟩ |
    ⟨h, i, text, -, hpc, rfl⟩ | ⟨h, i, pid, -, hpc, rfl⟩
  · exact w.of_frame hf
  · exact w.reserved_step hpc (startContainerCheck_ok hck).1
  · exact w.forked_step hpc hfree.1
  · exact w.rolledBack_step hpc
  · exact w.published_step hpc

/-- The owners are well-formed in every reachable state. -/
theorem Wf.of_run {C : Engine → Event → Prop} (hr : Transition.Run Engine.step C init s) : Wf s :=
  hr.invariant wf_init fun _ _ _ w _ hs => w.step (step_effect hs)

/-! ## What is kept for ever -/

/-- The fields of a settled slot that no step writes. -/
structure Kept (c c' : Container) : Prop where
  used : c'.used = c.used
  id : c'.id = c.id
  pid : c'.pid = c.pid
  rootfs : c'.rootfs = c.rootfs
  command : c'.command = c.command
  logFile : c'.logFile = c.logFile
  softMib : c'.softMib = c.softMib
  hardMib : c'.hardMib = c.hardMib
  niceValue : c'.niceValue = c.niceValue

theorem Kept.refl (c : Container) : Kept c c := by
  constructor <;> rfl

theorem Kept.trans {c c' c'' : Container} (h : Kept c c') (h' : Kept c' c'') : Kept c c'' where
  used := h'.used.trans h.used
  id := h'.id.trans h.id
  pid := h'.pid.trans h.pid
  rootfs := h'.rootfs.trans h.rootfs
  command := h'.command.trans h.command
  logFile := h'.logFile.trans h.logFile
  softMib := h'.softMib.trans h.softMib
  hardMib := h'.hardMib.trans h.hardMib
  niceValue := h'.niceValue.trans h.niceValue

theorem Wf.used_of_settled (w : Wf s) (hi : s.Settled i h) : (s.table i).used = true :=
  (w.used_iff i).mpr ⟨h, hi.1⟩

/-- A final slot has been published. -/
theorem Wf.settled_of_final (w : Wf s) (hu : (s.table i).used = true)
    (hfin : (s.table i).state.Final) : ∃ h, s.Settled i h := by
  obtain ⟨h, ho⟩ := (w.used_iff i).mp hu
  refine ⟨h, ho, fun hst => ?_⟩
  simp [hst, ContainerState.Final] at hfin

/-- What a settled slot records : a live or final state, and the pid of its owner's child. -/
theorem Wf.of_settled (w : Wf s) (hi : s.Settled i h) :
    ((s.table i).state = .running ∨ (s.table i).state.Final) ∧
      ∃ c, s.child h = some c ∧ c.pid = (s.table i).pid := by
  rcases w.owned i h hi.1 with hres | ⟨-, -, hst, hc⟩
  · exact absurd (w.reserved h i hres).2.1 hi.2
  · exact ⟨hst, hc⟩

/-- No start is at work on a settled slot. -/
theorem Wf.not_reserved (w : Wf s) (hi : s.Settled i h) (g : ℕ) :
    (s.handler g).pc.reserved ≠ some i :=
  fun hres => hi.2 (w.reserved g i hres).2.1

/-- What a step can do to a settled slot. -/
inductive SettledStep (s : Engine) (e : Event) (i : Slot) : Container → Prop
  | live (cv : CondVar ℕ) (stop : Bool) :
      SettledStep s e i { s.table i with stateCv := cv, stopRequested := stop }
  | reap (h : ℕ) (pid : ℤ) (status : ℕ) : e = .reap → s.reaper = .holding h →
      s.child h = some ⟨pid, .reaped status⟩ → findContainerByPid s.table pid = some i →
      SettledStep s e i ((s.table i).reap status)

theorem Wf.settledStep {c : Container} (w : Wf s) (hi : s.Settled i h) (hs : SlotStep s e i c) :
    SettledStep s e i c := by
  cases hs with
  | same => exact .live (s.table i).stateCv (s.table i).stopRequested
  | waiters cv => exact .live cv (s.table i).stopRequested
  | stop => exact .live (s.table i).stateCv true
  | reserve g now he hpc hck =>
    have hfree := (startContainerCheck_ok hck).1
    rw [w.used_of_settled hi] at hfree
    cases hfree
  | release g text he hpc | publish g pid he hpc =>
    exact absurd (by rw [hpc]; rfl) (w.not_reserved hi g)
  | reap g pid status he hr hc hfind => exact .reap g pid status he hr hc hfind

theorem SettledStep.kept {c : Container} (hs : SettledStep s e i c) : Kept (s.table i) c := by
  cases hs <;> constructor <;> rfl

theorem SettledStep.state {c : Container} (hs : SettledStep s e i c) :
    c.state = (s.table i).state ∨ c.state.Final := by
  cases hs with
  | live => exact Or.inl rfl
  | reap => exact Or.inr (reapState_final _ _)

/-- A slot keeps its owner unless a start reserves it or gives it back. -/
theorem Wf.owner_step (w : Wf s) (hs : Effect s e s') (hi : s.Settled i h) :
    s'.owner i = some h := by
  rcases w.frame hs with hf | ⟨g, now, j, -, hpc, hck, rfl⟩ | ⟨g, j, pid, -, hpc, hfree, rfl⟩ |
    ⟨g, j, text, -, hpc, rfl⟩ | ⟨g, j, pid, -, hpc, rfl⟩
  · exact (hf.settled hi).1
  · have hij : i ≠ j := by
      rintro rfl
      have hfree := (startContainerCheck_ok hck).1
      rw [w.used_of_settled hi] at hfree
      cases hfree
    exact (Function.update_of_ne hij _ _).trans hi.1
  · exact hi.1
  · have hij : i ≠ j := by
      rintro rfl
      exact w.not_reserved hi g (by rw [hpc]; rfl)
    exact (Function.update_of_ne hij _ _).trans hi.1
  · exact hi.1

/-- A settled slot stays with its owner and keeps what it records about its container. -/
theorem Wf.settled_step (w : Wf s) (hs : Effect s e s') (hi : s.Settled i h) :
    s'.Settled i h ∧ Kept (s.table i) (s'.table i) := by
  have hstep := w.settledStep hi (step_slot hs i)
  refine ⟨⟨w.owner_step hs hi, fun hst => ?_⟩, hstep.kept⟩
  rcases hstep.state with heq | hfin
  · exact hi.2 (heq ▸ hst)
  · simp [hst, ContainerState.Final] at hfin

/-- The same along a run. -/
theorem settled_run {C : Engine → Event → Prop} (hr : Transition.Run Engine.step C init s)
    (hr' : Transition.Run Engine.step C s s') (hi : s.Settled i h) :
    s'.Settled i h ∧ Kept (s.table i) (s'.table i) := by
  refine hr'.invariant_of_reached (I := fun t => t.Settled i h ∧ Kept (s.table i) (t.table i))
    ⟨hi, .refl _⟩ ?_
  rintro t e u ht ⟨hset, hkept⟩ - hs
  obtain ⟨hset', hkept'⟩ := (Wf.of_run (hr.trans ht)).settled_step (step_effect hs) hset
  exact ⟨hset', hkept.trans hkept'⟩

/-! ## Children -/

/-- A child keeps its pid, and nothing changes once the reaper is done with it. -/
theorem Wf.child_step {c : Child} (w : Wf s) (hs : Effect s e s') (hc : s.child h = some c) :
    ∃ c', s'.child h = some c' ∧ c'.pid = c.pid ∧ (c.Handled → c' = c) := by
  have hstep := step_child hs h
  generalize s'.child h = o at hstep
  cases hstep with
  | same => exact ⟨c, hc, rfl, fun _ => rfl⟩
  | clone i pid he hpc hfree =>
    have := w.unborn h (by rw [hpc]; rfl)
    simp [hc] at this
  | exit pid status hc' | waitpid pid status _ hc' | reap pid status _ _ hc' =>
    obtain rfl := Option.some.inj (hc.symm.trans hc')
    exact ⟨_, rfl, rfl, fun hh => absurd hh (by simp [Child.Handled])⟩

/-- A child was there with the same pid before the step, or is new. -/
theorem ChildStep.pid_cases {c : Child} (hs : ChildStep s e h (some c)) :
    (∃ c₀, s.child h = some c₀ ∧ c₀.pid = c.pid) ∨ e = .clone h (.ok c.pid) := by
  generalize ho : some c = o at hs
  cases hs with
  | same => exact Or.inl ⟨c, ho.symm, rfl⟩
  | clone i pid he =>
    obtain rfl := Option.some.inj ho
    exact Or.inr he
  | exit pid status hc | waitpid pid status hr hc | reap pid status he hr hc =>
    obtain rfl := Option.some.inj ho
    exact Or.inl ⟨_, hc, rfl⟩

/-- A child that has not been waited for is new, or had its pid and had not been waited for
before the step. -/
theorem ChildStep.unreaped {c : Child} (hs : ChildStep s e h (some c)) (hc : c.Unreaped) :
    e = .clone h (.ok c.pid) ∨ ∃ c₀, s.child h = some c₀ ∧ c₀.Unreaped ∧ c.pid = c₀.pid := by
  generalize ho : some c = o at hs
  cases hs with
  | same => exact Or.inr ⟨c, ho.symm, hc, rfl⟩
  | clone i pid he =>
    obtain rfl := Option.some.inj ho
    exact Or.inl he
  | exit pid status hold =>
    obtain rfl := Option.some.inj ho
    exact Or.inr ⟨_, hold, trivial, rfl⟩
  | waitpid | reap =>
    obtain rfl := Option.some.inj ho
    exact absurd hc (by simp [Child.Unreaped])

/-- The handlers with a child are listed. -/
theorem cloned_of_child {C : Engine → Event → Prop} (hr : Transition.Run Engine.step C init s)
    {c : Child} (hc : s.child h = some c) : h ∈ s.cloned := by
  revert c h
  refine hr.invariant (I := fun t => ∀ {h c}, t.child h = some c → h ∈ t.cloned)
    (fun hc => by simp [init] at hc) ?_
  intro t e u ht _ hs h c hc
  have key {g : ℕ} {c₀ : Child} (hg : g ∈ t.cloned)
      (hu : Function.update t.child g (some c₀) h = some c) : h ∈ t.cloned := by
    rcases eq_or_ne h g with rfl | hgh
    · exact hg
    · exact ht ((Function.update_of_ne hgh _ _).symm.trans hu)
  cases step_effect hs with
  | clone g i pid hpc hfree =>
    rcases eq_or_ne h g with rfl | hgh
    · exact List.mem_cons_self
    · exact List.mem_cons_of_mem _ (ht ((Function.update_of_ne hgh _ _).symm.trans hc))
  | exit g pid status hc₀ => exact key (ht hc₀) hc
  | waitpid g pid status hr hc₀ => exact key (ht hc₀) hc
  | reap g pid status hr hc₀ => exact key (ht hc₀) hc
  | _ => exact ht hc

end Engine

end Jackfruit
