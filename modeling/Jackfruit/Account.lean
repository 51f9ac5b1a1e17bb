import Jackfruit.Processes

/-!
# The account of a handler

What a start has acquired is what it has released, what its program point still holds and what the
statements it has left to execute release (`Account.Balanced`). `Account.Step` lists everything
that a step of the supervisor can do to the account of one handler, and `Balanced.step` says that
none of it unbalances the account.
-/

set_option linter.unusedSectionVars false

namespace Jackfruit

/-- All resources of a start, in the order in which it acquires them. -/
def Resource.order : List Resource :=
  [.readEnd, .writeEnd, .stack, .childArg, .producerArg]

/-- What a start has acquired at a program point, if that is the same in all states. -/
def Pc.taken : Pc → Option (List Resource)
  | .absent | .recv | .reserve | .pipe _ => some []
  | .mallocStack _ => some [.readEnd, .writeEnd]
  | .mallocChild _ => some [.readEnd, .writeEnd, .stack]
  | .clone _ | .mallocArg _ _ => some [.readEnd, .writeEnd, .stack, .childArg]
  | .publish _ _ | .createProducer _ _ => some Resource.order
  | _ => none

/-- What a start that has not published its slot holds for itself. -/
def Pc.held : Pc → Option (List Resource)
  | .absent | .recv | .reserve | .pipe _ | .rollback _ _ => some []
  | .mallocStack _ => some [.readEnd, .writeEnd]
  | .mallocChild _ => some [.readEnd, .writeEnd, .stack]
  | .clone _ => some [.readEnd, .writeEnd, .stack, .childArg]
  | .mallocArg _ _ => some [.readEnd, .stack]
  | .publish _ _ => some [.readEnd, .stack, .producerArg]
  | _ => none

theorem Pc.held_eq_none {pc : Pc} (hr : pc.reserved = none) (hu : pc.unborn = false) :
    pc.held = none := by
  cases pc <;> simp_all [Pc.reserved, Pc.unborn, Pc.held]

/-- What a statement releases. -/
def Cleanup.resource : Cleanup → Option Resource
  | .closeRead => some .readEnd
  | .closeWrite => some .writeEnd
  | .freeStack => some .stack
  | .freeChild => some .childArg
  | .kill _ | .closeClient => none

/-- What these statements release. -/
def owed (todo : List Cleanup) : List Resource :=
  todo.filterMap Cleanup.resource

/-- What concerns one handler. -/
structure Account where
  pc : Pc
  acquired : List Resource
  released : List Resource
  todo : List Cleanup

namespace Account

/-- The resource is acquired and not released. -/
def Open (a : Account) (r : Resource) : Prop :=
  r ∈ a.acquired ∧ r ∉ a.released

/-- The handler's connection is open. -/
def Serves (a : Account) : Prop :=
  a.pc ≠ .absent ∧ (a.pc = .closed → .closeClient ∈ a.todo)

instance (a : Account) (r : Resource) : Decidable (a.Open r) :=
  inferInstanceAs (Decidable (_ ∧ _))

instance (a : Account) : Decidable a.Serves :=
  inferInstanceAs (Decidable (_ ∧ (_ → _)))

/-- Nothing is released twice, and nothing is lost before the start returns or publishes. -/
structure Balanced (a : Account) : Prop where
  taken : ∀ l, a.pc.taken = some l → a.acquired = l
  ordered : a.acquired <+: Resource.order
  balance : ∀ l, a.pc.held = some l → a.acquired.Perm (a.released ++ (l ++ owed a.todo))
  fresh : a.pc.taken = some [] → a.todo = []
  starting : a.pc.held ≠ none → .closeClient ∉ a.todo
  other : a.pc.held = none → a.todo = [] ∨ a.pc = .closed ∧ a.todo = [.closeClient]

/-- What a step of the supervisor can do to one handler's account. -/
inductive Step (a : Account) : Account → Prop
  | same : Step a a
  | accepted : a.pc = .absent → Step a { a with pc := .recv }
  /-- A move that neither acquires nor releases. -/
  | move (pc : Pc) : pc.taken = none ∨ pc.taken = a.pc.taken →
      pc.held = none ∨ pc.held = a.pc.held → a.pc ≠ .absent ∧ a.pc ≠ .closed →
      pc ≠ .absent ∧ pc ≠ .closed → a.todo = [] → Step a { a with pc := pc }
  /-- A call that succeeds and gets `l`. -/
  | took (pc : Pc) (l taken held : List Resource) : a.pc.taken = some taken →
      a.pc.held = some held → pc.taken = some (taken ++ l) → pc.held = some (held ++ l) →
      taken ++ l <+: Resource.order → pc ≠ .absent → a.pc ≠ .absent → a.todo = [] →
      Step a { a with pc := pc, acquired := a.acquired ++ l }
  /-- A call after which the start has to release what it does not hold any more. -/
  | owes (pc : Pc) (todo : List Cleanup) (held held' : List Resource) : a.pc.held = some held →
      pc.held = some held' → held.Perm (held' ++ owed todo) → .closeClient ∉ todo →
      pc.taken = none ∨ pc.taken = a.pc.taken → a.pc.taken ≠ some [] → pc ≠ .absent →
      a.pc ≠ .absent → a.todo = [] → Step a { a with pc := pc, todo := todo }
  /-- The handler is about to close its connection. -/
  | closing : a.pc ≠ .closed → a.pc ≠ .absent → a.todo = [] →
      Step a { a with pc := .closed, todo := [.closeClient] }
  /-- One statement of `todo`. -/
  | worked (c : Cleanup) (rest : List Cleanup) : a.todo = c :: rest →
      Step a { a with released := a.released ++ c.resource.toList, todo := rest }
  /-- The producer or the reaper releases something of a start that has published its slot. -/
  | freed (r : Resource) : a.pc.held = none → Step a { a with released := a.released ++ [r] }

variable {a a' : Account} {r : Resource}

theorem Balanced.step (hb : a.Balanced) (hs : Step a a') : a'.Balanced := by
  cases hs with
  | same => exact hb
  | accepted hpc =>
    have htaken : a.pc.taken = some [] := by rw [hpc]; rfl
    have hheld : a.pc.held = some [] := by rw [hpc]; rfl
    exact ⟨fun l hl => hb.taken l (htaken.trans hl), hb.ordered,
      fun l hl => hb.balance l (hheld.trans hl), fun _ => hb.fresh htaken,
      fun _ => hb.starting (by simp [hheld]), nofun⟩
  | move pc htaken hheld _ _ htodo =>
    constructor
    case taken =>
      intro l hl
      rcases htaken with hnone | heq
      · cases hnone.symm.trans hl
      · exact hb.taken l (heq.symm.trans hl)
    case ordered => exact hb.ordered
    case balance =>
      intro l hl
      rcases hheld with hnone | heq
      · cases hnone.symm.trans hl
      · exact hb.balance l (heq.symm.trans hl)
    case fresh => exact fun _ => htodo
    case starting => simp [htodo]
    case other => exact fun _ => Or.inl htodo
  | took pc l taken held htaken hheld htaken' hheld' hpre _ _ htodo =>
    have hacq := hb.taken taken htaken
    have hbal := hb.balance held hheld
    constructor
    case taken =>
      intro m hm
      rw [hacq]
      exact Option.some.inj (htaken'.symm.trans hm)
    case ordered => exact hacq ▸ hpre
    case balance =>
      intro m hm
      obtain rfl := Option.some.inj (hheld'.symm.trans hm)
      simp only [htodo, owed, List.filterMap_nil, List.append_nil] at hbal ⊢
      rw [← List.append_assoc]
      exact hbal.append_right l
    case fresh => exact fun _ => htodo
    case starting => simp [htodo]
    case other => exact fun heq => absurd (hheld'.symm.trans heq) nofun
  | owes pc todo held held' hheld hheld' hperm hclient htaken hne _ _ htodo =>
    have hbal := hb.balance held hheld
    constructor
    case taken =>
      intro l hl
      rcases htaken with hnone | heq
      · cases hnone.symm.trans hl
      · exact hb.taken l (heq.symm.trans hl)
    case ordered => exact hb.ordered
    case balance =>
      intro m hm
      obtain rfl := Option.some.inj (hheld'.symm.trans hm)
      simp only [htodo, owed, List.filterMap_nil, List.append_nil] at hbal
      exact hbal.trans (hperm.append_left _)
    case fresh =>
      intro hl
      rcases htaken with hnone | heq
      · cases hnone.symm.trans hl
      · exact absurd (heq.symm.trans hl) hne
    case starting => exact fun _ => hclient
    case other => exact fun heq => absurd (hheld'.symm.trans heq) nofun
  | closing =>
    exact ⟨nofun, hb.ordered, nofun, nofun, fun h => absurd rfl h, fun _ => Or.inr ⟨rfl, rfl⟩⟩
  | worked c rest htodo =>
    constructor
    case taken => exact hb.taken
    case ordered => exact hb.ordered
    case balance =>
      intro l hl
      have hbal := hb.balance l hl
      have howed : owed a.todo = c.resource.toList ++ owed rest := by
        rw [htodo, owed, List.filterMap_cons]
        cases c.resource <;> rfl
      rw [howed] at hbal
      refine hbal.trans ?_
      rw [List.append_assoc]
      refine List.Perm.append_left _ ?_
      rw [← List.append_assoc, ← List.append_assoc]
      exact List.perm_append_comm.append_right _
    case fresh => exact fun hl => absurd (htodo.symm.trans (hb.fresh hl)) nofun
    case starting => exact fun hne hmem => hb.starting hne (htodo ▸ List.mem_cons_of_mem _ hmem)
    case other =>
      intro hnone
      rcases hb.other hnone with hnil | ⟨-, hone⟩
      · simp [hnil] at htodo
      · rw [htodo] at hone
        exact Or.inl (List.cons.inj hone).2
  | freed r hnone =>
    exact ⟨hb.taken, hb.ordered, fun l hl => absurd (hnone.symm.trans hl) nofun, hb.fresh,
      hb.starting, hb.other⟩

/-- A connection is opened by `accept` and closed by the handler. -/
theorem Step.serves (hs : Step a a') :
    (a'.Serves ↔ a.Serves) ∨ a.pc = .absent ∧ a'.pc = .recv ∨
      a.todo = .closeClient :: a'.todo := by
  have hclosed {l : List Resource} (hl : a.pc.held = some l) : a.pc ≠ .closed := by
    rintro hpc
    simp [hpc, Pc.held] at hl
  cases hs with
  | same | freed => exact Or.inl Iff.rfl
  | accepted hpc => exact Or.inr (Or.inl ⟨hpc, rfl⟩)
  | move pc _ _ hpc hpc' => exact Or.inl (by simp [Serves, hpc, hpc'])
  | took pc l taken held _ hheld _ hheld' _ hpc' hpc =>
    have hne : pc ≠ .closed := by
      rintro rfl
      cases hheld'
    exact Or.inl (by simp [Serves, hpc, hpc', hne, hclosed hheld])
  | owes pc todo held held' hheld hheld' _ _ _ _ hpc' hpc =>
    have hne : pc ≠ .closed := by
      rintro rfl
      cases hheld'
    exact Or.inl (by simp [Serves, hpc, hpc', hne, hclosed hheld])
  | closing hne hpc => exact Or.inl (by simp [Serves, hne, hpc])
  | worked c rest htodo =>
    rcases eq_or_ne c .closeClient with rfl | hc
    · exact Or.inr (Or.inr htodo)
    · exact Or.inl (by simp [Serves, htodo, Ne.symm hc])

theorem Balanced.nodup (hb : a.Balanced) : a.acquired.Nodup :=
  hb.ordered.sublist.nodup (by decide)

/-- What a statement is about to release is still there. -/
theorem Balanced.open_of_mem {c : Cleanup} (hb : a.Balanced) (hc : c ∈ a.todo)
    (hr : c.resource = some r) : a.Open r := by
  have hheld : a.pc.held ≠ none := by
    intro hnone
    rcases hb.other hnone with hnil | ⟨-, hone⟩
    · simp [hnil] at hc
    · obtain rfl := List.mem_singleton.mp (hone ▸ hc)
      cases hr
  obtain ⟨l, hl⟩ := Option.ne_none_iff_exists'.mp hheld
  have hbal := hb.balance l hl
  have howed : r ∈ l ++ owed a.todo :=
    List.mem_append_right _ (List.mem_filterMap.mpr ⟨c, hc, hr⟩)
  have hnodup := hbal.nodup_iff.mp hb.nodup
  exact ⟨hbal.mem_iff.mpr (List.mem_append_right _ howed),
    fun hrel => List.disjoint_of_nodup_append hnodup hrel howed⟩

/-- A handler closes its connection last. -/
theorem Balanced.closing_of_mem (hb : a.Balanced) (hc : .closeClient ∈ a.todo) :
    a.pc = .closed ∧ a.todo = [.closeClient] := by
  have hheld : a.pc.held = none := by
    by_contra hne
    exact hb.starting hne hc
  rcases hb.other hheld with hnil | hclosing
  · simp [hnil] at hc
  · exact hclosing

/-- A handler that is about to close its connection still has it. -/
theorem Balanced.serves_of_mem (hb : a.Balanced) (hc : .closeClient ∈ a.todo) : a.Serves :=
  ⟨by simp [(hb.closing_of_mem hc).1], fun _ => hc⟩

end Account

end Jackfruit
