import Jackfruit.MonitorPass

/-!
# The soft limit

A registration is in force from a successful REGISTER of a pid to the next one, an UNREGISTER, or a
pass that drops the entry (`Period`). `soft_warned` is cleared at its start and set by the warning,
so the warnings of a registration are the first reading above the soft limit, if there is one
(`soft_warning_once`).

Kills and removals are the same whatever the soft limits and the flags are (`SameHard.after`).
-/

set_option linter.unusedSectionVars false

namespace Jackfruit

/-- The RSS in MiB that a pass reads for a process. -/
def Observation.reading (obs : Observation) : Option UInt64 :=
  if !obs.hasTask then none
  else
    match obs.rss with
    | .pages rss => some (rss * PAGE_SIZE / (1024 * 1024))
    | _ => none

/-- The RSS and the soft limit in the warnings for a pid. -/
def softWarnings (pid : ℤ) (actions : List MonitorAction) : List (UInt64 × UInt64) :=
  actions.filterMap fun
    | .softWarning pid' rssMib softLimit => if pid' = pid then some (rssMib, softLimit) else none
    | .sigkill _ => none

namespace MonitorEvent

/-- What the event emits. -/
def actions (l : List MonitorEntry) : MonitorEvent → List MonitorAction
  | ioctl .. => []
  | pass obs => (monitorThreadPass obs l).2

/-- The list after the event. -/
def next (l : List MonitorEntry) : MonitorEvent → List MonitorEntry
  | ioctl cmd reqArg pidArg kmalloc => (monitorIoctl cmd reqArg pidArg kmalloc l).2
  | pass obs => (monitorThreadPass obs l).1

/-- The RSS that the event reads for the pid. -/
def reading (pid : ℤ) : MonitorEvent → Option UInt64
  | ioctl .. => none
  | pass obs => (obs pid).reading

/-- The event reads more for the pid than the limit. -/
def ReadsAbove (pid : ℤ) (limit : UInt64) (e : MonitorEvent) : Prop :=
  ∃ mib ∈ e.reading pid, limit < mib

/-- The event registers or unregisters the pid, or drops its entry. -/
def Ends (pid : ℤ) (l : List MonitorEntry) : MonitorEvent → Prop
  | ioctl cmd reqArg pidArg kmalloc =>
    (monitorIoctl cmd reqArg pidArg kmalloc l).1 = 0 ∧
      (cmd = REGISTER_CONTAINER ∧ (∃ req, reqArg = some req ∧ req.pid = pid) ∨
        cmd = UNREGISTER_CONTAINER ∧ pidArg = some pid)
  | pass obs => pid ∉ (monitorThreadPass obs l).1.map MonitorEntry.pid

end MonitorEvent

namespace Monitor

/-- The list after the events. -/
def after (l : List MonitorEntry) : List MonitorEvent → List MonitorEntry :=
  List.foldl MonitorEvent.next l

/-- What the events emit. -/
def emitted : List MonitorEntry → List MonitorEvent → List MonitorAction
  | _, [] => []
  | l, e :: es => e.actions l ++ emitted (e.next l) es

/-- No event ends the registration of the pid. -/
def Period (pid : ℤ) : List MonitorEntry → List MonitorEvent → Prop
  | _, [] => True
  | l, e :: es => ¬e.Ends pid l ∧ Period pid (e.next l) es

variable {l l' : List MonitorEntry} {e : MonitorEvent} {es : List MonitorEvent} {pid : ℤ}
  {obs : ℤ → Observation} {entry entry' : MonitorEntry} {soft hard : UInt64} {warned : Bool}

theorem Wf.next (hl : Wf l) (e : MonitorEvent) : Wf (e.next l) := by
  cases e with
  | ioctl cmd reqArg pidArg kmalloc => exact hl.monitorIoctl cmd reqArg pidArg kmalloc
  | pass obs => exact hl.monitorThreadPass obs

theorem Wf.after (hl : Wf l) : ∀ {es : List MonitorEvent}, Wf (after l es) := by
  intro es
  induction es generalizing l with
  | nil => exact hl
  | cons e es ih => exact ih (hl.next e)

/-! ## Visits by what they read -/

theorem monitorVisit_of_none {o : Observation} (ho : o.reading = none) :
    monitorVisit entry o = (none, []) := by
  obtain ⟨hasTask, rss, killFinds⟩ := o
  cases hasTask with
  | false => rfl
  | true =>
    cases rss with
    | noTask => rfl
    | noMm => rfl
    | pages rss => cases ho

theorem monitorVisit_of_some {o : Observation} {mib : UInt64} (ho : o.reading = some mib) :
    monitorVisit entry o =
      (some { entry with
          softWarned := entry.softWarned || (!entry.softWarned && decide (mib > entry.softLimit)) },
        (if !entry.softWarned && decide (mib > entry.softLimit) then
          [.softWarning entry.pid mib entry.softLimit] else []) ++
        if decide (mib > entry.hardLimit) && o.killFinds then [.sigkill entry.pid] else []) := by
  obtain ⟨hasTask, rss, killFinds⟩ := o
  cases hasTask with
  | false => cases ho
  | true =>
    cases rss with
    | noTask => cases ho
    | noMm => cases ho
    | pages rss =>
      obtain rfl := Option.some.inj ho
      rfl

theorem visitLimits_eq (o : Observation) (lim : Limits) : visitLimits o lim = o.reading.map
    fun mib => { lim with softWarned := lim.softWarned || decide (mib > lim.softLimit) } := by
  obtain ⟨hasTask, rss, killFinds⟩ := o
  cases hasTask with
  | false => rfl
  | true => cases rss <;> rfl

/-! ## Warnings -/

theorem softWarnings_append (acts acts' : List MonitorAction) :
    softWarnings pid (acts ++ acts') = softWarnings pid acts ++ softWarnings pid acts' :=
  List.filterMap_append

/-- A visit of the pid's entry warns if the flag is clear and it reads more than the soft limit. -/
theorem softWarnings_visit (entry : MonitorEntry) (o : Observation) :
    softWarnings pid (monitorVisit entry o).2 =
      if entry.pid = pid ∧ !entry.softWarned then
        (o.reading.filter (entry.softLimit < ·)).toList.map fun mib => (mib, entry.softLimit)
      else [] := by
  cases ho : o.reading with
  | none => simp [monitorVisit_of_none ho, softWarnings]
  | some mib =>
    have hkill : softWarnings pid (if decide (mib > entry.hardLimit) && o.killFinds then
        [.sigkill entry.pid] else []) = [] := by
      split_ifs <;> rfl
    rw [monitorVisit_of_some ho, softWarnings_append, hkill, List.append_nil]
    by_cases hpid : entry.pid = pid <;> cases entry.softWarned <;>
      by_cases hsoft : entry.softLimit < mib <;> simp [softWarnings, Option.filter, hpid, hsoft]

theorem actions_pass_cons : (monitorThreadPass obs (entry :: l)).2 =
    (monitorVisit entry (obs entry.pid)).2 ++ (monitorThreadPass obs l).2 :=
  rfl

theorem softWarnings_pass_of_not_mem (hmem : pid ∉ l.map MonitorEntry.pid) :
    softWarnings pid (monitorThreadPass obs l).2 = [] := by
  induction l with
  | nil => rfl
  | cons a l ih =>
    rw [List.map_cons, List.mem_cons, not_or] at hmem
    rw [actions_pass_cons, softWarnings_append, ih hmem.2, softWarnings_visit,
      if_neg fun h => hmem.1 h.1.symm, List.append_nil]

/-- The warnings of a pass for a pid are those of the visit of its entry. -/
theorem softWarnings_pass (hl : (l.map MonitorEntry.pid).Nodup) (hmem : entry ∈ l) :
    softWarnings entry.pid (monitorThreadPass obs l).2 =
      softWarnings entry.pid (monitorVisit entry (obs entry.pid)).2 := by
  induction l with
  | nil => simp at hmem
  | cons a l ih =>
    rw [List.map_cons, List.nodup_cons] at hl
    rw [actions_pass_cons, softWarnings_append]
    rcases List.mem_cons.mp hmem with rfl | hmem
    · rw [softWarnings_pass_of_not_mem hl.1, List.append_nil]
    · have hne : a.pid ≠ entry.pid := fun heq => hl.1 (heq ▸ List.mem_map_of_mem hmem)
      rw [softWarnings_visit a, if_neg fun h => hne h.1, List.nil_append, ih hl.2 hmem]

/-! ## Registrations -/

/-- An ioctl that does not end the registration of a pid does not change its limits. -/
theorem lookup_ioctl {cmd : ℕ} {reqArg : Option MonitorRequest} {pidArg : Option ℤ} {kmalloc : Bool}
    (hl : Wf l) (he : ¬(MonitorEvent.ioctl cmd reqArg pidArg kmalloc).Ends pid l) :
    (limits (monitorIoctl cmd reqArg pidArg kmalloc l).2).lookup pid = (limits l).lookup pid := by
  have href : IoctlRefines cmd reqArg pidArg l (monitorIoctl cmd reqArg pidArg kmalloc l).1
      (monitorIoctl cmd reqArg pidArg kmalloc l).2 :=
    monitorIoctl_refines hl cmd reqArg pidArg kmalloc rfl
  obtain ⟨hfail, hother, hreg, hunreg⟩ := href
  by_cases h0 : (monitorIoctl cmd reqArg pidArg kmalloc l).1 = 0
  · have hnot := not_or.mp fun h => he ⟨h0, h⟩
    by_cases hcmd : cmd = REGISTER_CONTAINER
    · obtain ⟨req, hreq, hinsert, -⟩ := hreg hcmd h0
      have hne : pid ≠ req.pid := fun heq => hnot.1 ⟨hcmd, req, hreq, heq.symm⟩
      rw [hinsert, Finmap.lookup_insert_of_ne _ hne]
    · by_cases hcmd' : cmd = UNREGISTER_CONTAINER
      · subst hcmd'
        cases pidArg with
        | none => exact absurd h0 (by simp [monitorIoctl, hcmd, EFAULT])
        | some q =>
          have hne : pid ≠ q := fun heq => hnot.2 ⟨rfl, congrArg some heq.symm⟩
          rw [((hunreg q rfl rfl).2 h0).1, Finmap.lookup_erase_ne hne]
      · exact absurd (h0.symm.trans (hother hcmd hcmd')) (by decide)
  · rw [(hfail h0).2]

/-- A pass ends the registration of a pid by not reading its memory. -/
theorem ends_pass_iff {lim : Limits} (hl : Wf l) (hlookup : (limits l).lookup pid = some lim) :
    (MonitorEvent.pass obs).Ends pid l ↔ (obs pid).reading = none := by
  have hafter := lookup_monitorThreadPass hl.nodup obs pid
  rw [hlookup, Option.bind_some, visitLimits_eq] at hafter
  have hmem : pid ∈ (monitorThreadPass obs l).1.map MonitorEntry.pid ↔
      pid ∈ limits (monitorThreadPass obs l).1 := KeyedList.mem_toMap.symm
  rw [MonitorEvent.Ends, hmem, ← Finmap.lookup_eq_none, hafter, Option.map_eq_none_iff]

/-- While no event ends the registration of a pid, its limits stay, the flag is set by the first
reading above the soft limit, and only that reading gives a warning. -/
theorem registration_step (hl : Wf l)
    (hlookup : (limits l).lookup pid = some ⟨soft, hard, warned⟩) (he : ¬e.Ends pid l) :
    (limits (e.next l)).lookup pid =
        some ⟨soft, hard, warned || (e.reading pid).any (soft < ·)⟩ ∧
      softWarnings pid (e.actions l) = if warned then [] else
        ((e.reading pid).filter (soft < ·)).toList.map fun mib => (mib, soft) := by
  cases e with
  | ioctl cmd reqArg pidArg kmalloc =>
    refine ⟨?_, by cases warned <;> rfl⟩
    rw [MonitorEvent.next, lookup_ioctl hl he, hlookup]
    simp [MonitorEvent.reading]
  | pass obs =>
    obtain ⟨entry, hmem, rfl, hlim⟩ := mem_of_lookup hlookup
    obtain ⟨rfl, -, rfl⟩ := Limits.mk.inj hlim
    constructor
    · obtain ⟨mib, hmib⟩ := Option.ne_none_iff_exists'.mp ((ends_pass_iff hl hlookup).not.mp he)
      rw [MonitorEvent.next, lookup_monitorThreadPass hl.nodup, hlookup, Option.bind_some,
        visitLimits_eq, MonitorEvent.reading, hmib]
      rfl
    · rw [MonitorEvent.actions, softWarnings_pass hl.nodup hmem, softWarnings_visit]
      cases entry.softWarned <;> simp [MonitorEvent.reading]

theorem softWarnings_of_ends (hl : Wf l) (he : e.Ends pid l) :
    softWarnings pid (e.actions l) = [] := by
  cases e with
  | ioctl cmd reqArg pidArg kmalloc => rfl
  | pass obs =>
    cases hlookup : (limits l).lookup pid with
    | none =>
      rw [Finmap.lookup_eq_none, limits, KeyedList.mem_toMap] at hlookup
      exact softWarnings_pass_of_not_mem hlookup
    | some lim =>
      obtain ⟨entry, hmem, rfl, -⟩ := mem_of_lookup hlookup
      rw [MonitorEvent.actions, softWarnings_pass hl.nodup hmem,
        monitorVisit_of_none ((ends_pass_iff hl hlookup).mp he)]
      rfl

theorem Period.append : ∀ (es : List MonitorEvent) {l : List MonitorEntry}
    {es' : List MonitorEvent},
    Period pid l (es ++ es') ↔ Period pid l es ∧ Period pid (after l es) es'
  | [], _, _ => (iff_of_eq (true_and _)).symm
  | _ :: es, _, _ => (and_congr_right' (Period.append es)).trans and_assoc.symm

/-- The limits in a registration, and the warnings of its passes. -/
theorem registration_run : ∀ {es : List MonitorEvent} {l : List MonitorEntry} {warned : Bool},
    Wf l → (limits l).lookup pid = some ⟨soft, hard, warned⟩ → Period pid l es →
    (limits (after l es)).lookup pid =
        some ⟨soft, hard, warned || es.any fun e => (e.reading pid).any (soft < ·)⟩ ∧
      softWarnings pid (emitted l es) = if warned then [] else
        ((es.filterMap (·.reading pid)).find? (soft < ·)).toList.map fun mib => (mib, soft)
  | [], l, warned, _, hlookup, _ => by
    refine ⟨?_, by cases warned <;> rfl⟩
    rw [List.any_nil, Bool.or_false]
    exact hlookup
  | e :: es, l, warned, hl, hlookup, hp => by
    obtain ⟨hnext, hwarn⟩ := registration_step hl hlookup hp.1
    obtain ⟨hafter, hwarns⟩ := registration_run (hl.next e) hnext hp.2
    constructor
    · rw [List.any_cons, ← Bool.or_assoc]
      exact hafter
    · have happend : softWarnings pid (emitted l (e :: es)) =
          softWarnings pid (e.actions l) ++ softWarnings pid (emitted (e.next l) es) :=
        softWarnings_append _ _
      rw [happend, hwarn, hwarns]
      cases warned with
      | true => rfl
      | false =>
        cases hread : e.reading pid with
        | none => simp [hread]
        | some mib => by_cases hsoft : soft < mib <;> simp [hread, hsoft, Option.filter]

/-! ## Kills and removals -/

/-- The entries agree up to the soft limits and the flags. -/
def SameHard : List MonitorEntry → List MonitorEntry → Prop :=
  List.Forall₂ fun entry entry' => entry.pid = entry'.pid ∧ entry.hardLimit = entry'.hardLimit

/-- The requests agree up to the soft limits. -/
inductive SameRequest : MonitorEvent → MonitorEvent → Prop
  | register (cmd : ℕ) (req req' : MonitorRequest) (pidArg : Option ℤ) (kmalloc : Bool) :
      req.pid = req'.pid → req.hardLimit = req'.hardLimit →
      SameRequest (.ioctl cmd (some req) pidArg kmalloc) (.ioctl cmd (some req') pidArg kmalloc)
  | same (e : MonitorEvent) : SameRequest e e

theorem SameHard.map_pid (h : SameHard l l') :
    l.map MonitorEntry.pid = l'.map MonitorEntry.pid := by
  induction h with
  | nil => rfl
  | cons hab _ ih => rw [List.map_cons, List.map_cons, hab.1, ih]

theorem SameHard.isSome_find (h : SameHard l l') (pid : ℤ) :
    (findEntryLocked l pid).isSome = (findEntryLocked l' pid).isSome := by
  rw [Bool.eq_iff_iff, isSome_findEntryLocked, isSome_findEntryLocked, h.map_pid]

theorem SameHard.registerContainer (h : SameHard l l') {req req' : MonitorRequest}
    (hpid : req.pid = req'.pid) (hhard : req.hardLimit = req'.hardLimit) (kmalloc : Bool) :
    SameHard (registerContainer req kmalloc l).2 (registerContainer req' kmalloc l').2 := by
  unfold Jackfruit.registerContainer
  rw [hpid, hhard, h.isSome_find]
  split_ifs
  · exact h
  · exact h
  · exact KeyedList.forall₂_modify (fun _ _ hab => hab.1) (fun _ _ hab => ⟨hab.1, hhard⟩) h
  · exact List.rel_append h (List.Forall₂.cons ⟨hpid, hhard⟩ .nil)
  · exact h

theorem SameHard.removeEntryLocked (h : SameHard l l') (pid : ℤ) :
    SameHard (removeEntryLocked l pid).2 (removeEntryLocked l' pid).2 := by
  unfold Jackfruit.removeEntryLocked
  rw [h.isSome_find]
  split_ifs
  · exact KeyedList.forall₂_remove (fun _ _ hab => hab.1) h
  · exact h

theorem sigkills_append (acts acts' : List MonitorAction) :
    sigkills (acts ++ acts') = sigkills acts ++ sigkills acts' :=
  List.filterMap_append

/-- A visit kills whatever the soft limit is. -/
theorem sigkills_visit (entry : MonitorEntry) (o : Observation) :
    sigkills (monitorVisit entry o).2 =
      if o.reading.any (entry.hardLimit < ·) && o.killFinds then [entry.pid] else [] := by
  cases ho : o.reading with
  | none => simp [monitorVisit_of_none ho, sigkills]
  | some mib =>
    rw [monitorVisit_of_some ho, sigkills_append]
    split_ifs <;> simp_all [sigkills]

theorem SameHard.visit (hpid : entry.pid = entry'.pid) (hhard : entry.hardLimit = entry'.hardLimit)
    (o : Observation) :
    SameHard (monitorVisit entry o).1.toList (monitorVisit entry' o).1.toList := by
  cases ho : o.reading with
  | none =>
    rw [monitorVisit_of_none ho, monitorVisit_of_none ho]
    exact .nil
  | some mib =>
    rw [monitorVisit_of_some ho, monitorVisit_of_some ho]
    exact .cons ⟨hpid, hhard⟩ .nil

/-- A pass kills and drops the same processes. -/
theorem SameHard.pass (h : SameHard l l') :
    SameHard (monitorThreadPass obs l).1 (monitorThreadPass obs l').1 ∧
      sigkills (monitorThreadPass obs l).2 = sigkills (monitorThreadPass obs l').2 := by
  induction h with
  | nil => exact ⟨.nil, rfl⟩
  | @cons a b l l' hab _ ih =>
    constructor
    · have hvisit := SameHard.visit hab.1 hab.2 (obs a.pid)
      rw [monitorThreadPass_cons, monitorThreadPass_cons, ← hab.1]
      exact List.rel_append hvisit ih.1
    · rw [actions_pass_cons, actions_pass_cons, sigkills_append, sigkills_append, ih.2,
        sigkills_visit, sigkills_visit, hab.1, hab.2]

theorem SameHard.next {e' : MonitorEvent} (h : SameHard l l') (he : SameRequest e e') :
    SameHard (e.next l) (e'.next l') ∧
      sigkills (e.actions l) = sigkills (e'.actions l') := by
  cases he with
  | register cmd req req' pidArg kmalloc hpid hhard =>
    refine ⟨?_, rfl⟩
    simp only [MonitorEvent.next, monitorIoctl]
    split_ifs
    · exact h.registerContainer hpid hhard kmalloc
    · cases pidArg with
      | none => exact h
      | some pid => exact h.removeEntryLocked pid
    · exact h
  | same =>
    cases e with
    | ioctl cmd reqArg pidArg kmalloc =>
      refine ⟨?_, rfl⟩
      simp only [MonitorEvent.next, monitorIoctl]
      split_ifs
      · cases reqArg with
        | none => exact h
        | some req => exact h.registerContainer rfl rfl kmalloc
      · cases pidArg with
        | none => exact h
        | some pid => exact h.removeEntryLocked pid
      · exact h
    | pass obs => exact h.pass

/-- Two runs that differ only in soft limits kill and drop the same processes. -/
theorem SameHard.after : ∀ {es es' : List MonitorEvent} {l l' : List MonitorEntry},
    SameHard l l' → List.Forall₂ SameRequest es es' →
    SameHard (after l es) (after l' es') ∧
      sigkills (emitted l es) = sigkills (emitted l' es')
  | [], [], _, _, h, _ => ⟨h, rfl⟩
  | e :: es, e' :: es', l, l', h, .cons he hes => by
    obtain ⟨hnext, hkills⟩ := h.next he
    obtain ⟨hafter, hkills'⟩ := hnext.after hes
    refine ⟨hafter, ?_⟩
    simp only [emitted, sigkills_append, hkills, hkills']

/-! ## One warning for a registration -/

theorem any_reading {softLimit : UInt64} :
    (e.reading pid).any (softLimit < ·) = true ↔ e.ReadsAbove pid softLimit := by
  simp [MonitorEvent.ReadsAbove, Option.any_eq_true]

theorem softWarnings_ne_nil_iff (hl : Wf l)
    (hlookup : (limits l).lookup pid = some ⟨soft, hard, warned⟩) (he : ¬e.Ends pid l) :
    softWarnings pid (e.actions l) ≠ [] ↔ e.ReadsAbove pid soft ∧ warned = false := by
  rw [(registration_step hl hlookup he).2, ← any_reading]
  cases warned <;> cases e.reading pid <;> simp [Option.filter]

/-- After every run, a successful REGISTER and every further run that does not end the registration,
there has been at most one warning for the pid. There has been one if and only if a pass has read
more than the soft limit, and it came in the first such pass; the event that ends the registration
does not warn. Two runs that differ only in soft limits and flags kill and drop the same
processes. -/
theorem soft_warning_once {l₀ : List MonitorEntry} {req : MonitorRequest} {pidArg : Option ℤ}
    {kmalloc : Bool} (hr : Reachable l₀)
    (hreg : monitorIoctl REGISTER_CONTAINER (some req) pidArg kmalloc l₀ = (0, l))
    (hp : Period req.pid l es) :
    (softWarnings req.pid (emitted l es)).length ≤ 1 ∧
      ((softWarnings req.pid (emitted l es)).length = 1 ↔
        ∃ e ∈ es, e.ReadsAbove req.pid req.softLimit) ∧
      (∀ before e later, es = before ++ e :: later →
        (softWarnings req.pid (e.actions (after l before)) ≠ [] ↔
          e.ReadsAbove req.pid req.softLimit ∧
            ∀ e' ∈ before, ¬e'.ReadsAbove req.pid req.softLimit)) ∧
      (∀ e : MonitorEvent, e.Ends req.pid (after l es) →
        softWarnings req.pid (e.actions (after l es)) = []) ∧
      ∀ l₁ l₂ es₁ es₂, SameHard l₁ l₂ → List.Forall₂ SameRequest es₁ es₂ →
        sigkills (emitted l₁ es₁) = sigkills (emitted l₂ es₂) ∧
          (after l₁ es₁).map MonitorEntry.pid = (after l₂ es₂).map MonitorEntry.pid := by
  have hl : Wf l := by
    have hwf := hr.wf.monitorIoctl REGISTER_CONTAINER (some req) pidArg kmalloc
    rwa [hreg] at hwf
  have hlookup : (limits l).lookup req.pid = some ⟨req.softLimit, req.hardLimit, false⟩ := by
    obtain ⟨-, -, hok, -⟩ := monitorIoctl_refines hr.wf _ _ _ _ hreg
    obtain ⟨req', hreq, hinsert, -⟩ := hok rfl rfl
    obtain rfl := Option.some.inj hreq
    rw [hinsert, Finmap.lookup_insert]
  have hwarns := (registration_run hl hlookup hp).2
  refine ⟨?_, ?_, ?_, fun e he => softWarnings_of_ends hl.after he, ?_⟩
  · rw [hwarns]
    cases (es.filterMap (·.reading req.pid)).find? (req.softLimit < ·) <;> simp
  · have hone : ∀ o : Option UInt64, (o.toList.map fun mib => (mib, req.softLimit)).length = 1 ↔
        o.isSome := by
      rintro (_ | _) <;> simp
    rw [hwarns, if_neg Bool.false_ne_true, hone, List.find?_isSome]
    simp only [List.mem_filterMap, decide_eq_true_eq]
    constructor
    · rintro ⟨mib, ⟨e, he, hread⟩, hlt⟩
      exact ⟨e, he, mib, hread, hlt⟩
    · rintro ⟨e, he, mib, hread, hlt⟩
      exact ⟨mib, ⟨e, he, hread⟩, hlt⟩
  · rintro before e later rfl
    obtain ⟨hbefore, hrest⟩ := (Period.append _).mp hp
    have hafter := (registration_run hl hlookup hbefore).1
    rw [softWarnings_ne_nil_iff hl.after hafter hrest.1]
    refine and_congr_right' ?_
    rw [Bool.false_or, List.any_eq_false]
    exact forall₂_congr fun e' _ => not_congr any_reading
  · intro l₁ l₂ es₁ es₂ h hes
    obtain ⟨hafter, hkills⟩ := h.after hes
    exact ⟨hkills, hafter.map_pid⟩

/-- A pass in which every process has this many resident pages. -/
def passOf (rss : UInt64) : MonitorEvent :=
  .pass fun _ => ⟨true, .pages rss, true⟩

/-- The RSS goes above the limit of 40 MiB, below it and above it again. -/
theorem soft_warning_once_example :
    (softWarnings 7 (emitted [⟨7, 40, 64, false⟩]
      [passOf 10000, passOf 11000, passOf 9000, passOf 12000])).length = 1 := by
  have hreg : monitorIoctl REGISTER_CONTAINER (some ⟨7, 40, 64⟩) none true [] =
      (0, [⟨7, 40, 64, false⟩]) := by
    decide
  have hp : Period 7 [⟨7, 40, 64, false⟩]
      [passOf 10000, passOf 11000, passOf 9000, passOf 12000] :=
    ⟨not_not.mpr (by decide), not_not.mpr (by decide), not_not.mpr (by decide),
      not_not.mpr (by decide), trivial⟩
  refine (soft_warning_once .refl hreg hp).2.1.mpr ⟨passOf 11000, by simp, 42, rfl, ?_⟩
  decide

end Monitor

end Jackfruit
