import Jackfruit.MonitorThread

/-!
# Whom the monitor kills

An entry holds a bare pid, so a SIGKILL goes to whoever has the pid when `kill_process_by_pid`
looks it up. That is another process than the registered one if this has been waited for and its
pid given away again, before UNREGISTER or between two lookups of a pass (`kills_stranger`). As
long as no process is given a pid that is in the list, it is the process that owned the pid when
it was registered (`kills_registrant`).
-/

set_option linter.unusedSectionVars false

namespace Jackfruit

namespace Monitor

/-- Only a successful REGISTER lists a pid that was not listed. -/
theorem pid_mem_monitorIoctl {l : List MonitorEntry} {cmd : ℕ} {reqArg : Option MonitorRequest}
    {pidArg : Option ℤ} {kmalloc : Bool} {pid : ℤ}
    (hmem : pid ∈ (monitorIoctl cmd reqArg pidArg kmalloc l).2.map MonitorEntry.pid) :
    pid ∈ l.map MonitorEntry.pid ∨ cmd = REGISTER_CONTAINER ∧
      (monitorIoctl cmd reqArg pidArg kmalloc l).1 = 0 ∧ ∃ req ∈ reqArg, req.pid = pid := by
  unfold monitorIoctl at hmem ⊢
  split_ifs at hmem ⊢ with hreg
  · cases reqArg with
    | none => exact Or.inl hmem
    | some req =>
      dsimp only at hmem ⊢
      rcases registerContainer_cases req kmalloc l with
        (heq | heq) | ⟨-, -, -, heq⟩ | ⟨-, -, -, heq⟩ <;> rw [heq] at hmem ⊢
      · exact Or.inl hmem
      · exact Or.inl hmem
      · rw [KeyedList.map_key_modify req.pid_update] at hmem
        exact Or.inl hmem
      · rw [List.map_append] at hmem
        rcases List.mem_append.mp hmem with hmem | hmem
        · exact Or.inl hmem
        · exact Or.inr ⟨hreg, rfl, req, rfl, (List.mem_singleton.mp hmem).symm⟩
  · cases pidArg with
    | none => exact Or.inl hmem
    | some p =>
      dsimp only [removeEntryLocked] at hmem
      split_ifs at hmem
      · obtain ⟨entry, hentry, rfl⟩ := List.mem_map.mp hmem
        exact Or.inl (List.mem_map_of_mem (KeyedList.mem_of_mem_remove hentry))
      · exact Or.inl hmem
  · exact Or.inl hmem

end Monitor

namespace Kernel

variable {s s' : Kernel} {e : KernelEvent}

/-- No process is given a pid that is in the monitor's list. -/
def NoListedPid (s : Kernel) : KernelEvent → Prop
  | .spawn pid => pid ∉ s.list.map MonitorEntry.pid
  | _ => True

instance (s : Kernel) (e : KernelEvent) : Decidable (NoListedPid s e) := by
  unfold NoListedPid
  split <;> infer_instance

/-- Whoever holds a listed pid held it when it was registered. -/
def Owned (s : Kernel) : Prop :=
  ∀ pid ∈ s.list.map MonitorEntry.pid, ∀ p, s.holder pid = some p → s.owner pid = some p.id

/-- The invariant survives every step that keeps the holders and lists no pid. -/
theorem Owned.of_subset (ho : Owned s) (hholder : s'.holder = s.holder)
    (howner : s'.owner = s.owner)
    (hlist : ∀ pid ∈ s'.list.map MonitorEntry.pid, pid ∈ s.list.map MonitorEntry.pid) :
    Owned s' := by
  intro pid hmem p hp
  rw [howner]
  exact ho pid (hlist pid hmem) p (hholder ▸ hp)

theorem Owned.ioctl (ho : Owned s) (htodo : s.todo = []) (cmd : ℕ) (reqArg : Option MonitorRequest)
    (pidArg : Option ℤ) (kmalloc : Bool) : Owned (s.ioctl cmd reqArg pidArg kmalloc) := by
  intro pid hmem p hp
  have hold (hmem : pid ∈ s.kept.map MonitorEntry.pid) : s.owner pid = some p.id :=
    ho pid (by rwa [list, htodo, List.append_nil]) p hp
  rw [list, show (s.ioctl cmd reqArg pidArg kmalloc).todo = [] from htodo, List.append_nil] at hmem
  have hcases := Monitor.pid_mem_monitorIoctl hmem
  dsimp only [Kernel.ioctl]
  by_cases hreg : cmd = REGISTER_CONTAINER ∧ (monitorIoctl cmd reqArg pidArg kmalloc s.kept).1 = 0
  · rw [if_pos hreg]
    cases reqArg with
    | none => exact hold (hcases.resolve_right fun h => by simpa using h.2.2)
    | some req =>
      dsimp only
      rcases eq_or_ne pid req.pid with rfl | hne
      · rw [Function.update_self]
        change (s.holder req.pid).map Task.id = _
        rw [show s.holder req.pid = some p from hp]
        rfl
      · rw [Function.update_of_ne hne]
        refine hold (hcases.resolve_right fun h => ?_)
        obtain ⟨-, -, req', hreq, rfl⟩ := h
        exact hne (Option.some.inj hreq ▸ rfl)
  · rw [if_neg hreg]
    exact hold (hcases.resolve_right fun h => hreg ⟨h.1, h.2.1⟩)

theorem Owned.step (ho : Owned s) (hr : Refines s) (hs : Effect s e s') (hc : NoListedPid s e) :
    Owned s' := by
  cases hs with
  | ioctl cmd reqArg pidArg kmalloc hpc =>
    rcases hr with ⟨-, htodo, -⟩ | ⟨l, acts, -, hp⟩
    · exact ho.ioctl htodo cmd reqArg pidArg kmalloc
    · exact absurd hpc hp.ne_sleeping
  | lock | present | unlock => exact ho.of_subset rfl rfl fun pid hmem => by simpa [list] using hmem
  | stale entry todo hpc htodo | noRss entry todo found hpc htodo =>
    refine ho.of_subset rfl rfl fun pid hmem => ?_
    simp only [list, delete, htodo, List.map_append, List.map_cons, List.mem_append,
      List.mem_cons] at hmem ⊢
    tauto
  | aboveHard entry todo found hpc htodo | belowHard entry todo found hpc htodo =>
    refine ho.of_subset rfl rfl fun pid hmem => ?_
    simpa [list, advance, warn, warned, htodo] using hmem
  | kill entry todo hpc htodo =>
    unfold killProcessByPid
    split <;> refine ho.of_subset rfl rfl fun pid hmem => ?_ <;>
      simpa [list, advance, htodo] using hmem
  | spawn p hfree =>
    intro pid hmem q hq
    have hne : pid ≠ p := fun heq => hc (heq ▸ hmem)
    exact ho pid hmem q ((Function.update_of_ne hne _ _).symm.trans hq)
  | exit p id hp =>
    intro pid hmem q hq
    rcases eq_or_ne pid p with rfl | hne
    · change Function.update s.holder pid _ pid = some q at hq
      rw [Function.update_self] at hq
      obtain rfl := Option.some.inj hq
      exact ho pid hmem ⟨id, true⟩ hp
    · exact ho pid hmem q ((Function.update_of_ne hne _ _).symm.trans hq)
  | wait p =>
    intro pid hmem q hq
    rcases eq_or_ne pid p with rfl | hne
    · simp at hq
    · exact ho pid hmem q ((Function.update_of_ne hne _ _).symm.trans hq)

/-- A step sends at most one SIGKILL, to the holder of a listed pid. -/
theorem Effect.kills_cases (hs : Effect s e s') : s'.kills = s.kills ∨
    ∃ pid ∈ s.list.map MonitorEntry.pid, ∃ p, s.holder pid = some p ∧
      s'.kills = s.kills ++ [⟨pid, p.id, s.owner pid⟩] := by
  cases hs with
  | kill entry todo hpc htodo =>
    unfold killProcessByPid
    split
    · rename_i p hp
      exact Or.inr ⟨entry.pid, by simp [list, htodo], p, hp, rfl⟩
    · exact Or.inl rfl
  | _ => exact Or.inl rfl

/-- If no process is given a pid that is in the list, then every SIGKILL of the monitor thread goes
to the process that owned the pid when the latest successful REGISTER for it ran. -/
theorem kills_registrant (hr : Transition.Run step NoListedPid init s) :
    ∀ k ∈ s.kills, k.owner = some k.victim := by
  have key : Owned s ∧ ∀ k ∈ s.kills, k.owner = some k.victim := by
    refine hr.invariant_of_reached
      (I := fun t => Owned t ∧ ∀ k ∈ t.kills, k.owner = some k.victim) ⟨?_, ?_⟩ ?_
    · exact fun pid hmem => by simp [list, init] at hmem
    · exact fun k hk => by simp [init] at hk
    · rintro t e u ht ⟨ho, hk⟩ hc hs
      have heff := step_effect hs
      refine ⟨ho.step (.of_run ht) heff hc, fun k hmem => ?_⟩
      rcases heff.kills_cases with heq | ⟨pid, hlisted, p, hp, heq⟩
      · exact hk k (heq ▸ hmem)
      · rw [heq] at hmem
        rcases List.mem_append.mp hmem with hmem | hmem
        · exact hk k hmem
        · obtain rfl := List.mem_singleton.mp hmem
          exact ho pid hlisted p hp
  exact key.2

/-- A process begins and its pid is registered. -/
def playRegister : List KernelEvent :=
  [.spawn 7, .ioctl REGISTER_CONTAINER (some ⟨7, 40, 64⟩) none true]

/-- The process ends and is waited for, and a new one gets its pid. -/
def playReissue : List KernelEvent :=
  [.exit 7, .wait 7, .spawn 7]

/-- A pass over one entry whose process is over its hard limit. -/
def playOverLimit : List KernelEvent :=
  [.lock, .processExists, .rss (.pages 20000), .kill]

/-- A container over its hard limit is killed. -/
theorem kills_registrant_one : ∃ s : Kernel, s.kills = [⟨7, 0, some 0⟩] ∧
    ∀ k ∈ s.kills, k.owner = some k.victim := by
  obtain ⟨s, hr, hk⟩ := Transition.exists_run_of_exec step NoListedPid init
    (playRegister ++ playOverLimit) (fun s => s.kills = [⟨7, 0, some 0⟩]) (by decide)
  exact ⟨s, hk, kills_registrant hr⟩

/-- Both windows. Between two passes the pid of a process that has been waited for, and is still
registered, has gone to a new process, which the next pass kills. And the pass has decided to kill
the registered process, which is replaced by a new one before the last lookup. -/
theorem kills_stranger :
    (∃ s t : Kernel, Transition.Run step Transition.Always init s ∧ s.pc = .sleeping ∧
      s.holder 7 = some ⟨1, true⟩ ∧ s.owner 7 = some 0 ∧
        Transition.Run step Transition.Always s t ∧ t.kills = [⟨7, 1, some 0⟩] ∧
          ¬∀ k ∈ t.kills, k.owner = some k.victim) ∧
    ∃ s t : Kernel, Transition.Run step Transition.Always init s ∧ s.pc = .kill ∧
      s.holder 7 = some ⟨0, true⟩ ∧ s.owner 7 = some 0 ∧
        Transition.Run step Transition.Always s t ∧ t.kills = [⟨7, 1, some 0⟩] ∧
          ¬∀ k ∈ t.kills, k.owner = some k.victim := by
  constructor
  · obtain ⟨s, hr, hpc, hholder, howner, ht⟩ := Transition.exists_run_of_exec step
      Transition.Always init (playRegister ++ playReissue)
      (fun s => s.pc = .sleeping ∧ s.holder 7 = some ⟨1, true⟩ ∧ s.owner 7 = some 0 ∧
        (Transition.exec step Transition.Always s playOverLimit).any (fun t =>
          t.kills = [⟨7, 1, some 0⟩] ∧ ¬∀ k ∈ t.kills, k.owner = some k.victim) = true) (by decide)
    obtain ⟨t, hexec, hk⟩ := (Option.any_eq_true _ _).mp ht
    exact ⟨s, t, hr, hpc, hholder, howner, Transition.run_of_exec hexec, of_decide_eq_true hk⟩
  · obtain ⟨s, hr, hpc, hholder, howner, ht⟩ := Transition.exists_run_of_exec step
      Transition.Always init (playRegister ++ playOverLimit.dropLast)
      (fun s => s.pc = .kill ∧ s.holder 7 = some ⟨0, true⟩ ∧ s.owner 7 = some 0 ∧
        (Transition.exec step Transition.Always s (playReissue ++ [.kill])).any (fun t =>
          t.kills = [⟨7, 1, some 0⟩] ∧ ¬∀ k ∈ t.kills, k.owner = some k.victim) = true) (by decide)
    obtain ⟨t, hexec, hk⟩ := (Option.any_eq_true _ _).mp ht
    exact ⟨s, t, hr, hpc, hholder, howner, Transition.run_of_exec hexec, of_decide_eq_true hk⟩

end Kernel

end Jackfruit
