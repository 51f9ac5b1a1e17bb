import Jackfruit.Unregistration

/-!
# The limits that are enforced

A start passes the two limits of its request to the monitor, where they become unsigned. The
request may carry every `int`, a hard limit of `0` is refused by the monitor, and the start answers
`ok` whatever REGISTER returns. So the entry says what was asked for only if the soft limit is not
negative and the hard limit positive.

The reaper unregisters a pid when its child is gone, but the pid may belong to a new child by
then. And a pass drops the entry of a child that is alive when it finds no memory for it : a process
whose main thread has exited goes on with its other threads, but its leader has no `mm` any more.
Otherwise the entry of a child that is alive stays, unless its pid was in the reaper's hands when it
was registered (`limits_enforced_iff`).
-/

set_option linter.unusedSectionVars false

namespace Jackfruit

/-- The list has an entry for the pid, with these numbers as its limits. -/
def Enforced (l : List MonitorEntry) (pid softMib hardMib : ℤ) : Prop :=
  ∃ entry ∈ l, entry.pid = pid ∧ (entry.softLimit.toNat : ℤ) = softMib ∧
    (entry.hardLimit.toNat : ℤ) = hardMib

instance (l : List MonitorEntry) (pid softMib hardMib : ℤ) :
    Decidable (Enforced l pid softMib hardMib) :=
  inferInstanceAs (Decidable (∃ entry ∈ l, _))

/-- An `int` that is not negative becomes the same `unsigned long`. -/
theorem toNat_ofInt {n : ℤ} (hn : IsInt n) (h0 : 0 ≤ n) : ((UInt64.ofInt n).toNat : ℤ) = n := by
  obtain ⟨-, hlt⟩ := hn
  rw [UInt64.ofInt, UInt64.toNat_ofNat', Nat.mod_eq_of_lt (by omega)]
  omega

/-- Only limits that are in range can be enforced. -/
theorem Enforced.nonneg {l : List MonitorEntry} {pid softMib hardMib : ℤ} (hl : Monitor.Wf l)
    (h : Enforced l pid softMib hardMib) : 0 ≤ softMib ∧ 0 < hardMib := by
  obtain ⟨entry, hmem, -, rfl, rfl⟩ := h
  refine ⟨Int.natCast_nonneg _, ?_⟩
  have hne : entry.hardLimit.toNat ≠ 0 := fun h0 => (hl.entry entry hmem).2 (UInt64.toNat_inj.mp h0)
  omega

namespace Host

variable {s s' : Host} {e : HostEvent} {h : ℕ} {pid : ℤ}

/-- The list has an entry for the pid with these limits. -/
def Listed (s : Host) (pid : ℤ) (soft hard : UInt64) : Prop :=
  ∃ warned, (Monitor.limits s.monitor).lookup pid = some ⟨soft, hard, warned⟩

theorem Listed.enforced {softMib hardMib : ℤ} (hsoft : IsInt softMib) (hhard : IsInt hardMib)
    (h0 : 0 ≤ softMib) (h0' : 0 < hardMib)
    (hl : s.Listed pid (UInt64.ofInt softMib) (UInt64.ofInt hardMib)) :
    Enforced s.monitor pid softMib hardMib := by
  obtain ⟨warned, hlookup⟩ := hl
  obtain ⟨entry, hmem, hpid, hlim⟩ := Monitor.mem_of_lookup hlookup
  obtain ⟨hs, hh, -⟩ := Monitor.Limits.mk.inj hlim
  refine ⟨entry, hmem, hpid, ?_, ?_⟩
  · rw [hs, toNat_ofInt hsoft h0]
  · rw [hh, toNat_ofInt hhard h0'.le]

/-- REGISTER lists what a start asks for if it is in range. -/
theorem listed_register {idx : Slot} (hs : Effect s (.register h true true) s')
    (hpc : (s.engine.handler h).pc = .register idx pid) (hpid : 0 < pid)
    (hint : IsInt (s.engine.req h).hardMib) (h0 : 0 < (s.engine.req h).hardMib) :
    s'.Listed pid (UInt64.ofInt (s.engine.req h).softMib)
      (UInt64.ofInt (s.engine.req h).hardMib) := by
  have hne : (s.request h pid).hardLimit ≠ 0 := by
    intro heq
    have htoNat := toNat_ofInt hint h0.le
    change UInt64.ofInt _ = 0 at heq
    rw [heq] at htoNat
    simp at htoNat
    omega
  have hstep := step_monitor hs
  generalize hm : s'.monitor = m at hstep
  cases hstep with
  | register _ _ idx' p heq hpc' =>
    obtain ⟨rfl, -, rfl⟩ := HostEvent.register.inj heq
    obtain ⟨rfl, rfl⟩ := Pc.register.inj (hpc.symm.trans hpc')
    refine ⟨false, ?_⟩
    rw [hm, Monitor.limits_register (Monitor.register_succeeds hpid hne)]
    exact Finmap.lookup_insert _
  | same hreach => cases hreach
  | unregister _ heq | pass _ heq => cases heq

/-- An entry stays until its pid is registered again or unregistered, or a pass misses it. -/
theorem Listed.step {soft hard : UInt64} (hl : s.Listed pid soft hard) (hwf : Monitor.Wf s.monitor)
    (hs : Effect s e s') (hund : Undisturbed pid s e) (hunreg : s.unregister ≠ some pid) :
    s'.Listed pid soft hard := by
  obtain ⟨hreg, hpass⟩ := hund
  obtain ⟨warned, hlookup⟩ := hl
  have hstep := step_monitor hs
  unfold Listed
  generalize s'.monitor = m at hstep ⊢
  cases hstep with
  | same => exact ⟨warned, hlookup⟩
  | register g kmalloc idx p he hpc =>
    subst he
    refine ⟨warned, ?_⟩
    rcases eq_or_ne pid p with rfl | hne
    · simp only [Reregisters, hpc, Pc.carried, true_and] at hreg
      rw [Monitor.register_fails hreg, hlookup]
    · rw [Monitor.lookup_register_of_ne hne, hlookup]
  | unregister p he hp =>
    subst he
    refine ⟨warned, ?_⟩
    have hne : pid ≠ p := by
      rintro rfl
      exact hunreg hp
    rw [Monitor.lookup_unregister hwf, if_neg hne, hlookup]
  | pass obs he =>
    subst he
    obtain ⟨htask, hrss⟩ := hpass
    obtain ⟨warned', hvisit⟩ := Monitor.visitLimits_found htask hrss ⟨soft, hard, warned⟩
    refine ⟨warned', ?_⟩
    rw [Monitor.lookup_monitorThreadPass hwf.nodup, hlookup, Option.bind_some, hvisit]

/-- A start that has come to REGISTER answers `ok`; the rest is unchanged. -/
theorem register_spec {s s' : Engine} (hs : s.step (.register h) = some s') :
    (s'.handler h).resp.ok = true ∧ s'.main = s.main ∧ s'.reaper = s.reaper ∧
      s'.child = s.child := by
  replace hs := (Engine.step_next hs).2
  simp only [Engine.next, Engine.startStep] at hs
  split at hs
  · cases hs
    exact ⟨by simp [Engine.setHandler, setResponse], rfl, rfl, rfl⟩
  · cases hs

/-- REGISTER does not come to the reaper's hands. -/
theorem inHands_register {reach kmalloc : Bool} (hs : Effect s (.register h reach kmalloc) s') :
    s'.InHands pid ↔ s.InHands pid := by
  cases hs with
  | register _ _ _ idx p engine hpc he =>
    obtain ⟨-, -, hreaper, hchild⟩ := register_spec he
    unfold InHands
    rw [hreaper, hchild]
    cases reach <;> rfl

theorem child_run {C D : Host → HostEvent → Prop} {others : List ℤ} {c : Child}
    (hr : Transition.Run step C (init others) s) (hr' : Transition.Run step D s s')
    (hc : s.engine.child h = some c) : ∃ c', s'.engine.child h = some c' := by
  refine hr'.invariant_of_reached (I := fun t => ∃ c', t.engine.child h = some c') ⟨c, hc⟩ ?_
  rintro t e u ht ⟨c', hc'⟩ - hs
  rcases (step_effect hs).engine_step with heq | ⟨e', -, he⟩
  · exact ⟨c', heq ▸ hc'⟩
  · have w := Engine.Wf.of_run (engine_run (hr.always.trans ht.always))
    obtain ⟨c'', hc'', -⟩ := w.child_step (Engine.step_effect he) hc'
    exact ⟨c'', hc''⟩

/-- A child that is alive after a step of the host was there and alive before. -/
theorem Effect.alive {c c₀ : Child} (hs : Effect s e s') (w : s.engine.Wf)
    (hc₀ : s.engine.child h = some c₀) (hc : s'.engine.child h = some c)
    (halive : c.life = .alive) : s.engine.child h = some c := by
  rcases hs.engine_step with heq | ⟨e', -, he⟩
  · exact heq ▸ hc
  · have hstep := Engine.step_child (Engine.step_effect he) h
    rw [hc] at hstep
    rcases hstep.alive halive with hold | ⟨i, hpc⟩
    · exact hold
    · rw [w.unborn h (by rw [hpc]; rfl)] at hc₀
      cases hc₀

/-- What REGISTER has listed stays while the child is alive, if the reaper does not have its pid. -/
theorem listed_run {C : Host → HostEvent → Prop} {others : List ℤ} {c : Child}
    {soft hard : UInt64} (hr : Transition.Run step C (init others) s)
    (hr' : Transition.Run step (Undisturbed c.pid) s s')
    (hc : s.engine.child h = some c) (halive : c.life = .alive) (hl : s.Listed c.pid soft hard)
    (hno : ¬s.InHands c.pid) (hc' : s'.engine.child h = some c) : s'.Listed c.pid soft hard := by
  suffices h : s'.engine.child h = some c → s'.Listed c.pid soft hard ∧ ¬s'.InHands c.pid from
    (h hc').1
  refine hr'.invariant_of_reached (I := fun t => t.engine.child h = some c →
    t.Listed c.pid soft hard ∧ ¬t.InHands c.pid) (fun _ => ⟨hl, hno⟩) ?_
  intro t e u ht ih hund hs hcu
  have hrt := hr.always.trans ht.always
  have hre := engine_run hrt
  have heff := step_effect hs
  obtain ⟨c₀, hc₀⟩ := child_run hr ht hc
  have hct := heff.alive (Engine.Wf.of_run hre) hc₀ hcu halive
  obtain ⟨hlt, hnot⟩ := ih hct
  have hun : c.Unreaped := by
    rw [Child.Unreaped, halive]
    trivial
  exact ⟨hlt.step (monitor_run hrt).wf heff hund fun h => hnot (Or.inl h),
    not_inHands_step hrt heff hct hcu hun hnot⟩

/-- A pass that does not find a process, or not its memory, leaves no entry for it. -/
theorem missed_pass {obs : ℤ → Observation} (hl : Monitor.Wf s.monitor)
    (hs : Effect s (.pass obs) s') (hmiss : ¬HostEvent.Finds pid (.pass obs)) :
    ∀ entry ∈ s'.monitor, entry.pid ≠ pid := by
  refine Monitor.not_listed_of_lookup ?_
  cases hs
  rw [Monitor.lookup_monitorThreadPass hl.nodup, Option.bind_eq_none_iff]
  exact fun lim _ => Monitor.visitLimits_missed hmiss lim

/-- A start that reaches REGISTER, with memory for the entry, answers `ok`. Its child, if it is
alive then, has the limits that were asked for in the monitor as long as it is alive, not registered
again and found by the passes, if and only if the soft limit is not negative, the hard limit is
positive and its pid is not in the reaper's hands at REGISTER. And a pass that does not find it, or
not its memory, leaves it without an entry. -/
theorem limits_enforced_iff {others : List ℤ} {s₁ : Host} {c : Child}
    (hr : Transition.Run step Transition.Always (init others) s)
    (hsoft : IsInt (s.engine.req h).softMib) (hhard : IsInt (s.engine.req h).hardMib)
    (hs : step s (.register h true true) = some s₁)
    (hc : s₁.engine.child h = some c) (halive : c.life = .alive) :
    (s₁.engine.handler h).resp.ok = true ∧
      ((∀ s', Transition.Run step (Undisturbed c.pid) s₁ s' → s'.engine.child h = some c →
          Enforced s'.monitor c.pid (s.engine.req h).softMib (s.engine.req h).hardMib) ↔
        0 ≤ (s.engine.req h).softMib ∧ 0 < (s.engine.req h).hardMib ∧ ¬s.InHands c.pid) ∧
      ∀ s' obs s'', Transition.Run step Transition.Always s₁ s' →
        ¬HostEvent.Finds c.pid (.pass obs) → step s' (.pass obs) = some s'' →
          ∀ entry ∈ s''.monitor, entry.pid ≠ c.pid := by
  have heff := step_effect hs
  have hr₁ := hr.tail _ trivial hs
  have w := Engine.Wf.of_run (engine_run hr)
  obtain ⟨idx, pid, hpc, hmain, hok, hmain₁, hchild⟩ : ∃ idx pid,
      (s.engine.handler h).pc = .register idx pid ∧ s.engine.main ≠ .returned ∧
        (s₁.engine.handler h).resp.ok = true ∧ s₁.engine.main = s.engine.main ∧
          s₁.engine.child = s.engine.child := by
    cases heff with
    | register _ _ _ idx pid engine hpc he =>
      obtain ⟨hok, hmain, -, hchild⟩ := register_spec he
      exact ⟨idx, pid, hpc, (Engine.step_next he).1, hok, hmain, hchild⟩
  obtain ⟨c₀, hc₀, rfl⟩ := Engine.Carried.of_run (engine_run hr) h pid (by rw [hpc]; rfl)
  obtain rfl : c = c₀ := Option.some.inj (hc.symm.trans ((congrFun hchild h).trans hc₀))
  refine ⟨hok, ⟨fun henf => ?_, fun ⟨h0, h0', hno⟩ s' hr' hc' => ?_⟩, ?_⟩
  · obtain ⟨h0, h0'⟩ := (henf s₁ .refl hc).nonneg (monitor_run hr₁).wf
    refine ⟨h0, h0', fun hin => ?_⟩
    obtain ⟨s', hr', hc', hremoved⟩ := exists_unregistered hr₁ (hmain₁ ▸ hmain)
      (heff.settled_step w (w.published h idx (by rw [hpc]; rfl))).1 hc halive
      ((inHands_register heff).mpr hin)
    obtain ⟨entry, hmem, hpid, -⟩ := henf s' hr' hc'
    exact hremoved entry hmem hpid
  · have hlist := listed_register heff hpc (w.child_pos h c hc₀) hhard h0'
    exact (listed_run hr₁ hr' hc halive hlist (mt (inHands_register heff).mp hno) hc').enforced
      hsoft hhard h0 h0'
  · exact fun s' obs s'' hr' hmiss hs'' =>
      missed_pass (monitor_run (hr₁.trans hr')).wf (step_effect hs'') hmiss

/-- A start request with these limits in which every call succeeds, up to its REGISTER. -/
def playLimits (softMib hardMib : ℤ) : List HostEvent :=
  [Event.loopTest, .accept 0,
    .recv 0 ⟨REQ_START, cstr "a", cstr "a", cstr "true", softMib, hardMib, 0⟩, .reserve 0 0,
    .pipe 0 none, .mallocStack 0 true, .mallocChild 0 true, .clone 0 (.ok 7), .mallocArg 0 true,
    .publish 0, .createProducer 0 true].map .engine

/-- A container with limits of 40 and 64 MiB, after a pass of the monitor. -/
theorem limits_enforced_iff_one : ∃ s' : Host, Enforced s'.monitor 7 40 64 := by
  obtain ⟨s, hr, hsoft, hhard, hno, hs⟩ := Transition.exists_run_of_exec step Transition.Always
    (init []) (playLimits 40 64)
    (fun s => (s.engine.req 0).softMib = 40 ∧ (s.engine.req 0).hardMib = 64 ∧
      (s.unregister = none ∧ s.engine.reaper = .waiting) ∧
        ((step s (.register 0 true true)).any fun s₁ => s₁.engine.child 0 = some ⟨7, .alive⟩ ∧
          ((Transition.exec step (Undisturbed 7) s₁
            [.pass fun _ => ⟨true, .pages 100, true⟩]).any fun s' =>
              decide (s'.engine.child 0 = some ⟨7, .alive⟩)) = true) = true) (by decide)
  obtain ⟨s₁, hs₁, hp⟩ := (Option.any_eq_true _ _).mp hs
  obtain ⟨hc₁, hs'⟩ := of_decide_eq_true hp
  obtain ⟨s', hexec, hc⟩ := (Option.any_eq_true _ _).mp hs'
  have hiff := (limits_enforced_iff hr (by rw [hsoft]; decide) (by rw [hhard]; decide) hs₁ hc₁
    rfl).2.1
  rw [hsoft, hhard] at hiff
  have hfree : ¬s.InHands 7 := by
    simp [InHands, hno.1, hno.2]
  exact ⟨s', hiff.mpr ⟨by decide, by decide, hfree⟩ s' (Transition.run_of_exec hexec)
    (of_decide_eq_true hc)⟩

/-- After the events `before` a start with these limits answers `ok`, and after the events `after`,
none of which registers its child again, the monitor's list is `l`, without an entry with these
limits for the child, which is alive. -/
def Leaves (before after : List HostEvent) (softMib hardMib : ℤ) (l : List MonitorEntry) : Prop :=
  (Transition.exec step Transition.Always (init []) (before ++ playLimits softMib hardMib)).any
    fun s => (s.engine.req 0).softMib = softMib ∧ (s.engine.req 0).hardMib = hardMib ∧
      (step s (.register 0 true true)).any fun s₁ => (s₁.engine.handler 0).resp.ok = true ∧
        (Transition.exec step (fun t e => ¬Reregisters 7 t e) s₁ after).any fun s' =>
          s'.engine.child 0 = some ⟨7, .alive⟩ ∧ s'.monitor = l ∧
            ¬Enforced s'.monitor 7 softMib hardMib

instance (before after : List HostEvent) (softMib hardMib : ℤ) (l : List MonitorEntry) :
    Decidable (Leaves before after softMib hardMib l) :=
  inferInstanceAs (Decidable (_ = true))

/-- A hard limit of `-1` becomes one that is never exceeded; with a hard limit of `0` there is no
entry; an entry with the right limits is removed when the reaper unregisters the pid for an earlier
child; and it is removed by a pass after the main thread of the child has exited. -/
theorem limits_not_enforced : Leaves [] [] 40 (-1) [⟨7, 40, 18446744073709551615, false⟩] ∧
    Leaves [] [] 40 0 [] ∧
      Leaves (playPublished 1 "b" 7 ++ [.register 1 true true] ++ playExit 1)
        [.engine .reap, .unregister true] 40 64 [] ∧
      Leaves [] [.pass fun _ => ⟨true, .noMm, true⟩] 40 64 [] := by
  decide

end Host

end Jackfruit
