import Jackfruit.LinkedList
import Jackfruit.Monitor

/-!
# One pass of the monitor on the kernel's list

`monitor_thread_fn` walks over `monitor_list` with `list_for_each_entry_safe`, which reads the link
of the next entry before the body of the loop may unlink and free the one it is at. `monitorPass` is
this walk on a heap of entries and links, where reading a freed entry is an error. It is the pass
`monitorThreadPass` over the list that the heap represents, and visits every entry once
(`monitorPass_spec`).

The policy compares memory sizes as natural numbers : what it leaves of an entry (`kept`) and which
processes it kills (`killed`). `monitor_pass_policy` says that the pass follows it.
-/

set_option linter.unusedSectionVars false

open LinkedList

namespace Jackfruit

/-- The entries on the heap and the links between them. -/
structure MonitorHeap where
  links : Links ℕ
  /-- Nothing where no entry is allocated. -/
  entry : ℕ → Option MonitorEntry
  /-- The entries visited so far. No step reads it. -/
  visited : List ℕ
  actions : List MonitorAction

namespace MonitorHeap

variable (obs : ℤ → Observation) (head poison : ℕ) (s : MonitorHeap)

/-- `list_next_entry`; the entry must not have been freed. -/
def nextEntry (a : ℕ) : Option ℕ :=
  if a = head ∨ (s.entry a).isSome then some (s.links.next a) else none

/-- The loop body for the entry at `pos`. -/
def visit (pos : ℕ) : Option MonitorHeap :=
  (s.entry pos).map fun entry => {
    links :=
      if (monitorVisit entry (obs entry.pid)).1.isNone then s.links.del poison pos else s.links
    entry := Function.update s.entry pos (monitorVisit entry (obs entry.pid)).1
    visited := s.visited ++ [pos]
    actions := s.actions ++ (monitorVisit entry (obs entry.pid)).2 }

/-- `list_for_each_entry_safe` from the entry `pos` on, where `tmp` is the next one; `fuel` bounds
the number of rounds. -/
def forEachSafe : ℕ → ℕ → ℕ → MonitorHeap → Option MonitorHeap
  | 0, _, _, _ => none
  | fuel + 1, pos, tmp, s =>
    if pos = head then some s
    else (s.visit obs poison pos).bind fun t =>
      (t.nextEntry head tmp).bind fun next => forEachSafe fuel tmp next t

/-- One pass of `monitor_thread_fn`. -/
def monitorPass (fuel : ℕ) : Option MonitorHeap :=
  (s.nextEntry head head).bind fun pos =>
    (s.nextEntry head pos).bind fun tmp => forEachSafe obs head poison fuel pos tmp s

/-- The heap holds the list `l` in the entries at `as`. -/
structure Represents (s : MonitorHeap) (head : ℕ) (as : List ℕ) (l : List MonitorEntry) : Prop where
  ring : Ring s.links head as
  entries : as.map s.entry = l.map some

variable {obs head poison s} {t : MonitorHeap} {a b : ℕ} {as done : List ℕ}
  {l kept : List MonitorEntry} {entry : MonitorEntry}

theorem nextEntry_eq (ha : a = head ∨ ∃ e, s.entry a = some e) :
    s.nextEntry head a = some (s.links.next a) := by
  refine if_pos (ha.imp_right ?_)
  rintro ⟨e, he⟩
  rw [he]
  rfl

theorem visit_eq (ha : s.entry a = some entry) : s.visit obs poison a = some {
    links :=
      if (monitorVisit entry (obs entry.pid)).1.isNone then s.links.del poison a else s.links
    entry := Function.update s.entry a (monitorVisit entry (obs entry.pid)).1
    visited := s.visited ++ [a]
    actions := s.actions ++ (monitorVisit entry (obs entry.pid)).2 } := by
  rw [visit, ha, Option.map_some]

theorem map_update {f : ℕ → Option MonitorEntry} {o : Option MonitorEntry} (ha : a ∉ as) :
    as.map (Function.update f a o) = as.map f := by
  refine List.map_congr_left fun b hb => Function.update_of_ne ?_ _ _
  rintro rfl
  exact ha hb

/-- A visit makes the heap represent what remains of the entry between those before it and those
after it. -/
theorem Represents.visit (obs : ℤ → Observation) (poison : ℕ)
    (hr : s.Represents head (done ++ a :: as) (kept ++ entry :: l))
    (hlen : done.length = kept.length) :
    ∃ t rest, s.visit obs poison a = some t ∧ rest.Sublist [a] ∧
      t.Represents head (done ++ rest ++ as)
        (kept ++ (monitorVisit entry (obs entry.pid)).1.toList ++ l) ∧
      (done ++ rest).length = (kept ++ (monitorVisit entry (obs entry.pid)).1.toList).length ∧
      t.visited = s.visited ++ [a] ∧
      t.actions = s.actions ++ (monitorVisit entry (obs entry.pid)).2 ∧
      ∀ b, (t.entry b).isSome → (s.entry b).isSome ∧ (b = a → b ∈ rest) := by
  have hentries := hr.entries
  simp only [List.map_append, List.map_cons] at hentries
  obtain ⟨hdone, hrest⟩ := List.append_inj hentries (by simpa using hlen)
  obtain ⟨ha, has⟩ := List.cons.inj hrest
  have hnodup := (List.nodup_cons.mp hr.ring.nodup).2
  rw [List.nodup_middle, List.nodup_cons, List.mem_append, not_or] at hnodup
  obtain ⟨⟨hnd, hna⟩, -⟩ := hnodup
  refine ⟨_, if (monitorVisit entry (obs entry.pid)).1.isNone then [] else [a], visit_eq ha, ?_,
    ?_, ?_, rfl, rfl, fun b hb => ?_⟩
  · split_ifs <;> simp
  · cases hv : (monitorVisit entry (obs entry.pid)).1 with
    | none =>
      constructor
      · simpa using hr.ring.del poison
      · simp [map_update hnd, map_update hna, hdone, has]
    | some e =>
      constructor
      · simpa using hr.ring
      · simp [map_update hnd, map_update hna, hdone, has]
  · cases hv : (monitorVisit entry (obs entry.pid)).1 <;> simp [hlen]
  · rcases eq_or_ne b a with rfl | hba
    · simp only [Function.update_self] at hb
      refine ⟨by rw [ha]; rfl, fun _ => ?_⟩
      rw [if_neg (by simpa using Option.isSome_iff_ne_none.mp hb)]
      exact List.mem_singleton_self b
    · simp only [Function.update_of_ne hba] at hb
      exact ⟨hb, fun heq => absurd heq hba⟩

/-- The walk from the first entry of `as` on, after the entries `done` that it has kept. -/
theorem Represents.forEachSafe (obs : ℤ → Observation) (poison : ℕ) :
    ∀ {as done : List ℕ} {l kept : List MonitorEntry} {s : MonitorHeap} {fuel tmp : ℕ},
    s.Represents head (done ++ as) (kept ++ l) →
    done.length = kept.length → as.length < fuel → (as ≠ [] → tmp = as.tail.headD head) →
    ∃ t rest, forEachSafe obs head poison fuel (as.headD head) tmp s = some t ∧
      rest.Sublist as ∧ t.Represents head (done ++ rest) (kept ++ (monitorThreadPass obs l).1) ∧
      t.visited = s.visited ++ as ∧ t.actions = s.actions ++ (monitorThreadPass obs l).2 ∧
      ∀ b, (t.entry b).isSome → (s.entry b).isSome ∧ (b ∈ as → b ∈ rest)
  | [], done, l, kept, s, fuel + 1, tmp, hr, hlen, _, _ => by
    obtain rfl : l = [] := by
      have hle := congrArg List.length hr.entries
      simp only [List.append_nil, List.map_append, List.length_append, List.length_map] at hle
      exact List.length_eq_zero_iff.mp (by omega)
    exact ⟨s, [], by simp [MonitorHeap.forEachSafe], List.Sublist.refl _, hr,
      (List.append_nil _).symm, (List.append_nil _).symm, fun b hb => ⟨hb, id⟩⟩
  | a :: as, done, [], kept, s, fuel, tmp, hr, hlen, _, _ => by
    have hle := congrArg List.length hr.entries
    simp only [List.map_append, List.length_append, List.length_map, List.length_cons,
      List.length_nil] at hle
    omega
  | a :: as, done, entry :: l, kept, s, fuel + 1, tmp, hr, hlen, hfuel, htmp => by
    obtain ⟨t, rest, hvisit, hsub, ht, hlen', hvisited, hactions, hfreed⟩ :=
      hr.visit obs poison hlen
    have hfuel' : as.length < fuel := by simpa using hfuel
    have hne : a ≠ head := by
      rintro rfl
      exact (List.nodup_cons.mp hr.ring.nodup).1 (by simp)
    -- The next entry has not been freed, and its link leads to the one after it.
    obtain ⟨next, hnext, hlink⟩ : ∃ next, t.nextEntry head tmp = some next ∧
        (as ≠ [] → next = as.tail.headD head) := by
      rw [htmp nofun, List.tail_cons]
      cases as with
      | nil => exact ⟨_, nextEntry_eq (Or.inl rfl), fun h => absurd rfl h⟩
      | cons b as =>
        refine ⟨_, nextEntry_eq (Or.inr ?_), fun _ => ht.ring.next_eq⟩
        have hb : t.entry b ∈ (done ++ rest ++ b :: as).map t.entry :=
          List.mem_map_of_mem (by simp)
        rw [ht.entries] at hb
        obtain ⟨e, -, he⟩ := List.mem_map.mp hb
        exact ⟨e, he.symm⟩
    obtain ⟨u, rest', hu, hsub', hrep, hvisited', hactions', hfreed'⟩ :=
      ht.forEachSafe obs poison hlen' hfuel' hlink
    refine ⟨u, rest ++ rest', ?_, hsub.append hsub', ?_, ?_, ?_, fun b hb => ?_⟩
    · rw [htmp nofun] at hnext ⊢
      simp only [MonitorHeap.forEachSafe, List.headD_cons, if_neg hne, hvisit, Option.bind_some,
        List.tail_cons] at hnext ⊢
      rw [hnext, Option.bind_some]
      exact hu
    · simpa [monitorThreadPass] using hrep
    · rw [hvisited', hvisited, List.append_assoc]
      rfl
    · rw [hactions', hactions, List.append_assoc]
      rfl
    · obtain ⟨hb', hrest'⟩ := hfreed' b hb
      obtain ⟨hb'', hrest⟩ := hfreed b hb'
      refine ⟨hb'', fun hmem => List.mem_append.mpr ?_⟩
      exact (List.mem_cons.mp hmem).imp hrest hrest'

/-- A pass over the kernel's list visits every entry once and in order, frees the entries that it
drops and no others, and leaves the list of the entries that it keeps; of the entries visited only
these are still allocated. -/
theorem monitorPass_frees (obs : ℤ → Observation) (poison : ℕ) {fuel : ℕ}
    (hr : s.Represents head as l) (hfuel : as.length < fuel) :
    ∃ t rest, monitorPass obs head poison s fuel = some t ∧ rest.Sublist as ∧
      t.Represents head rest (monitorThreadPass obs l).1 ∧ t.visited = s.visited ++ as ∧
      t.actions = s.actions ++ (monitorThreadPass obs l).2 ∧
      ∀ b, (t.entry b).isSome → (s.entry b).isSome ∧ (b ∈ as → b ∈ rest) := by
  have hfirst : s.links.next head = as.headD head := hr.ring.next.first
  obtain ⟨tmp, htmp, hlink⟩ : ∃ tmp, s.nextEntry head (as.headD head) = some tmp ∧
      (as ≠ [] → tmp = as.tail.headD head) := by
    cases as with
    | nil => exact ⟨_, nextEntry_eq (Or.inl rfl), fun h => absurd rfl h⟩
    | cons a as =>
      refine ⟨_, nextEntry_eq (Or.inr ?_), fun _ => hr.ring.next.2.first⟩
      have ha : s.entry a ∈ (a :: as).map s.entry := List.mem_map_of_mem List.mem_cons_self
      rw [hr.entries] at ha
      obtain ⟨e, -, he⟩ := List.mem_map.mp ha
      exact ⟨e, he.symm⟩
  have hr' : s.Represents head ([] ++ as) ([] ++ l) := hr
  obtain ⟨t, rest, ht, hrest⟩ := hr'.forEachSafe obs poison rfl hfuel hlink
  refine ⟨t, rest, ?_, hrest⟩
  rw [monitorPass, nextEntry_eq (Or.inl rfl), Option.bind_some, hfirst, htmp, Option.bind_some]
  exact ht

theorem monitorPass_spec (obs : ℤ → Observation) (poison : ℕ) {fuel : ℕ}
    (hr : s.Represents head as l) (hfuel : as.length < fuel) :
    ∃ t rest, monitorPass obs head poison s fuel = some t ∧ rest.Sublist as ∧
      t.Represents head rest (monitorThreadPass obs l).1 ∧ t.visited = s.visited ++ as ∧
      t.actions = s.actions ++ (monitorThreadPass obs l).2 := by
  obtain ⟨t, rest, ht, hsub, hrep, hvisited, hactions, -⟩ := monitorPass_frees obs poison hr hfuel
  exact ⟨t, rest, ht, hsub, hrep, hvisited, hactions⟩

end MonitorHeap

/-! ## The policy -/

/-- What the helpers find out about a process of which nothing changes during the pass. -/
def observe (env : ℤ → RssLookup) (pid : ℤ) : Observation :=
  match env pid with
  | .noTask => ⟨false, .noTask, false⟩
  | .noMm => ⟨true, .noMm, true⟩
  | .pages rss => ⟨true, .pages rss, true⟩

/-- The resident memory in MiB, nothing without a task or an mm. -/
def residentMib : RssLookup → Option ℕ
  | .pages rss => some (rss.toNat * 4096 / 2 ^ 20)
  | _ => none

/-- What the policy leaves of an entry. -/
def MonitorEntry.kept (entry : MonitorEntry) (found : RssLookup) : Option MonitorEntry :=
  (residentMib found).map fun mib =>
    { entry with softWarned := entry.softWarned || decide (entry.softLimit.toNat < mib) }

/-- The policy kills the process. -/
def MonitorEntry.killed (entry : MonitorEntry) (found : RssLookup) : Bool :=
  (residentMib found).any fun mib => entry.hardLimit.toNat < mib

/-- The pids that SIGKILL is sent to. -/
def sigkills (actions : List MonitorAction) : List ℤ :=
  actions.filterMap fun
    | .sigkill pid => some pid
    | .softWarning .. => none

/-- The resident pages are fewer than 2^64 bytes. -/
def RssLookup.Fits (found : RssLookup) : Prop :=
  ∀ rss, found = .pages rss → rss.toNat < 2 ^ 52

theorem toNat_bytes {rss : UInt64} (h : rss.toNat < 2 ^ 52) :
    (rss * PAGE_SIZE).toNat = rss.toNat * 4096 := by
  rw [UInt64.toNat_mul]
  exact Nat.mod_eq_of_lt (by simp only [PAGE_SIZE, UInt64.reduceToNat]; omega)

theorem toNat_rssMib {rss : UInt64} (h : rss.toNat < 2 ^ 52) :
    (rss * PAGE_SIZE / (1024 * 1024)).toNat = rss.toNat * 4096 / 2 ^ 20 := by
  rw [UInt64.toNat_div, toNat_bytes h]
  rfl

/-- A visit follows the policy. -/
theorem monitorVisit_observe {env : ℤ → RssLookup} (henv : ∀ pid, (env pid).Fits)
    (entry : MonitorEntry) :
    (monitorVisit entry (observe env entry.pid)).1 = entry.kept (env entry.pid) ∧
      sigkills (monitorVisit entry (observe env entry.pid)).2 =
        if entry.killed (env entry.pid) then [entry.pid] else [] := by
  cases hfound : env entry.pid with
  | noTask => simp [observe, hfound, monitorVisit, MonitorEntry.kept, MonitorEntry.killed,
      residentMib, sigkills]
  | noMm => simp [observe, hfound, monitorVisit, getProcessRssMib, ESRCH, MonitorEntry.kept,
      MonitorEntry.killed, residentMib, sigkills]
  | pages rss =>
    have hmib := toNat_rssMib (henv entry.pid rss hfound)
    simp only [observe, hfound, monitorVisit, getProcessRssMib, MonitorEntry.kept,
      MonitorEntry.killed, residentMib, sigkills, gt_iff_lt, UInt64.lt_iff_toNat_lt, hmib]
    cases entry.softWarned <;> simp <;> split_ifs <;> simp

/-- A pass follows the policy. -/
theorem monitorThreadPass_observe {env : ℤ → RssLookup} (henv : ∀ pid, (env pid).Fits) :
    ∀ l : List MonitorEntry,
    (monitorThreadPass (observe env) l).1 = l.filterMap (fun e => e.kept (env e.pid)) ∧
      sigkills (monitorThreadPass (observe env) l).2 =
        (l.filter fun e => e.killed (env e.pid)).map MonitorEntry.pid
  | [] => ⟨rfl, rfl⟩
  | entry :: l => by
    obtain ⟨hkept, hkills⟩ := monitorVisit_observe henv entry
    obtain ⟨hkept', hkills'⟩ := monitorThreadPass_observe henv l
    constructor
    · rw [Monitor.monitorThreadPass_cons, hkept, hkept', List.filterMap_cons]
      cases entry.kept (env entry.pid) <;> rfl
    · have happend : sigkills (monitorThreadPass (observe env) (entry :: l)).2 =
          sigkills (monitorVisit entry (observe env entry.pid)).2 ++
            sigkills (monitorThreadPass (observe env) l).2 :=
        List.filterMap_append
      rw [happend, hkills, hkills', List.filter_cons]
      split_ifs <;> rfl

variable {env : ℤ → RssLookup} {entry : MonitorEntry} {l : List MonitorEntry}

theorem mem_sigkills (henv : ∀ pid, (env pid).Fits) {pid : ℤ} :
    pid ∈ sigkills (monitorThreadPass (observe env) l).2 ↔
      ∃ entry ∈ l, entry.pid = pid ∧ entry.killed (env pid) := by
  rw [(monitorThreadPass_observe henv l).2, List.mem_map]
  constructor
  · rintro ⟨entry, hmem, rfl⟩
    obtain ⟨hmem, hkilled⟩ := List.mem_filter.mp hmem
    exact ⟨entry, hmem, rfl, hkilled⟩
  · rintro ⟨entry, hmem, rfl, hkilled⟩
    exact ⟨entry, List.mem_filter.mpr ⟨hmem, hkilled⟩, rfl⟩

/-- In bytes, which are compared with the limit in MiB rounded down. -/
theorem killed_iff {rss : UInt64} (hfound : env entry.pid = .pages rss) :
    entry.killed (env entry.pid) ↔ (entry.hardLimit.toNat + 1) * 2 ^ 20 ≤ rss.toNat * 4096 := by
  rw [hfound]
  simp only [MonitorEntry.killed, residentMib, Option.any_some, decide_eq_true_eq]
  exact Nat.le_div_iff_mul_le (by decide)

/-- Over a list with distinct pids that the heap holds, and whatever the processes are, one pass
visits every entry once. It leaves the entries of the processes with an mm, in order and changed
only in the flag, and frees the others. It sends one SIGKILL to every process with more resident
memory in MiB than its hard limit and none to any other pid : a process at the limit is not killed,
and one at the next MiB is. -/
theorem monitor_pass_policy {s : MonitorHeap} {head : ℕ} {as : List ℕ}
    (hr : s.Represents head as l) (hl : (l.map MonitorEntry.pid).Nodup)
    (henv : ∀ pid, (env pid).Fits) (poison : ℕ) {fuel : ℕ} (hfuel : as.length < fuel) :
    ∃ t rest actions, s.monitorPass (observe env) head poison fuel = some t ∧
      t.visited = s.visited ++ as ∧ as.Nodup ∧
      rest.Sublist as ∧ t.Represents head rest (l.filterMap fun e => e.kept (env e.pid)) ∧
      t.actions = s.actions ++ actions ∧
      (sigkills actions).Nodup ∧
      (∀ pid, pid ∈ sigkills actions ↔ ∃ e ∈ l, e.pid = pid ∧ e.killed (env pid)) ∧
      ∀ e ∈ l, ∀ rss, env e.pid = .pages rss →
        (rss * PAGE_SIZE).toNat = rss.toNat * 4096 ∧
        (rss.toNat * 4096 ≤ e.hardLimit.toNat * 2 ^ 20 → e.pid ∉ sigkills actions) ∧
        ((e.hardLimit.toNat + 1) * 2 ^ 20 ≤ rss.toNat * 4096 → e.pid ∈ sigkills actions) := by
  obtain ⟨t, rest, ht, hsub, hrep, hvisited, hactions⟩ :=
    MonitorHeap.monitorPass_spec (observe env) poison hr hfuel
  rw [(monitorThreadPass_observe henv l).1] at hrep
  refine ⟨t, rest, _, ht, hvisited, (List.nodup_cons.mp hr.ring.nodup).2, hsub, hrep, hactions,
    ?_, fun pid => mem_sigkills henv, ?_⟩
  · rw [(monitorThreadPass_observe henv l).2]
    exact hl.sublist (List.filter_sublist.map _)
  intro e he rss hfound
  refine ⟨toNat_bytes (henv e.pid rss hfound), fun hle hmem => ?_, fun hle => ?_⟩
  · -- The pids are distinct, so the entry that is killed is this one.
    obtain ⟨e', he', hpid, hkilled⟩ := (mem_sigkills henv).mp hmem
    obtain rfl := List.inj_on_of_nodup_map hl he' he hpid
    have hlt := (killed_iff hfound).mp hkilled
    omega
  · exact (mem_sigkills henv).mpr ⟨e, he, rfl, (killed_iff hfound).mpr hle⟩

/-- A list of three entries. -/
def threePids : List MonitorEntry :=
  [⟨10, 1, 2, false⟩, ⟨11, 1, 2, false⟩, ⟨12, 1, 2, false⟩]

/-- The entries of `threePids` at the addresses 1 to 3, with the head at 0. -/
def threeEntries : MonitorHeap where
  links := ⟨fun a => (a + 1) % 4, fun a => (a + 3) % 4⟩
  entry
    | 1 => some ⟨10, 1, 2, false⟩
    | 2 => some ⟨11, 1, 2, false⟩
    | 3 => some ⟨12, 1, 2, false⟩
    | _ => none
  visited := []
  actions := []

/-- The first process has exited, the second has 3 MiB and the third a page less. -/
def threeProcesses : ℤ → RssLookup
  | 10 => .noTask
  | 11 => .pages 768
  | _ => .pages 767

/-- The pass over three entries drops the first and kills only the second. -/
theorem monitor_pass_policy_example : ∃ t rest actions,
    threeEntries.monitorPass (observe threeProcesses) 0 0 4 = some t ∧ t.visited = [1, 2, 3] ∧
      t.Represents 0 rest [⟨11, 1, 2, true⟩, ⟨12, 1, 2, true⟩] ∧ (sigkills actions).Nodup ∧
      11 ∈ sigkills actions ∧ 12 ∉ sigkills actions := by
  have hr : threeEntries.Represents 0 [1, 2, 3] threePids :=
    ⟨⟨by decide, ⟨rfl, rfl, rfl, rfl⟩, ⟨rfl, rfl, rfl, rfl⟩⟩, rfl⟩
  have henv : ∀ pid, (threeProcesses pid).Fits := by
    intro pid rss h
    unfold threeProcesses at h
    split at h <;> cases h <;> decide
  obtain ⟨t, rest, actions, ht, hvisited, -, -, hrep, -, hnodup, hkills, -⟩ :=
    monitor_pass_policy hr (by decide) henv 0 (by decide : [1, 2, 3].length < 4)
  have hkept : threePids.filterMap (fun e => e.kept (threeProcesses e.pid)) =
      [⟨11, 1, 2, true⟩, ⟨12, 1, 2, true⟩] := by
    decide
  rw [hkept] at hrep
  refine ⟨t, rest, actions, ht, hvisited, hrep, hnodup, ?_, ?_⟩
  · exact (hkills 11).mpr (by decide)
  · exact (hkills 12).not.mpr (by decide)

end Jackfruit
