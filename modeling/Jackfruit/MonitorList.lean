import Jackfruit.MonitorPass

/-!
# The kernel's list behind the ioctls

Everything that `monitor.c` does to `monitor_list`, on the heap of entries and links of
`MonitorHeap` : the walk of `find_entry_locked`, unlinking and freeing in `remove_entry_locked` and
`monitor_exit`, and allocating and linking in `REGISTER_CONTAINER`. To read the link or the fields
of a freed entry is an error, and so is to free an entry twice (`remove`, which also may not unlink
next to a freed one). Every walk has a bound on its rounds, and running out of it is an error too.

`kernel_list_refines` says that no run meets an error while the bounds exceed the length of the
list, that the heap always holds the list of `Monitor` with the same return values, and that nothing
is allocated but the entries of the list, so that `monitor_exit` frees all of them.
-/

set_option linter.unusedSectionVars false

open LinkedList

namespace Jackfruit

namespace MonitorHeap

section Code

variable (obs : ℤ → Observation) (head poison : ℕ) (s : MonitorHeap)

/-- The head or an entry that is allocated. -/
def Valid (a : ℕ) : Prop :=
  a = head ∨ (s.entry a).isSome

instance (a : ℕ) : Decidable (s.Valid head a) :=
  inferInstanceAs (Decidable (_ ∨ _))

/-- `list_del` and `kfree`; neither the entry nor a neighbour must have been freed. -/
def remove (a : ℕ) : Option MonitorHeap :=
  if (s.entry a).isSome ∧ s.Valid head (s.links.prev a) ∧ s.Valid head (s.links.next a) then
    some { s with links := s.links.del poison a, entry := Function.update s.entry a none }
  else none

/-- `INIT_LIST_HEAD` and `list_add_tail` of the new entry at `a`. -/
def insert (a : ℕ) (entry : MonitorEntry) : Option MonitorHeap :=
  if s.Valid head (s.links.prev head) then
    some { s with
      links := (s.links.initHead a).addTail head a
      entry := Function.update s.entry a (some entry) }
  else none

/-- `list_for_each_entry` of `find_entry_locked`, from the entry `pos` on. -/
def findFrom (pid : ℤ) : ℕ → ℕ → Option (Option ℕ)
  | 0, _ => none
  | fuel + 1, pos =>
    if pos = head then some none
    else (s.entry pos).bind fun entry =>
      if entry.pid = pid then some (some pos)
      else (s.nextEntry head pos).bind fun next => findFrom pid fuel next

/-- `find_entry_locked` : the address of the entry. -/
def findEntryLocked (pid : ℤ) (fuel : ℕ) : Option (Option ℕ) :=
  (s.nextEntry head head).bind fun pos => s.findFrom head pid fuel pos

/-- `list_for_each_entry_safe` of `remove_entry_locked`, which returns from the loop as soon as it
has freed an entry. -/
def removeFrom (pid : ℤ) : ℕ → ℕ → ℕ → Option (ℤ × MonitorHeap)
  | 0, _, _ => none
  | fuel + 1, pos, tmp =>
    if pos = head then some (-ENOENT, s)
    else (s.entry pos).bind fun entry =>
      if entry.pid = pid then (s.remove head poison pos).map fun t => (0, t)
      else (s.nextEntry head tmp).bind fun next => removeFrom pid fuel tmp next

/-- `remove_entry_locked`. -/
def removeEntryLocked (pid : ℤ) (fuel : ℕ) : Option (ℤ × MonitorHeap) :=
  (s.nextEntry head head).bind fun pos =>
    (s.nextEntry head pos).bind fun tmp => s.removeFrom head poison pid fuel pos tmp

/-- The case `REGISTER_CONTAINER` after the copy; `kmalloc` is the address that the allocator has
for a new entry, nothing when it fails. -/
def registerContainer (req : MonitorRequest) (kmalloc : Option ℕ) (fuel : ℕ) :
    Option (ℤ × MonitorHeap) :=
  if req.pid ≤ 0 then some (-EINVAL, s)
  else if req.hardLimit = 0 then some (-EINVAL, s)
  else (s.findEntryLocked head req.pid fuel).bind fun
    | some a => (s.entry a).map fun entry =>
        (0, { s with entry := Function.update s.entry a (some (req.update entry)) })
    | none =>
      match kmalloc with
      | none => some (-ENOMEM, s)
      | some a => (s.insert head a req.entry).map fun t => (0, t)

/-- `monitor_ioctl`. -/
def monitorIoctl (cmd : ℕ) (reqArg : Option MonitorRequest) (pidArg : Option ℤ)
    (kmalloc : Option ℕ) (fuel : ℕ) : Option (ℤ × MonitorHeap) :=
  if cmd = REGISTER_CONTAINER then
    match reqArg with
    | none => some (-EFAULT, s)
    | some req => s.registerContainer head req kmalloc fuel
  else if cmd = UNREGISTER_CONTAINER then
    match pidArg with
    | none => some (-EFAULT, s)
    | some pid => s.removeEntryLocked head poison pid fuel
  else some (-EINVAL, s)

/-- `list_for_each_entry_safe` of `monitor_exit`. -/
def freeFrom : ℕ → ℕ → ℕ → MonitorHeap → Option MonitorHeap
  | 0, _, _, _ => none
  | fuel + 1, pos, tmp, s =>
    if pos = head then some s
    else (s.remove head poison pos).bind fun t =>
      (t.nextEntry head tmp).bind fun next => freeFrom fuel tmp next t

/-- What `monitor_exit` does under the mutex. -/
def monitorExit (fuel : ℕ) : Option MonitorHeap :=
  (s.nextEntry head head).bind fun pos =>
    (s.nextEntry head pos).bind fun tmp => freeFrom head poison fuel pos tmp s

end Code

/-- `LIST_HEAD(monitor_list)` and no entries. -/
def initial : MonitorHeap :=
  ⟨⟨id, id⟩, fun _ => none, [], []⟩

/-- The calls that take the mutex while the module is loaded. -/
inductive Call
  | ioctl (cmd : ℕ) (reqArg : Option MonitorRequest) (pidArg : Option ℤ) (kmalloc : Option ℕ)
      (fuel : ℕ)
  | pass (obs : ℤ → Observation) (fuel : ℕ)

/-- The allocator has no address that is in use. -/
def Fresh (head : ℕ) (s : MonitorHeap) (kmalloc : Option ℕ) : Prop :=
  ∀ a ∈ kmalloc, a ≠ head ∧ s.entry a = none

instance (head : ℕ) (s : MonitorHeap) (kmalloc : Option ℕ) : Decidable (s.Fresh head kmalloc) :=
  inferInstanceAs (Decidable (∀ a ∈ kmalloc, _))

/-- One call. -/
def step (head poison : ℕ) (s : MonitorHeap) : Call → Option MonitorHeap
  | .ioctl cmd reqArg pidArg kmalloc fuel =>
    if s.Fresh head kmalloc then
      (s.monitorIoctl head poison cmd reqArg pidArg kmalloc fuel).map Prod.snd
    else none
  | .pass obs fuel => monitorPass obs head poison s fuel

/-- The heap holds the list `l` in the entries at `as`, and nothing else is allocated. -/
structure Holds (s : MonitorHeap) (head : ℕ) (as : List ℕ) (l : List MonitorEntry) : Prop extends
    Represents s head as l where
  allocated : ∀ a, (s.entry a).isSome → a ∈ as

variable {obs : ℤ → Observation} {head poison : ℕ} {s t : MonitorHeap} {a b : ℕ}
  {as done : List ℕ} {l kept : List MonitorEntry} {entry : MonitorEntry} {pid : ℤ}

namespace Represents

theorem length_eq (hr : s.Represents head as l) : as.length = l.length := by
  simpa using congrArg List.length hr.entries

theorem entry_eq (hr : s.Represents head (done ++ a :: as) (kept ++ entry :: l))
    (hlen : done.length = kept.length) : s.entry a = some entry := by
  have hentries := hr.entries
  simp only [List.map_append, List.map_cons] at hentries
  exact (List.cons.inj (List.append_inj_right hentries (by simpa using hlen))).1

theorem isSome_of_mem (hr : s.Represents head as l) (ha : a ∈ as) : (s.entry a).isSome := by
  have hmem : s.entry a ∈ as.map s.entry := List.mem_map_of_mem ha
  rw [hr.entries] at hmem
  obtain ⟨e, -, he⟩ := List.mem_map.mp hmem
  rw [← he]
  rfl

theorem ne_head (hr : s.Represents head as l) (ha : a ∈ as) : a ≠ head := by
  rintro rfl
  exact (List.nodup_cons.mp hr.ring.nodup).1 ha

theorem nextEntry_eq (hr : s.Represents head as l) (ha : a = head ∨ a ∈ as) :
    s.nextEntry head a = some (s.links.next a) :=
  if_pos (ha.imp_right hr.isSome_of_mem)

theorem valid (hr : s.Represents head as l) (ha : a = head ∨ a ∈ as) : s.Valid head a :=
  ha.imp_right hr.isSome_of_mem

/-- `list_for_each_entry_safe` has read the link after the next entry. -/
theorem next_tmp (hr : s.Represents head (done ++ as) l) :
    ∃ next, s.nextEntry head (as.headD head) = some next ∧
      (as ≠ [] → next = as.tail.headD head) := by
  cases as with
  | nil => exact ⟨_, hr.nextEntry_eq (Or.inl rfl), fun h => absurd rfl h⟩
  | cons a as => exact ⟨_, hr.nextEntry_eq (Or.inr (by simp)), fun _ => hr.ring.next_eq⟩

/-- Unlinking and freeing one entry. -/
theorem remove (poison : ℕ) (hr : s.Represents head (done ++ a :: as) (kept ++ entry :: l))
    (hlen : done.length = kept.length) :
    ∃ t, s.remove head poison a = some t ∧ t.Represents head (done ++ as) (kept ++ l) ∧
      t.actions = s.actions ∧ t.entry = Function.update s.entry a none := by
  have hprev : s.links.prev a = head ∨ s.links.prev a ∈ done ++ a :: as := by
    rw [hr.ring.prev_eq]
    exact (getLastD_mem done).imp_right (List.mem_append_left _)
  have hnext : s.links.next a = head ∨ s.links.next a ∈ done ++ a :: as := by
    rw [hr.ring.next_eq]
    exact (headD_mem as).imp_right fun h => List.mem_append_right _ (List.mem_cons_of_mem _ h)
  have hnodup := (List.nodup_cons.mp hr.ring.nodup).2
  rw [List.nodup_middle, List.nodup_cons] at hnodup
  have hentries := hr.entries
  simp only [List.map_append, List.map_cons] at hentries
  obtain ⟨hdone, hrest⟩ := List.append_inj hentries (by simpa using hlen)
  refine ⟨_, if_pos ⟨hr.isSome_of_mem (by simp), hr.valid hprev, hr.valid hnext⟩, ?_, rfl, rfl⟩
  refine ⟨hr.ring.del poison, ?_⟩
  show (done ++ as).map (Function.update s.entry a none) = _
  rw [map_update hnodup.1, List.map_append, List.map_append, hdone, (List.cons.inj hrest).2]

/-- Linking a new entry. -/
theorem insert (hr : s.Represents head as l) (ha : a ≠ head) (hfree : s.entry a = none)
    (entry : MonitorEntry) :
    ∃ t, s.insert head a entry = some t ∧ t.Represents head (as ++ [a]) (l ++ [entry]) ∧
      t.actions = s.actions ∧ t.entry = Function.update s.entry a (some entry) := by
  have hmem : a ∉ as := fun h => by
    have hsome := hr.isSome_of_mem h
    rw [hfree] at hsome
    cases hsome
  have hlast : s.links.prev head = head ∨ s.links.prev head ∈ as := by
    rw [hr.ring.prev_head]
    exact getLastD_mem as
  refine ⟨_, if_pos (hr.valid hlast), ⟨?_, ?_⟩, rfl, rfl⟩
  · refine Ring.addTail (hr.ring.congr fun b hb => ?_) (List.not_mem_cons_of_ne_of_not_mem ha hmem)
    have hba : b ≠ a := by
      rintro rfl
      exact (List.mem_cons.mp hb).elim ha hmem
    exact ⟨Function.update_of_ne hba _ _, Function.update_of_ne hba _ _⟩
  · simp [map_update hmem, hr.entries]

/-- Overwriting the fields of an entry. -/
theorem set (hr : s.Represents head (done ++ a :: as) (kept ++ entry :: l))
    (hlen : done.length = kept.length) (new : MonitorEntry) :
    { s with entry := Function.update s.entry a (some new) }.Represents head (done ++ a :: as)
      (kept ++ new :: l) := by
  have hnodup := (List.nodup_cons.mp hr.ring.nodup).2
  rw [List.nodup_middle, List.nodup_cons, List.mem_append, not_or] at hnodup
  have hentries := hr.entries
  simp only [List.map_append, List.map_cons] at hentries
  obtain ⟨hdone, hrest⟩ := List.append_inj hentries (by simpa using hlen)
  refine ⟨hr.ring, ?_⟩
  simp [map_update hnodup.1.1, map_update hnodup.1.2, hdone, (List.cons.inj hrest).2]

end Represents

/-! ## Bounds on the rounds -/

section Mono

variable {fuel fuel' : ℕ}

/-- A larger bound does not change what a walk returns. -/
theorem findFrom_mono {r : Option ℕ} : ∀ {fuel fuel' pos : ℕ}, fuel ≤ fuel' →
    s.findFrom head pid fuel pos = some r → s.findFrom head pid fuel' pos = some r
  | fuel + 1, fuel' + 1, pos, hle, h => by
    unfold findFrom at h ⊢
    split_ifs at h ⊢ with hpos
    · exact h
    · obtain ⟨entry, hentry, h⟩ := Option.bind_eq_some_iff.mp h
      rw [hentry, Option.bind_some]
      split_ifs at h ⊢
      · exact h
      · obtain ⟨next, hnext, h⟩ := Option.bind_eq_some_iff.mp h
        rw [hnext, Option.bind_some]
        exact findFrom_mono (Nat.le_of_succ_le_succ hle) h

theorem removeFrom_mono {r : ℤ × MonitorHeap} : ∀ {fuel fuel' pos tmp : ℕ}, fuel ≤ fuel' →
    s.removeFrom head poison pid fuel pos tmp = some r →
    s.removeFrom head poison pid fuel' pos tmp = some r
  | fuel + 1, fuel' + 1, pos, tmp, hle, h => by
    unfold removeFrom at h ⊢
    split_ifs at h ⊢ with hpos
    · exact h
    · obtain ⟨entry, hentry, h⟩ := Option.bind_eq_some_iff.mp h
      rw [hentry, Option.bind_some]
      split_ifs at h ⊢
      · exact h
      · obtain ⟨next, hnext, h⟩ := Option.bind_eq_some_iff.mp h
        rw [hnext, Option.bind_some]
        exact removeFrom_mono (Nat.le_of_succ_le_succ hle) h

theorem forEachSafe_mono : ∀ {fuel fuel' pos tmp : ℕ} {s : MonitorHeap}, fuel ≤ fuel' →
    forEachSafe obs head poison fuel pos tmp s = some t →
    forEachSafe obs head poison fuel' pos tmp s = some t
  | fuel + 1, fuel' + 1, pos, tmp, s, hle, h => by
    unfold forEachSafe at h ⊢
    split_ifs at h ⊢ with hpos
    · exact h
    · obtain ⟨u, hu, h⟩ := Option.bind_eq_some_iff.mp h
      obtain ⟨next, hnext, h⟩ := Option.bind_eq_some_iff.mp h
      rw [hu, Option.bind_some, hnext, Option.bind_some]
      exact forEachSafe_mono (Nat.le_of_succ_le_succ hle) h

theorem registerContainer_mono {req : MonitorRequest} {kmalloc : Option ℕ} {r : ℤ × MonitorHeap}
    (hle : fuel ≤ fuel') (h : s.registerContainer head req kmalloc fuel = some r) :
    s.registerContainer head req kmalloc fuel' = some r := by
  unfold registerContainer findEntryLocked at h ⊢
  split_ifs at h ⊢
  · exact h
  · exact h
  · obtain ⟨found, hfound, h⟩ := Option.bind_eq_some_iff.mp h
    obtain ⟨pos, hpos, hfound⟩ := Option.bind_eq_some_iff.mp hfound
    rw [hpos, Option.bind_some, findFrom_mono hle hfound, Option.bind_some]
    exact h

theorem removeEntryLocked_mono {r : ℤ × MonitorHeap} (hle : fuel ≤ fuel')
    (h : s.removeEntryLocked head poison pid fuel = some r) :
    s.removeEntryLocked head poison pid fuel' = some r := by
  unfold removeEntryLocked at h ⊢
  obtain ⟨pos, hpos, h⟩ := Option.bind_eq_some_iff.mp h
  obtain ⟨tmp, htmp, h⟩ := Option.bind_eq_some_iff.mp h
  rw [hpos, Option.bind_some, htmp, Option.bind_some]
  exact removeFrom_mono hle h

theorem monitorIoctl_mono {cmd : ℕ} {reqArg : Option MonitorRequest} {pidArg : Option ℤ}
    {kmalloc : Option ℕ} {r : ℤ × MonitorHeap} (hle : fuel ≤ fuel')
    (h : s.monitorIoctl head poison cmd reqArg pidArg kmalloc fuel = some r) :
    s.monitorIoctl head poison cmd reqArg pidArg kmalloc fuel' = some r := by
  unfold monitorIoctl at h ⊢
  split_ifs at h ⊢
  · cases reqArg with
    | none => exact h
    | some req => exact registerContainer_mono hle h
  · cases pidArg with
    | none => exact h
    | some pid => exact removeEntryLocked_mono hle h
  · exact h

theorem monitorPass_mono (hle : fuel ≤ fuel') (h : monitorPass obs head poison s fuel = some t) :
    monitorPass obs head poison s fuel' = some t := by
  unfold monitorPass at h ⊢
  obtain ⟨pos, hpos, h⟩ := Option.bind_eq_some_iff.mp h
  obtain ⟨tmp, htmp, h⟩ := Option.bind_eq_some_iff.mp h
  rw [hpos, Option.bind_some, htmp, Option.bind_some]
  exact forEachSafe_mono hle h

end Mono

/-! ## The walks -/

/-- The address of the first entry with a pid, where `as` are the addresses of `l`. -/
def position (pid : ℤ) (as : List ℕ) (l : List MonitorEntry) : Option ℕ :=
  ((as.zip l).find? fun p => p.2.pid = pid).map Prod.fst

theorem position_cons : position pid (a :: as) (entry :: l) =
    if entry.pid = pid then some a else position pid as l := by
  by_cases h : entry.pid = pid <;> simp [position, h]

/-- Either no entry has the pid, or the first one that has it is at the position. -/
theorem position_cases (pid : ℤ) (hlen : as.length = l.length) :
    (pid ∉ l.map MonitorEntry.pid ∧ position pid as l = none) ∨
      ∃ as₁ a as₂ l₁ entry l₂, as = as₁ ++ a :: as₂ ∧ l = l₁ ++ entry :: l₂ ∧
        as₁.length = l₁.length ∧ entry.pid = pid ∧ pid ∉ l₁.map MonitorEntry.pid ∧
        position pid as l = some a := by
  induction l generalizing as with
  | nil => exact Or.inl ⟨by simp, by simp [position]⟩
  | cons entry l ih =>
    obtain ⟨a, as, rfl⟩ := List.exists_cons_of_length_eq_add_one hlen
    rw [position_cons]
    by_cases hpid : entry.pid = pid
    · exact Or.inr ⟨[], a, as, [], entry, l, rfl, rfl, rfl, hpid, by simp, if_pos hpid⟩
    · rw [if_neg hpid]
      rcases ih (Nat.succ.inj hlen) with
        ⟨hnot, hnone⟩ | ⟨as₁, b, as₂, l₁, e, l₂, rfl, rfl, hlen', he, hl₁, hsome⟩
      · exact Or.inl ⟨by simpa [Ne.symm hpid] using hnot, hnone⟩
      · exact Or.inr ⟨a :: as₁, b, as₂, entry :: l₁, e, l₂, rfl, rfl, by simp [hlen'], he,
          by simpa [Ne.symm hpid] using hl₁, hsome⟩

namespace Represents

/-- The walk of `find_entry_locked` over the entries `as`. -/
theorem findFrom (pid : ℤ) : ∀ {as done : List ℕ} {l kept : List MonitorEntry} {fuel : ℕ},
    s.Represents head (done ++ as) (kept ++ l) → done.length = kept.length → as.length < fuel →
    s.findFrom head pid fuel (as.headD head) = some (position pid as l)
  | [], done, l, kept, fuel + 1, hr, hlen, _ => by
    exact if_pos rfl
  | a :: as, done, [], kept, fuel, hr, hlen, _ => by
    have hle := hr.length_eq
    simp only [List.length_append, List.length_cons, List.length_nil] at hle
    omega
  | a :: as, done, entry :: l, kept, fuel + 1, hr, hlen, hfuel => by
    have hnext : s.nextEntry head a = some (as.headD head) :=
      (hr.nextEntry_eq (Or.inr (by simp))).trans (congrArg some hr.ring.next_eq)
    have hr' : s.Represents head ((done ++ [a]) ++ as) ((kept ++ [entry]) ++ l) := by simpa using hr
    have hrest := hr'.findFrom pid (by simp [hlen]) (Nat.lt_of_succ_lt_succ hfuel)
    rw [position_cons, List.headD_cons, MonitorHeap.findFrom, if_neg (hr.ne_head (by simp)),
      hr.entry_eq hlen, Option.bind_some, hnext, Option.bind_some, hrest]
    split_ifs <;> rfl

theorem findEntryLocked (hr : s.Represents head as l) (pid : ℤ) {fuel : ℕ}
    (hfuel : as.length < fuel) :
    s.findEntryLocked head pid fuel = some (position pid as l) := by
  have hr' : s.Represents head ([] ++ as) ([] ++ l) := hr
  rw [MonitorHeap.findEntryLocked, hr.nextEntry_eq (Or.inl rfl), Option.bind_some,
    hr.ring.next.first]
  exact hr'.findFrom pid rfl hfuel

/-- The walk of `remove_entry_locked` over the entries `as`. -/
theorem removeFrom (poison : ℕ) (pid : ℤ) :
    ∀ {as done : List ℕ} {l kept : List MonitorEntry} {fuel tmp : ℕ},
    s.Represents head (done ++ as) (kept ++ l) → done.length = kept.length → as.length < fuel →
    (as ≠ [] → tmp = as.tail.headD head) →
    s.removeFrom head poison pid fuel (as.headD head) tmp =
      match position pid as l with
      | none => some (-ENOENT, s)
      | some a => (s.remove head poison a).map fun t => (0, t)
  | [], done, l, kept, fuel + 1, tmp, hr, hlen, _, _ => by
    exact if_pos rfl
  | a :: as, done, [], kept, fuel, tmp, hr, hlen, _, _ => by
    have hle := hr.length_eq
    simp only [List.length_append, List.length_cons, List.length_nil] at hle
    omega
  | a :: as, done, entry :: l, kept, fuel + 1, tmp, hr, hlen, hfuel, htmp => by
    have hr' : s.Represents head ((done ++ [a]) ++ as) ((kept ++ [entry]) ++ l) := by simpa using hr
    obtain ⟨next, hnext, hlink⟩ := hr'.next_tmp
    have hrest := hr'.removeFrom poison pid (by simp [hlen])
      (Nat.lt_of_succ_lt_succ hfuel) hlink
    rw [htmp nofun, List.tail_cons, position_cons, List.headD_cons, MonitorHeap.removeFrom,
      if_neg (hr.ne_head (by simp)), hr.entry_eq hlen, Option.bind_some, hnext, Option.bind_some,
      hrest]
    split_ifs <;> rfl

theorem removeEntryLocked (hr : s.Represents head as l) (poison : ℕ) (pid : ℤ) {fuel : ℕ}
    (hfuel : as.length < fuel) :
    s.removeEntryLocked head poison pid fuel =
      match position pid as l with
      | none => some (-ENOENT, s)
      | some a => (s.remove head poison a).map fun t => (0, t) := by
  have hr' : s.Represents head ([] ++ as) ([] ++ l) := hr
  obtain ⟨tmp, htmp, hlink⟩ := hr'.next_tmp
  rw [MonitorHeap.removeEntryLocked, hr.nextEntry_eq (Or.inl rfl), Option.bind_some,
    hr.ring.next.first, htmp, Option.bind_some]
  exact hr'.removeFrom poison pid rfl hfuel hlink

/-- The walk of `monitor_exit` over the entries `as`, after those before it have been freed. -/
theorem freeFrom (poison : ℕ) : ∀ {as : List ℕ} {l : List MonitorEntry} {s : MonitorHeap}
    {fuel tmp : ℕ}, s.Represents head as l → as.length < fuel →
    (as ≠ [] → tmp = as.tail.headD head) →
    ∃ t, MonitorHeap.freeFrom head poison fuel (as.headD head) tmp s = some t ∧
      t.Represents head [] [] ∧ ∀ b, (t.entry b).isSome → (s.entry b).isSome ∧ b ∉ as
  | [], l, s, fuel + 1, tmp, hr, _, _ => by
    obtain rfl : l = [] := List.length_eq_zero_iff.mp hr.length_eq.symm
    exact ⟨s, if_pos rfl, hr, fun b hb => ⟨hb, by simp⟩⟩
  | a :: as, [], s, fuel, tmp, hr, _, _ => by
    simpa using hr.length_eq
  | a :: as, entry :: l, s, fuel + 1, tmp, hr, hfuel, htmp => by
    have hr' : s.Represents head ([] ++ a :: as) ([] ++ entry :: l) := hr
    obtain ⟨t, hremove, ht, -, hentry⟩ := hr'.remove poison rfl
    obtain ⟨next, hnext, hlink⟩ := ht.next_tmp
    obtain ⟨u, hu, hrep, hfreed⟩ := freeFrom poison ht (Nat.lt_of_succ_lt_succ hfuel) hlink
    refine ⟨u, ?_, hrep, fun b hb => ?_⟩
    · rw [htmp nofun, List.tail_cons, List.headD_cons, MonitorHeap.freeFrom,
        if_neg (hr.ne_head (by simp)), hremove, Option.bind_some, hnext, Option.bind_some]
      exact hu
    · obtain ⟨hbt, hbas⟩ := hfreed b hb
      rw [hentry] at hbt
      have hba : b ≠ a := by
        rintro rfl
        rw [Function.update_self] at hbt
        cases hbt
      rw [Function.update_of_ne hba] at hbt
      exact ⟨hbt, List.not_mem_cons_of_ne_of_not_mem hba hbas⟩

end Represents

/-! ## The calls -/

namespace Holds

theorem remove (poison : ℕ) (hs : s.Holds head (done ++ a :: as) (kept ++ entry :: l))
    (hlen : done.length = kept.length) :
    ∃ t, s.remove head poison a = some t ∧ t.Holds head (done ++ as) (kept ++ l) ∧
      t.actions = s.actions := by
  obtain ⟨t, hremove, ht, hactions, hentry⟩ := hs.toRepresents.remove poison hlen
  refine ⟨t, hremove, ⟨ht, fun b hb => ?_⟩, hactions⟩
  rw [hentry] at hb
  have hba : b ≠ a := by
    rintro rfl
    rw [Function.update_self] at hb
    cases hb
  rw [Function.update_of_ne hba] at hb
  have hmem := hs.allocated b hb
  simpa [hba] using hmem

theorem insert (hs : s.Holds head as l) (ha : a ≠ head) (hfree : s.entry a = none)
    (entry : MonitorEntry) :
    ∃ t, s.insert head a entry = some t ∧ t.Holds head (as ++ [a]) (l ++ [entry]) ∧
      t.actions = s.actions := by
  obtain ⟨t, hinsert, ht, hactions, hentry⟩ := hs.toRepresents.insert ha hfree entry
  refine ⟨t, hinsert, ⟨ht, fun b hb => ?_⟩, hactions⟩
  rcases eq_or_ne b a with rfl | hba
  · exact List.mem_append_right _ (List.mem_singleton_self b)
  · rw [hentry, Function.update_of_ne hba] at hb
    exact List.mem_append_left _ (hs.allocated b hb)

theorem set (hs : s.Holds head (done ++ a :: as) (kept ++ entry :: l))
    (hlen : done.length = kept.length) (new : MonitorEntry) :
    { s with entry := Function.update s.entry a (some new) }.Holds head (done ++ a :: as)
      (kept ++ new :: l) := by
  refine ⟨hs.toRepresents.set hlen new, fun b hb => ?_⟩
  rcases eq_or_ne b a with rfl | hba
  · exact List.mem_append_right _ List.mem_cons_self
  · simp only [Function.update_of_ne hba] at hb
    exact hs.allocated b hb

/-- `UNREGISTER_CONTAINER` is the operation on the list. -/
theorem removeEntryLocked (hs : s.Holds head as l) (poison : ℕ) (pid : ℤ) {fuel : ℕ}
    (hfuel : as.length < fuel) :
    ∃ t as', s.removeEntryLocked head poison pid fuel =
        some ((Jackfruit.removeEntryLocked l pid).1, t) ∧
      t.Holds head as' (Jackfruit.removeEntryLocked l pid).2 ∧ t.actions = s.actions := by
  rw [hs.toRepresents.removeEntryLocked poison pid hfuel, Jackfruit.removeEntryLocked]
  simp only [Monitor.isSome_findEntryLocked]
  rcases position_cases pid hs.length_eq with
    ⟨hnot, hnone⟩ | ⟨as₁, a, as₂, l₁, entry, l₂, rfl, rfl, hlen, hpid, hl₁, hsome⟩
  · rw [hnone, if_neg hnot]
    exact ⟨s, as, rfl, hs, rfl⟩
  · obtain ⟨t, hremove, ht, hactions⟩ := hs.remove poison hlen
    rw [hsome, if_pos (by simp [← hpid]), KeyedList.remove_append hl₁ hpid]
    exact ⟨t, as₁ ++ as₂, by simp [hremove], ht, hactions⟩

/-- `REGISTER_CONTAINER` is the operation on the list. -/
theorem registerContainer (hs : s.Holds head as l) (req : MonitorRequest) {kmalloc : Option ℕ}
    (hfresh : s.Fresh head kmalloc) {fuel : ℕ} (hfuel : as.length < fuel) :
    ∃ t as', s.registerContainer head req kmalloc fuel =
        some ((Jackfruit.registerContainer req kmalloc.isSome l).1, t) ∧
      t.Holds head as' (Jackfruit.registerContainer req kmalloc.isSome l).2 ∧
      t.actions = s.actions := by
  unfold MonitorHeap.registerContainer Jackfruit.registerContainer
  simp only [hs.toRepresents.findEntryLocked req.pid hfuel, Monitor.isSome_findEntryLocked]
  split_ifs with hpid hhard hmem hk
  · exact ⟨s, as, rfl, hs, rfl⟩
  · exact ⟨s, as, rfl, hs, rfl⟩
  · -- The pid is listed : its entry is overwritten.
    rcases position_cases req.pid hs.length_eq with
      ⟨hnot, -⟩ | ⟨as₁, a, as₂, l₁, entry, l₂, rfl, rfl, hlen, hentry, hl₁, hsome⟩
    · exact absurd hmem hnot
    · rw [hsome, KeyedList.modify_append hl₁ hentry]
      exact ⟨_, as₁ ++ a :: as₂, by simp [hs.entry_eq hlen], hs.set hlen (req.update entry), rfl⟩
  · -- A new pid, and there is memory for its entry.
    rcases position_cases req.pid hs.length_eq with ⟨-, hnone⟩ |
      ⟨as₁, a, as₂, l₁, entry, l₂, rfl, rfl, -, hentry, -, -⟩
    · obtain ⟨a, rfl⟩ := Option.isSome_iff_exists.mp hk
      obtain ⟨hne, hfree⟩ := hfresh a rfl
      obtain ⟨t, hinsert, ht, hactions⟩ := hs.insert hne hfree req.entry
      exact ⟨t, as ++ [a], by simp [hnone, hinsert], ht, hactions⟩
    · exact absurd (by simp [← hentry]) hmem
  · rcases position_cases req.pid hs.length_eq with ⟨-, hnone⟩ |
      ⟨as₁, a, as₂, l₁, entry, l₂, rfl, rfl, -, hentry, -, -⟩
    · obtain rfl : kmalloc = none := by simpa using hk
      exact ⟨s, as, by simp [hnone], hs, rfl⟩
    · exact absurd (by simp [← hentry]) hmem

theorem monitorIoctl (hs : s.Holds head as l) (poison cmd : ℕ) (reqArg : Option MonitorRequest)
    (pidArg : Option ℤ) {kmalloc : Option ℕ} (hfresh : s.Fresh head kmalloc) {fuel : ℕ}
    (hfuel : as.length < fuel) :
    ∃ t as', s.monitorIoctl head poison cmd reqArg pidArg kmalloc fuel =
        some ((Jackfruit.monitorIoctl cmd reqArg pidArg kmalloc.isSome l).1, t) ∧
      t.Holds head as' (Jackfruit.monitorIoctl cmd reqArg pidArg kmalloc.isSome l).2 ∧
      t.actions = s.actions := by
  unfold MonitorHeap.monitorIoctl Jackfruit.monitorIoctl
  split_ifs
  · cases reqArg with
    | none => exact ⟨s, as, rfl, hs, rfl⟩
    | some req => exact hs.registerContainer req hfresh hfuel
  · cases pidArg with
    | none => exact ⟨s, as, rfl, hs, rfl⟩
    | some pid => exact hs.removeEntryLocked poison pid hfuel
  · exact ⟨s, as, rfl, hs, rfl⟩

theorem monitorPass (hs : s.Holds head as l) (obs : ℤ → Observation) (poison : ℕ) {fuel : ℕ}
    (hfuel : as.length < fuel) :
    ∃ t as', monitorPass obs head poison s fuel = some t ∧ as'.Sublist as ∧
      t.Holds head as' (monitorThreadPass obs l).1 ∧
      t.actions = s.actions ++ (monitorThreadPass obs l).2 := by
  obtain ⟨t, rest, ht, hsub, hrep, -, hactions, hfreed⟩ :=
    monitorPass_frees obs poison hs.toRepresents hfuel
  refine ⟨t, rest, ht, hsub, ⟨hrep, fun b hb => ?_⟩, hactions⟩
  obtain ⟨hb', hrest⟩ := hfreed b hb
  exact hrest (hs.allocated b hb')

/-- `monitor_exit` frees every entry. -/
theorem monitorExit (hs : s.Holds head as l) (poison : ℕ) {fuel : ℕ} (hfuel : as.length < fuel) :
    ∃ t, s.monitorExit head poison fuel = some t ∧ t.Holds head [] [] := by
  have hr' : s.Represents head ([] ++ as) ([] ++ l) := hs.toRepresents
  obtain ⟨tmp, htmp, hlink⟩ := hr'.next_tmp
  obtain ⟨t, ht, hrep, hfreed⟩ := hs.toRepresents.freeFrom poison hfuel hlink
  refine ⟨t, ?_, hrep, fun b hb => ?_⟩
  · rw [MonitorHeap.monitorExit, hs.nextEntry_eq (Or.inl rfl), Option.bind_some,
      hs.ring.next.first, htmp, Option.bind_some]
    exact ht
  · obtain ⟨hb', hnot⟩ := hfreed b hb
    exact absurd (hs.allocated b hb') hnot

end Holds

/-! ## Runs -/

theorem holds_initial (head : ℕ) : initial.Holds head [] [] :=
  ⟨⟨ring_nil rfl rfl, rfl⟩, nofun⟩

/-- A call that returns with any bound does the operation on the list. -/
theorem Holds.of_step (hs : s.Holds head as l) (hl : Monitor.Reachable l) {e : Call}
    (h : step head poison s e = some t) :
    ∃ as' l', Monitor.Reachable l' ∧ t.Holds head as' l' := by
  cases e with
  | ioctl cmd reqArg pidArg kmalloc fuel =>
    simp only [step] at h
    split_ifs at h with hfresh
    obtain ⟨⟨ret, u⟩, hret, rfl⟩ := Option.map_eq_some_iff.mp h
    have hbig := monitorIoctl_mono (Nat.le_add_right fuel (as.length + 1)) hret
    have hlen : as.length < fuel + (as.length + 1) := by omega
    obtain ⟨t, as', ht, hholds, -⟩ := hs.monitorIoctl poison cmd reqArg pidArg hfresh hlen
    obtain rfl : t = u := congrArg Prod.snd (Option.some.inj (ht.symm.trans hbig))
    exact ⟨as', _, hl.tail (.ioctl cmd reqArg pidArg kmalloc.isSome) trivial rfl, hholds⟩
  | pass obs fuel =>
    have hbig := monitorPass_mono (Nat.le_add_right fuel (as.length + 1)) h
    have hlen : as.length < fuel + (as.length + 1) := by omega
    obtain ⟨u, as', hu, -, hholds, -⟩ := hs.monitorPass obs poison hlen
    obtain rfl : u = t := Option.some.inj (hu.symm.trans hbig)
    exact ⟨as', _, hl.tail (.pass obs) trivial rfl, hholds⟩

theorem Holds.of_run (h : Transition.Run (step head poison) Transition.Always initial s) :
    ∃ as l, Monitor.Reachable l ∧ s.Holds head as l := by
  refine h.invariant (I := fun s => ∃ as l, Monitor.Reachable l ∧ s.Holds head as l)
    ⟨[], [], .refl, holds_initial head⟩ ?_
  rintro t e u ⟨as, l, hl, ht⟩ - hu
  exact ht.of_step hl hu

/-- After every run of ioctls and passes the heap holds a list that the list machine reaches, and
what is allocated are the entries of the list. With a bound on the rounds above its length, and
whatever free address the allocator has, the next ioctl returns what it returns on the list, the
next pass takes the same actions, both leave a heap of this kind again, and `monitor_exit` leaves
an empty ring and nothing allocated. -/
theorem kernel_list_refines
    (h : Transition.Run (step head poison) Transition.Always initial s) :
    ∃ as l, Monitor.Reachable l ∧ s.Holds head as l ∧ (∀ a, (s.entry a).isSome ↔ a ∈ as) ∧
      (∀ cmd reqArg pidArg kmalloc fuel, s.Fresh head kmalloc → as.length < fuel →
        ∃ t as', s.monitorIoctl head poison cmd reqArg pidArg kmalloc fuel =
            some ((Jackfruit.monitorIoctl cmd reqArg pidArg kmalloc.isSome l).1, t) ∧
          t.Holds head as' (Jackfruit.monitorIoctl cmd reqArg pidArg kmalloc.isSome l).2) ∧
      (∀ obs fuel, as.length < fuel →
        ∃ t as', monitorPass obs head poison s fuel = some t ∧ as'.Sublist as ∧
          t.Holds head as' (monitorThreadPass obs l).1 ∧
          t.actions = s.actions ++ (monitorThreadPass obs l).2) ∧
      ∀ fuel, as.length < fuel →
        ∃ t, s.monitorExit head poison fuel = some t ∧ t.links.next head = head ∧
          t.links.prev head = head ∧ ∀ a, t.entry a = none := by
  obtain ⟨as, l, hl, hs⟩ := Holds.of_run h
  refine ⟨as, l, hl, hs, fun a => ⟨hs.allocated a, hs.isSome_of_mem⟩, ?_, ?_, ?_⟩
  · intro cmd reqArg pidArg kmalloc fuel hfresh hfuel
    obtain ⟨t, as', ht, hholds, -⟩ := hs.monitorIoctl poison cmd reqArg pidArg hfresh hfuel
    exact ⟨t, as', ht, hholds⟩
  · exact fun obs fuel hfuel => hs.monitorPass obs poison hfuel
  · intro fuel hfuel
    obtain ⟨t, ht, hholds⟩ := hs.monitorExit poison hfuel
    refine ⟨t, ht, hholds.ring.next, hholds.ring.prev, fun a => ?_⟩
    exact Option.eq_none_iff_forall_not_mem.mpr fun e he =>
      absurd (hholds.allocated a (by simp [Option.mem_def.mp he])) (by simp)

/-- Two registrations, of which the first is undone. -/
theorem kernel_list_refines_two : ∃ (s : MonitorHeap) (as : List ℕ) (l : List MonitorEntry),
    s.entry 3 = none ∧ s.entry 5 = some ⟨8, 1, 2, false⟩ ∧ Monitor.Reachable l ∧
      s.Holds 0 as l := by
  obtain ⟨s, hs, h3, h5⟩ := Transition.exists_run_of_exec (step 0 1) Transition.Always initial
    [.ioctl REGISTER_CONTAINER (some ⟨7, 40, 64⟩) none (some 3) 1,
      .ioctl REGISTER_CONTAINER (some ⟨8, 1, 2⟩) none (some 5) 2,
      .ioctl UNREGISTER_CONTAINER none (some 7) none 3]
    (fun s => s.entry 3 = none ∧ s.entry 5 = some ⟨8, 1, 2, false⟩) (by decide)
  obtain ⟨as, l, hl, hholds, -⟩ := kernel_list_refines hs
  exact ⟨s, as, l, h3, h5, hl, hholds⟩

end MonitorHeap

end Jackfruit
