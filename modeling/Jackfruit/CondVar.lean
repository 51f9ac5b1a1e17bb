import Mathlib.Data.Finset.Card
import Mathlib.Tactic.Common

/-!
# Condition variables

The threads inside `pthread_cond_wait` on one condition variable : `asleep` has not been
woken, `woken` has left the wait set and still has to take the mutex again. `signal` moves
one sleeper, `broadcast` all of them, `wake` is a spurious wake-up, and `resume` is a thread
that has its mutex back.

`Covered cv n` is the counting invariant of a program that signals once for each unit it
makes available : while somebody is asleep, `n` units are on offer to at least `n` threads
that are already woken. It survives spurious wake-ups (`Covered.wake`), a thread that takes a
unit, whether it was woken for it or gets in first (`Covered.resume`), and one new unit with one
signal (`Covered.signal`).
-/

set_option linter.unusedSectionVars false

/-- The threads waiting on one condition variable. -/
@[ext]
structure CondVar (T : Type*) where
  /-- In the wait set. -/
  asleep : Finset T
  /-- Out of the wait set, without the mutex. -/
  woken : Finset T
  disjoint : Disjoint asleep woken

namespace CondVar

variable {T : Type*}

/-- `pthread_cond_init`. -/
def init : CondVar T :=
  ⟨∅, ∅, Finset.disjoint_empty_right _⟩

instance : Inhabited (CondVar T) :=
  ⟨init⟩

@[simp] theorem asleep_init : (init : CondVar T).asleep = ∅ :=
  rfl

@[simp] theorem woken_init : (init : CondVar T).woken = ∅ :=
  rfl

variable [DecidableEq T]

/-- `pthread_cond_wait` : the thread enters the wait set. -/
def wait (cv : CondVar T) (t : T) : CondVar T where
  asleep := insert t cv.asleep
  woken := cv.woken.erase t
  disjoint := by
    rw [Finset.disjoint_insert_left]
    exact ⟨Finset.notMem_erase t _, cv.disjoint.mono_right (Finset.erase_subset t _)⟩

/-- A sleeper leaves the wait set. A thread that is not asleep does not. -/
def wake (cv : CondVar T) (t : T) : CondVar T :=
  if h : t ∈ cv.asleep then
    { asleep := cv.asleep.erase t
      woken := insert t cv.woken
      disjoint := by
        rw [Finset.disjoint_insert_right]
        exact ⟨Finset.notMem_erase t _, cv.disjoint.mono_left (Finset.erase_subset t _)⟩ }
  else cv

/-- `pthread_cond_signal`, which wakes the sleeper `w`. -/
def signal (cv : CondVar T) : Option T → CondVar T
  | some t => cv.wake t
  | none => cv

/-- Whom a signal may wake : one sleeper, and nobody only if nobody sleeps. -/
def Admits (cv : CondVar T) : Option T → Prop
  | some t => t ∈ cv.asleep
  | none => cv.asleep = ∅

instance (cv : CondVar T) : DecidablePred cv.Admits
  | some t => inferInstanceAs (Decidable (t ∈ cv.asleep))
  | none => inferInstanceAs (Decidable (cv.asleep = ∅))

/-- `pthread_cond_broadcast`. -/
def broadcast (cv : CondVar T) : CondVar T where
  asleep := ∅
  woken := cv.asleep ∪ cv.woken
  disjoint := Finset.disjoint_empty_left _

/-- A thread has the mutex again and leaves `pthread_cond_wait`. -/
def resume (cv : CondVar T) (t : T) : CondVar T where
  asleep := cv.asleep
  woken := cv.woken.erase t
  disjoint := cv.disjoint.mono_right (Finset.erase_subset t _)

variable {cv : CondVar T} {s t : T} {n : ℕ}

@[simp] theorem mem_asleep_wait : s ∈ (cv.wait t).asleep ↔ s = t ∨ s ∈ cv.asleep :=
  Finset.mem_insert

@[simp] theorem mem_woken_wait : s ∈ (cv.wait t).woken ↔ s ≠ t ∧ s ∈ cv.woken :=
  Finset.mem_erase

@[simp] theorem asleep_resume : (cv.resume t).asleep = cv.asleep :=
  rfl

@[simp] theorem mem_woken_resume : s ∈ (cv.resume t).woken ↔ s ≠ t ∧ s ∈ cv.woken :=
  Finset.mem_erase

@[simp] theorem asleep_broadcast : cv.broadcast.asleep = ∅ :=
  rfl

@[simp] theorem mem_woken_broadcast : s ∈ cv.broadcast.woken ↔ s ∈ cv.asleep ∨ s ∈ cv.woken :=
  Finset.mem_union

theorem wake_of_mem (h : t ∈ cv.asleep) :
    (cv.wake t).asleep = cv.asleep.erase t ∧ (cv.wake t).woken = insert t cv.woken := by
  simp [wake, h]

theorem asleep_wake_subset : (cv.wake t).asleep ⊆ cv.asleep := by
  unfold wake
  split_ifs
  · exact Finset.erase_subset t _
  · exact Finset.Subset.refl _

/-- Waking moves threads between the two sets and adds none. -/
theorem mem_wake : s ∈ (cv.wake t).asleep ∨ s ∈ (cv.wake t).woken ↔
    s ∈ cv.asleep ∨ s ∈ cv.woken := by
  unfold wake
  split_ifs with h
  · simp only [Finset.mem_erase, Finset.mem_insert]
    constructor
    · rintro (h' | rfl | h')
      exacts [Or.inl h'.2, Or.inl h, Or.inr h']
    · by_cases hs : s = t
      · exact fun _ => Or.inr (Or.inl hs)
      · rintro (h' | h')
        exacts [Or.inl ⟨hs, h'⟩, Or.inr (Or.inr h')]
  · rfl

theorem asleep_signal_subset (w : Option T) : (cv.signal w).asleep ⊆ cv.asleep := by
  cases w with
  | none => exact Finset.Subset.refl _
  | some t => exact asleep_wake_subset

theorem mem_signal (w : Option T) : s ∈ (cv.signal w).asleep ∨ s ∈ (cv.signal w).woken ↔
    s ∈ cv.asleep ∨ s ∈ cv.woken := by
  cases w with
  | none => rfl
  | some t => exact mem_wake

/-! ## Units on offer -/

/-- While somebody is asleep, `n` available units have `n` woken threads coming for them. -/
def Covered (cv : CondVar T) (n : ℕ) : Prop :=
  cv.asleep.Nonempty → n ≤ cv.woken.card

namespace Covered

theorem zero : cv.Covered 0 :=
  fun _ => Nat.zero_le _

theorem of_asleep_eq_empty (h : cv.asleep = ∅) : cv.Covered n :=
  fun hne => absurd h hne.ne_empty

/-- One thread resumes and takes one unit. -/
theorem resume (h : cv.Covered (n + 1)) : (cv.resume t).Covered n := by
  intro hne
  have hle := h hne
  have herase := Finset.pred_card_le_card_erase (s := cv.woken) (a := t)
  show n ≤ (cv.woken.erase t).card
  omega

/-- One more unit, one signal. -/
theorem signal {w : Option T} (h : cv.Covered n) (hw : cv.Admits w) :
    (cv.signal w).Covered (n + 1) := by
  cases w with
  | none => exact of_asleep_eq_empty hw
  | some t =>
    intro _
    have hle := h ⟨t, hw⟩
    have ht : t ∉ cv.woken := Finset.disjoint_left.mp cv.disjoint hw
    show n + 1 ≤ (cv.wake t).woken.card
    rw [(wake_of_mem hw).2, Finset.card_insert_of_notMem ht]
    omega

theorem wake (h : cv.Covered n) : (cv.wake t).Covered n := by
  by_cases ht : t ∈ cv.asleep
  · intro _
    have hle := h ⟨t, ht⟩
    rw [(wake_of_mem ht).2]
    exact hle.trans (Finset.card_le_card (Finset.subset_insert t _))
  · rw [CondVar.wake, dif_neg ht]
    exact h

end Covered

end CondVar
