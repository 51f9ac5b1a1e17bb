import Mathlib.Data.List.Range
import Mathlib.Data.Nat.ModEq
import Mathlib.Logic.Function.Basic
import Mathlib.Tactic.Common

/-!
# Ring buffers of `n` cells

A ring buffer has its cells, the position `head` of the oldest element, the position `tail` of the
next free cell and a `count`, three numbers that are updated one by one and wrap modulo `n`.
`RingBuffer.Wf` says when they fit together, and `contents` is the queue such a ring holds.
`push` and `pop` on a ring are the queue operations on its contents (`contents_push`,
`contents_pop`), also across the wrap-around.
-/

/-- Cells by position, and where the elements are in them. -/
structure RingBuffer (α : Type*) where
  entries : ℕ → α
  head : ℕ
  tail : ℕ
  count : ℕ

namespace RingBuffer

variable {α : Type*} {n : ℕ} {r : RingBuffer α} {a : α}

/-- All cells free. -/
def empty (a : α) : RingBuffer α :=
  ⟨fun _ => a, 0, 0, 0⟩

/-- Write the cell at `tail` and step over it. -/
def push (n : ℕ) (r : RingBuffer α) (a : α) : RingBuffer α where
  entries := Function.update r.entries r.tail a
  head := r.head
  tail := (r.tail + 1) % n
  count := r.count + 1

/-- The cell at `head`. -/
def front (r : RingBuffer α) : α :=
  r.entries r.head

/-- Step over the cell at `head`. -/
def pop (n : ℕ) (r : RingBuffer α) : RingBuffer α where
  entries := r.entries
  head := (r.head + 1) % n
  tail := r.tail
  count := r.count - 1

/-- The indices are positions, and `tail` is `count` cells after `head`. -/
structure Wf (n : ℕ) (r : RingBuffer α) : Prop where
  count_le : r.count ≤ n
  head_lt : r.head < n
  tail_lt : r.tail < n
  tail_eq : r.tail = (r.head + r.count) % n

/-- The elements from `head` onwards. -/
def contents (n : ℕ) (r : RingBuffer α) : List α :=
  (List.range r.count).map fun k => r.entries ((r.head + k) % n)

@[simp] theorem length_contents : (r.contents n).length = r.count := by
  simp [contents]

theorem wf_empty (hn : 0 < n) : (empty a).Wf n where
  count_le := Nat.zero_le n
  head_lt := hn
  tail_lt := hn
  tail_eq := (Nat.zero_mod n).symm

theorem Wf.push (h : r.Wf n) (hc : r.count < n) : (r.push n a).Wf n where
  count_le := hc
  head_lt := h.head_lt
  tail_lt := Nat.mod_lt _ (Nat.zero_lt_of_lt hc)
  tail_eq := by
    show (r.tail + 1) % n = (r.head + (r.count + 1)) % n
    rw [h.tail_eq, Nat.mod_add_mod, Nat.add_assoc]

theorem Wf.pop (h : r.Wf n) (hc : 0 < r.count) : (r.pop n).Wf n where
  count_le := (Nat.sub_le _ _).trans h.count_le
  head_lt := Nat.mod_lt _ (Nat.zero_lt_of_lt h.head_lt)
  tail_lt := h.tail_lt
  tail_eq := by
    show r.tail = ((r.head + 1) % n + (r.count - 1)) % n
    rw [Nat.mod_add_mod, h.tail_eq]
    congr 1
    omega

/-- Two positions at most `n` apart are the same cell only if they are equal. -/
theorem add_mod_ne {h i j : ℕ} (hij : i < j) (hj : j < i + n) : (h + i) % n ≠ (h + j) % n := by
  intro heq
  have hdvd : n ∣ h + j - (h + i) :=
    (Nat.modEq_iff_dvd' (by omega)).mp heq
  have hle := Nat.le_of_dvd (by omega) hdvd
  omega

/-- A push appends to the queue and overwrites no element of it. -/
theorem contents_push (h : r.Wf n) (hc : r.count < n) :
    (r.push n a).contents n = r.contents n ++ [a] := by
  unfold contents
  show (List.range (r.count + 1)).map _ = _
  rw [List.range_succ, List.map_append, List.map_singleton]
  congr 1
  · refine List.map_congr_left fun k hk => ?_
    have hk' : k < r.count := List.mem_range.mp hk
    refine Function.update_of_ne ?_ _ _
    rw [h.tail_eq]
    exact add_mod_ne hk' (by omega)
  · show [Function.update r.entries r.tail a ((r.head + r.count) % n)] = [a]
    rw [← h.tail_eq, Function.update_self]

/-- A pop takes the queue's first element. -/
theorem contents_pop (h : r.Wf n) (hc : 0 < r.count) :
    r.contents n = r.front :: (r.pop n).contents n := by
  obtain ⟨c, hc⟩ : ∃ c, r.count = c + 1 := ⟨r.count - 1, by omega⟩
  unfold contents
  show (List.range r.count).map _ = _ :: (List.range (r.count - 1)).map _
  rw [hc, List.range_succ_eq_map, List.map_cons, Nat.add_sub_cancel, List.map_map]
  congr 1
  · show r.entries ((r.head + 0) % n) = r.entries r.head
    rw [Nat.add_zero, Nat.mod_eq_of_lt h.head_lt]
  · refine List.map_congr_left fun k _ => ?_
    show r.entries ((r.head + (k + 1)) % n) = r.entries (((r.head + 1) % n + k) % n)
    rw [Nat.mod_add_mod, Nat.add_assoc, Nat.add_comm 1 k]

end RingBuffer
