import Mathlib.Algebra.BigOperators.Group.List.Basic
import Mathlib.Algebra.GroupWithZero.Nat
import Mathlib.Data.List.Flatten
import Mathlib.Tactic.Common

/-!
# Texts that are cut

Texts are written one after another, and of each text only as much as there is room for. What is
kept has every element at most once and in its order (`kept_sublist`), and with what is lost it is
as long as the texts (`length_kept`), so that it is all of them if nothing is lost
(`kept_eq_whole`).
-/

set_option linter.unusedSectionVars false

namespace CutTexts

variable {α : Type*}

/-- What is written of the texts, of each with as many elements as its number says. -/
def kept (pieces : List (List α × ℕ)) : List α :=
  pieces.flatMap fun p => p.1.take p.2

/-- What the texts are together. -/
def whole (pieces : List (List α × ℕ)) : List α :=
  pieces.flatMap Prod.fst

/-- How many elements are not written. -/
def lost (pieces : List (List α × ℕ)) : ℕ :=
  (pieces.map fun p => p.1.length - p.2).sum

@[simp] theorem kept_cons (p : List α × ℕ) (pieces : List (List α × ℕ)) :
    kept (p :: pieces) = p.1.take p.2 ++ kept pieces :=
  List.flatMap_cons

@[simp] theorem whole_cons (p : List α × ℕ) (pieces : List (List α × ℕ)) :
    whole (p :: pieces) = p.1 ++ whole pieces :=
  List.flatMap_cons

@[simp] theorem lost_cons (p : List α × ℕ) (pieces : List (List α × ℕ)) :
    lost (p :: pieces) = p.1.length - p.2 + lost pieces := by
  rw [lost, List.map_cons, List.sum_cons, lost]

theorem lost_append (pieces pieces' : List (List α × ℕ)) :
    lost (pieces ++ pieces') = lost pieces + lost pieces' := by
  rw [lost, lost, lost, List.map_append, List.sum_append]

theorem kept_sublist (pieces : List (List α × ℕ)) : (kept pieces).Sublist (whole pieces) := by
  induction pieces with
  | nil => exact List.Sublist.refl _
  | cons p pieces ih =>
    rw [kept_cons, whole_cons]
    exact (List.take_sublist _ _).append ih

theorem length_kept (pieces : List (List α × ℕ)) :
    (kept pieces).length + lost pieces = (whole pieces).length := by
  induction pieces with
  | nil => rfl
  | cons p pieces ih =>
    rw [kept_cons, whole_cons, lost_cons, List.length_append, List.length_append, List.length_take]
    omega

theorem kept_eq_whole {pieces : List (List α × ℕ)} (h : lost pieces = 0) :
    kept pieces = whole pieces := by
  refine (kept_sublist pieces).eq_of_length ?_
  rw [← length_kept, h, Nat.add_zero]

end CutTexts
