import Jackfruit.Transition
import Mathlib.Algebra.BigOperators.Group.List.Basic
import Mathlib.Algebra.GroupWithZero.Nat
import Mathlib.Algebra.Order.BigOperators.Group.Finset
import Mathlib.Tactic.Common

/-!
# Progress by a variant

Some events of a machine belong to the threads whose work is to come to an end, the others to its
environment. A `Variant` is a measure that each of their own steps lowers, and that a step of the
environment raises by no more than its cost. So in every schedule the own steps are at most as many
as the measure at the start and the costs of the environment together (`Variant.count_le`), and if
one of them can be taken as long as the goal is not reached, they reach it alone
(`Variant.exists_run`). A measure may be a sum over threads of which a step moves one
(`sum_add_le`, `sum_le_add`).
-/

set_option linter.unusedSectionVars false

namespace Transition

variable {S E : Type*}

/-- A measure `μ` under the invariant `I`, for the steps that meet `C` and the events that are
`own`. -/
structure Variant (step : S → E → Option S) (C : S → E → Prop) (I : S → Prop) (own : E → Bool)
    (cost : E → ℕ) (μ : S → ℕ) : Prop where
  keeps : ∀ s e t, I s → C s e → step s e = some t → I t
  pays : ∀ s e t, I s → C s e → step s e = some t → μ t + (own e).toNat ≤ μ s + cost e

variable {step : S → E → Option S} {C : S → E → Prop} [∀ s e, Decidable (C s e)] {I : S → Prop}
  {own : E → Bool} {cost : E → ℕ} {μ : S → ℕ} {Goal : S → Prop}

theorem exec_cons {s t : S} {e : E} {es : List E} :
    exec step C s (e :: es) = some t ↔
      C s e ∧ ∃ u, step s e = some u ∧ exec step C u es = some t := by
  rw [exec, Option.ite_none_right_eq_some, Option.bind_eq_some_iff]

/-- A schedule that meets a condition meets a weaker one. -/
theorem exec_mono {D : S → E → Prop} [∀ s e, Decidable (D s e)] (hCD : ∀ s e, C s e → D s e)
    {s t : S} {es : List E} (h : exec step C s es = some t) : exec step D s es = some t := by
  induction es generalizing s with
  | nil => exact h
  | cons e es ih =>
    obtain ⟨hc, u, hu, hrest⟩ := exec_cons.mp h
    exact exec_cons.mpr ⟨hCD s e hc, u, hu, ih hrest⟩

namespace Variant

/-- The own steps of a schedule are paid for by what the measure is at first and by the costs. -/
theorem count_le (v : Variant step C I own cost μ) :
    ∀ {es : List E} {s t : S}, I s → exec step C s es = some t →
      es.countP own + μ t ≤ μ s + (es.map cost).sum
  | [], s, t, _, h => by
    obtain rfl : s = t := by simpa [exec] using h
    simp
  | e :: es, s, t, hs, h => by
    obtain ⟨hc, u, hu, h⟩ := exec_cons.mp h
    have hrest := v.count_le (v.keeps s e u hs hc hu) h
    have hpays := v.pays s e u hs hc hu
    rw [List.countP_cons, List.map_cons, List.sum_cons]
    cases hown : own e <;> simp only [hown, Bool.toNat_true, Bool.toNat_false] at hpays ⊢ <;>
      simp <;> omega

/-- If an own step without cost can be taken until the goal is reached, own steps alone reach it,
from every state that meets the invariant. -/
theorem exists_run (v : Variant step C I own cost μ)
    (progress : ∀ s, I s → ¬Goal s →
      ∃ e, own e = true ∧ cost e = 0 ∧ C s e ∧ (step s e).isSome = true) {s : S} (hs : I s) :
    ∃ es t, exec step C s es = some t ∧ (∀ e ∈ es, own e = true) ∧ I t ∧ Goal t := by
  by_cases hgoal : Goal s
  · exact ⟨[], s, rfl, by simp, hs, hgoal⟩
  · obtain ⟨e, hown, hcost, hc, hsome⟩ := progress s hs hgoal
    obtain ⟨u, hu⟩ := Option.isSome_iff_exists.mp hsome
    have hless : μ u < μ s := by
      have hpays := v.pays s e u hs hc hu
      rw [hown, Bool.toNat_true, hcost] at hpays
      omega
    obtain ⟨es, t, hes, hall, ht⟩ := v.exists_run progress (v.keeps s e u hs hc hu)
    exact ⟨e :: es, t, exec_cons.mpr ⟨hc, u, hu, hes⟩,
      List.forall_mem_cons.mpr ⟨hown, hall⟩, ht⟩
termination_by μ s

end Variant

section Sums

variable {T : Type*} [DecidableEq T] {ts : Finset T} {f f' : T → ℕ} {t : T} {n : ℕ}

/-- One thread comes nearer to its end. -/
theorem sum_add_le (ht : t ∈ ts) (hother : ∀ u, u ≠ t → f' u ≤ f u) (h : f' t + n ≤ f t) :
    ∑ u ∈ ts, f' u + n ≤ ∑ u ∈ ts, f u := by
  have hrest : ∑ u ∈ ts.erase t, f' u ≤ ∑ u ∈ ts.erase t, f u :=
    Finset.sum_le_sum fun u hu => hother u (Finset.ne_of_mem_erase hu)
  rw [← Finset.add_sum_erase _ _ ht, ← Finset.add_sum_erase _ f ht]
  omega

/-- One thread gets more to do. -/
theorem sum_le_add (hother : ∀ u, u ≠ t → f' u ≤ f u) (h : f' t ≤ f t + n) :
    ∑ u ∈ ts, f' u ≤ ∑ u ∈ ts, f u + n := by
  by_cases ht : t ∈ ts
  · have hrest : ∑ u ∈ ts.erase t, f' u ≤ ∑ u ∈ ts.erase t, f u :=
      Finset.sum_le_sum fun u hu => hother u (Finset.ne_of_mem_erase hu)
    rw [← Finset.add_sum_erase _ _ ht, ← Finset.add_sum_erase _ f ht]
    omega
  · have hle : ∑ u ∈ ts, f' u ≤ ∑ u ∈ ts, f u :=
      Finset.sum_le_sum fun u hu => hother u fun heq => ht (heq ▸ hu)
    omega

end Sums

end Transition
