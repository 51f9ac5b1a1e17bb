import Mathlib.Data.Finmap
import Mathlib.Data.Fintype.Card
import Mathlib.Data.List.FinRange
import Mathlib.Tactic.Common

/-!
# Arrays of slots as finite maps

An array of `n` slots, each of them free or with a key and a value. While no two slots have the same
key (`Distinct`) the array stands for a finite map (`toMap`) : looking a key up is finding the slot
that has it (`lookup_toMap`), filling a slot is inserting, clearing one is erasing, and the map has
as many keys as there are slots in use, so that the array is full when it has `n` of them.
-/

set_option linter.unusedSectionVars false

namespace SlotMap

variable {n : ℕ} {K V : Type*} [DecidableEq K]

/-- What the slots in use hold, in order. -/
def entries (f : Fin n → Option (K × V)) : List (Σ _ : K, V) :=
  (List.finRange n).filterMap fun i => (f i).map fun p => ⟨p.1, p.2⟩

/-- The finite map of an array. -/
def toMap (f : Fin n → Option (K × V)) : Finmap fun _ : K => V :=
  (entries f).toFinmap

/-- No two slots have the same key. -/
def Distinct (f : Fin n → Option (K × V)) : Prop :=
  ∀ i j p q, f i = some p → f j = some q → p.1 = q.1 → i = j

variable {f : Fin n → Option (K × V)} {i j : Fin n} {k : K} {v : V}

theorem mem_entries : (⟨k, v⟩ : Σ _ : K, V) ∈ entries f ↔ ∃ i, f i = some (k, v) := by
  simp only [entries, List.mem_filterMap, List.mem_finRange, true_and, Option.map_eq_some_iff]
  refine exists_congr fun i => ⟨?_, fun h => ⟨_, h, rfl⟩⟩
  rintro ⟨⟨k', v'⟩, h, heq⟩
  cases heq
  exact h

theorem Distinct.nodupKeys (h : Distinct f) : (entries f).NodupKeys := by
  rw [List.nodupKeys_iff_pairwise, entries, List.pairwise_filterMap]
  refine (List.nodup_finRange n).imp fun {i j} hij a ha b hb hab => hij ?_
  obtain ⟨p, hp, rfl⟩ := Option.map_eq_some_iff.mp ha
  obtain ⟨q, hq, rfl⟩ := Option.map_eq_some_iff.mp hb
  exact h i j p q hp hq hab

theorem lookup_toMap (h : Distinct f) : (toMap f).lookup k = some v ↔ ∃ i, f i = some (k, v) := by
  rw [toMap, Finmap.dlookup_list_toFinmap, ← Option.mem_def, List.mem_dlookup_iff h.nodupKeys,
    mem_entries]

theorem lookup_eq_none : (toMap f).lookup k = none ↔ ∀ i v, f i ≠ some (k, v) := by
  rw [toMap, Finmap.dlookup_list_toFinmap, List.dlookup_eq_none, List.notMem_keys]
  simp only [mem_entries, not_exists]
  exact forall_comm

theorem mem_toMap : k ∈ toMap f ↔ ∃ i v, f i = some (k, v) := by
  rw [← not_iff_not, ← Finmap.lookup_eq_none, lookup_eq_none]
  push Not
  rfl

/-- Filling a slot with a key that no other slot has, and clearing one. -/
theorem Distinct.update (h : Distinct f) {o : Option (K × V)}
    (ho : ∀ p q j, o = some p → f j = some q → p.1 = q.1 → j = i) :
    Distinct (Function.update f i o) := by
  intro a b p q hp hq hpq
  rcases eq_or_ne a i with ha | ha <;> rcases eq_or_ne b i with hb | hb
  · exact ha.trans hb.symm
  · rw [ha, Function.update_self] at hp
    rw [Function.update_of_ne hb] at hq
    exact ha.trans (ho p q b hp hq hpq).symm
  · rw [hb, Function.update_self] at hq
    rw [Function.update_of_ne ha] at hp
    exact (ho q p a hq hp hpq.symm).trans hb.symm
  · rw [Function.update_of_ne ha] at hp
    rw [Function.update_of_ne hb] at hq
    exact h a b p q hp hq hpq

/-- Filling a slot that is free or has this key is inserting in the map. -/
theorem toMap_set (h : Distinct f) (hi : ∀ p, f i = some p → p.1 = k)
    (hk : ∀ q j, f j = some q → k = q.1 → j = i) :
    toMap (Function.update f i (some (k, v))) = (toMap f).insert k v := by
  have hset : Distinct (Function.update f i (some (k, v))) := by
    refine h.update fun p q j hp hq hpq => hk q j hq ?_
    rwa [← Option.some.inj hp] at hpq
  refine Finmap.ext_lookup fun x => Option.ext fun w => ?_
  rw [lookup_toMap hset]
  by_cases hx : x = k
  · subst hx
    rw [Finmap.lookup_insert]
    constructor
    · rintro ⟨j, hj⟩
      rcases eq_or_ne j i with rfl | hji
      · rw [Function.update_self] at hj
        cases hj
        rfl
      · rw [Function.update_of_ne hji] at hj
        exact absurd (hk _ j hj rfl) hji
    · intro hw
      cases hw
      exact ⟨i, Function.update_self _ _ _⟩
  · rw [Finmap.lookup_insert_of_ne _ hx, lookup_toMap h]
    refine exists_congr fun j => ?_
    rcases eq_or_ne j i with rfl | hji
    · rw [Function.update_self]
      refine ⟨fun hj => ?_, fun hj => absurd (hi _ hj) hx⟩
      cases hj
      exact absurd rfl hx
    · rw [Function.update_of_ne hji]

/-- Clearing a slot is erasing its key. -/
theorem toMap_clear (h : Distinct f) (hi : f i = some (k, v)) :
    toMap (Function.update f i none) = (toMap f).erase k := by
  have hclear : Distinct (Function.update f i none) := h.update nofun
  refine Finmap.ext_lookup fun x => Option.ext fun w => ?_
  rw [lookup_toMap hclear]
  by_cases hx : x = k
  · subst hx
    rw [Finmap.lookup_erase]
    refine ⟨?_, nofun⟩
    rintro ⟨j, hj⟩
    rcases eq_or_ne j i with rfl | hji
    · rw [Function.update_self] at hj
      cases hj
    · rw [Function.update_of_ne hji] at hj
      exact absurd (h j i _ _ hj hi rfl) hji
  · rw [Finmap.lookup_erase_ne hx, lookup_toMap h]
    refine exists_congr fun j => ?_
    rcases eq_or_ne j i with rfl | hji
    · rw [Function.update_self, hi]
      refine ⟨nofun, fun hj => ?_⟩
      cases hj
      exact absurd rfl hx
    · rw [Function.update_of_ne hji]

/-- The map has as many keys as there are slots in use. -/
theorem card_keys (h : Distinct f) :
    (toMap f).keys.card = (Finset.univ.filter fun i => (f i).isSome).card := by
  refine (Finset.card_bij (fun i hi => ((f i).get (Finset.mem_filter.mp hi).2).1) ?_ ?_ ?_).symm
  · intro i hi
    rw [Finmap.mem_keys, mem_toMap]
    exact ⟨i, ((f i).get (Finset.mem_filter.mp hi).2).2, (Option.some_get _).symm⟩
  · intro i hi j hj hij
    exact h i j _ _ (Option.some_get _).symm (Option.some_get _).symm hij
  · intro k hk
    rw [Finmap.mem_keys, mem_toMap] at hk
    obtain ⟨i, v, hi⟩ := hk
    exact ⟨i, by simp [hi], by simp [hi]⟩

theorem card_keys_le (h : Distinct f) : (toMap f).keys.card ≤ n := by
  rw [card_keys h]
  exact (Finset.card_filter_le _ _).trans (by simp)

/-- The array is full when the map has as many keys as there are slots. -/
theorem card_keys_eq_iff (h : Distinct f) : (toMap f).keys.card = n ↔ ∀ i, (f i).isSome := by
  rw [card_keys h]
  constructor
  · intro hcard i
    have huniv := Finset.eq_univ_of_card _ (hcard.trans (Fintype.card_fin n).symm)
    have hi : i ∈ Finset.univ.filter fun i => (f i).isSome := by
      rw [huniv]
      exact Finset.mem_univ i
    exact (Finset.mem_filter.mp hi).2
  · intro hall
    rw [Finset.filter_true_of_mem fun i _ => hall i, Finset.card_univ, Fintype.card_fin]

end SlotMap
