import Mathlib.Data.Finmap
import Mathlib.Tactic.Common

/-!
# Lists of keyed records as finite maps

A list of records searched from the front by key, as a linked list in a kernel is. `find`
returns the first record with a key, `modify` changes it in place and `remove` unlinks it.
`toMap` is the finite map such a list stands for. While no key occurs twice
(`(l.map key).Nodup`) the first record is the only one, and `modify`, `remove` and appending a
new key are overwriting, erasing and inserting in the map, in the order of the list.
-/

namespace KeyedList

variable {α K V : Type*} [DecidableEq K] (key : α → K) (val : α → V)

/-- The first record with key `k`. -/
def find (k : K) (l : List α) : Option α :=
  l.find? fun a => key a = k

/-- Change the first record with key `k` in place. -/
def modify (k : K) (f : α → α) : List α → List α
  | [] => []
  | a :: l => if key a = k then f a :: l else a :: modify k f l

/-- Unlink the first record with key `k`. -/
def remove (k : K) (l : List α) : List α :=
  l.eraseP fun a => key a = k

/-- The finite map of a list. -/
def toMap (l : List α) : Finmap fun _ : K => V :=
  (l.map fun a => (⟨key a, val a⟩ : Σ _ : K, V)).toFinmap

variable {key val} {k k' : K} {l : List α} {a : α} {f : α → α}

@[simp] theorem find_nil : find key k [] = none :=
  rfl

theorem find_cons : find key k (a :: l) = if key a = k then some a else find key k l := by
  by_cases h : key a = k <;> simp [find, h]

theorem find_eq_none : find key k l = none ↔ k ∉ l.map key := by
  simp [find]

theorem mem_of_find (h : find key k l = some a) : a ∈ l ∧ key a = k :=
  ⟨List.mem_of_find?_eq_some h, by simpa using List.find?_some h⟩

/-- Looking a key up in the map is searching the list for it. -/
theorem lookup_toMap : (toMap key val l).lookup k = (find key k l).map val := by
  rw [toMap, Finmap.dlookup_list_toFinmap]
  induction l with
  | nil => rfl
  | cons a l ih =>
    rw [List.map_cons, find_cons]
    by_cases h : key a = k
    · subst h
      rw [List.dlookup_cons_eq, if_pos rfl, Option.map_some]
    · rw [List.dlookup_cons_ne _ _ (Ne.symm h), if_neg h, ih]

theorem mem_toMap : k ∈ toMap key val l ↔ k ∈ l.map key := by
  rw [← Finmap.lookup_isSome, lookup_toMap, Option.isSome_map, Option.isSome_iff_ne_none, ne_eq,
    find_eq_none, not_not]

/-! ## Changing a record in place -/

theorem map_key_modify (hf : ∀ a, key (f a) = key a) : (modify key k f l).map key = l.map key := by
  induction l with
  | nil => rfl
  | cons a l ih =>
    unfold modify
    split_ifs with h
    · rw [List.map_cons, List.map_cons, hf]
    · rw [List.map_cons, List.map_cons, ih]

theorem modify_append {l₁ : List α} (hl₁ : k ∉ l₁.map key) (ha : key a = k) :
    modify key k f (l₁ ++ a :: l) = l₁ ++ f a :: l := by
  induction l₁ with
  | nil => exact if_pos ha
  | cons b l₁ ih =>
    rw [List.map_cons, List.mem_cons, not_or] at hl₁
    exact (if_neg (Ne.symm hl₁.1)).trans (congrArg _ (ih hl₁.2))

theorem mem_modify (h : a ∈ modify key k f l) : a ∈ l ∨ ∃ b ∈ l, key b = k ∧ a = f b := by
  induction l with
  | nil => simp [modify] at h
  | cons b l ih =>
    unfold modify at h
    split_ifs at h with hb
    · rcases List.mem_cons.mp h with rfl | h
      · exact Or.inr ⟨b, List.mem_cons_self, hb, rfl⟩
      · exact Or.inl (List.mem_cons_of_mem _ h)
    · rcases List.mem_cons.mp h with rfl | h
      · exact Or.inl List.mem_cons_self
      · rcases ih h with h | ⟨c, hc, hck, rfl⟩
        · exact Or.inl (List.mem_cons_of_mem _ h)
        · exact Or.inr ⟨c, List.mem_cons_of_mem _ hc, hck, rfl⟩

theorem find_modify_self (hf : ∀ a, key (f a) = key a) :
    find key k (modify key k f l) = (find key k l).map f := by
  induction l with
  | nil => rfl
  | cons a l ih =>
    unfold modify
    split_ifs with h
    · rw [find_cons, find_cons, if_pos ((hf a).trans h), if_pos h, Option.map_some]
    · rw [find_cons, find_cons, if_neg h, if_neg h, ih]

theorem find_modify_of_ne (hf : ∀ a, key (f a) = key a) (hk : k' ≠ k) :
    find key k' (modify key k f l) = find key k' l := by
  induction l with
  | nil => rfl
  | cons a l ih =>
    unfold modify
    split_ifs with h
    · have hne : key a ≠ k' := fun h' => hk (h'.symm.trans h)
      rw [find_cons, find_cons, if_neg ((hf a).symm ▸ hne), if_neg hne]
    · rw [find_cons, find_cons, ih]

/-- Overwriting a record is inserting in the map. -/
theorem toMap_modify {v : V} (hf : ∀ a, key (f a) = key a) (hv : ∀ a, key a = k → val (f a) = v)
    (hk : k ∈ l.map key) : toMap key val (modify key k f l) = (toMap key val l).insert k v := by
  refine Finmap.ext_lookup fun j => ?_
  by_cases hj : j = k
  · subst hj
    rw [lookup_toMap, find_modify_self hf, Finmap.lookup_insert]
    obtain ⟨a, ha⟩ := Option.ne_none_iff_exists'.mp (mt find_eq_none.mp (not_not.mpr hk))
    rw [ha, Option.map_some, Option.map_some, hv a (mem_of_find ha).2]
  · rw [lookup_toMap, find_modify_of_ne hf hj, Finmap.lookup_insert_of_ne _ hj, lookup_toMap]

theorem filter_modify (hf : ∀ a, key (f a) = key a) :
    (modify key k f l).filter (key · ≠ k) = l.filter (key · ≠ k) := by
  induction l with
  | nil => rfl
  | cons a l ih =>
    unfold modify
    split_ifs with h
    · rw [List.filter_cons_of_neg (by simp [hf, h]), List.filter_cons_of_neg (by simp [h])]
    · rw [List.filter_cons_of_pos (by simp [h]), List.filter_cons_of_pos (by simp [h]), ih]

theorem forall₂_modify {R : α → α → Prop} {g : α → α} (hkey : ∀ a b, R a b → key a = key b)
    (hfg : ∀ a b, R a b → R (f a) (g b)) {l' : List α} (h : List.Forall₂ R l l') :
    List.Forall₂ R (modify key k f l) (modify key k g l') := by
  induction h with
  | nil => exact .nil
  | @cons a b l l' hab hrest ih =>
    unfold modify
    rw [hkey a b hab]
    split_ifs
    · exact .cons (hfg a b hab) hrest
    · exact .cons hab ih

/-! ## Appending and unlinking -/

/-- Appending a record with a new key is inserting in the map. -/
theorem toMap_append (hk : key a ∉ l.map key) :
    toMap key val (l ++ [a]) = (toMap key val l).insert (key a) (val a) := by
  have hfind : ∀ j, find key j (l ++ [a]) = (find key j l).or (find key j [a]) :=
    fun j => List.find?_append
  refine Finmap.ext_lookup fun j => ?_
  by_cases hj : j = key a
  · subst hj
    rw [lookup_toMap, hfind, find_eq_none.mpr hk, Finmap.lookup_insert, find_cons, if_pos rfl]
    rfl
  · rw [lookup_toMap, hfind, find_cons, if_neg (Ne.symm hj), Finmap.lookup_insert_of_ne _ hj,
      lookup_toMap, find_nil, Option.or_none]

theorem remove_append {l₁ : List α} (hl₁ : k ∉ l₁.map key) (ha : key a = k) :
    remove key k (l₁ ++ a :: l) = l₁ ++ l := by
  rw [remove, List.eraseP_append_right _ fun b hb => ?_,
    List.eraseP_cons_of_pos (by simpa using ha)]
  have hbk : key b ≠ k := fun h => hl₁ (h ▸ List.mem_map_of_mem hb)
  simpa using hbk

theorem mem_of_mem_remove {b : α} (h : b ∈ remove key k l) : b ∈ l :=
  List.mem_of_mem_eraseP h

theorem forall₂_remove {R : α → α → Prop} (hkey : ∀ a b, R a b → key a = key b) {l' : List α}
    (h : List.Forall₂ R l l') : List.Forall₂ R (remove key k l) (remove key k l') := by
  induction h with
  | nil => exact .nil
  | @cons a b l l' hab hrest ih =>
    rw [remove, remove, List.eraseP_cons, List.eraseP_cons, hkey a b hab]
    cases decide (key b = k) with
    | true => exact hrest
    | false => exact .cons hab ih

/-- While no key occurs twice, unlinking the first record with a key unlinks the key. -/
theorem remove_eq_filter (hl : (l.map key).Nodup) : remove key k l = l.filter (key · ≠ k) := by
  induction l with
  | nil => rfl
  | cons a l ih =>
    rw [List.map_cons, List.nodup_cons] at hl
    by_cases h : key a = k
    · have hall : ∀ b ∈ l, key b ≠ k := fun b hb hbk =>
        hl.1 (h.trans hbk.symm ▸ List.mem_map_of_mem hb)
      rw [remove, List.eraseP_cons_of_pos (by simp [h]), List.filter_cons_of_neg (by simp [h]),
        List.filter_eq_self.mpr (by simpa using hall)]
    · rw [remove, List.eraseP_cons_of_neg (by simp [h]), List.filter_cons_of_pos (by simp [h])]
      exact congrArg _ (ih hl.2)

theorem toMap_remove (hl : (l.map key).Nodup) :
    toMap key val (remove key k l) = (toMap key val l).erase k := by
  rw [remove_eq_filter hl]
  refine Finmap.ext_lookup fun j => ?_
  by_cases hj : j = k
  · subst hj
    rw [Finmap.lookup_erase, lookup_toMap, Option.map_eq_none_iff, find_eq_none]
    simp
  · rw [Finmap.lookup_erase_ne hj, lookup_toMap, lookup_toMap, find, find, List.find?_filter]
    congr 2
    funext a
    by_cases ha : key a = j
    · simp [ha, hj]
    · simp [ha]

end KeyedList
