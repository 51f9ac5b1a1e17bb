import Mathlib.Data.List.Nodup
import Mathlib.Logic.Function.Basic
import Mathlib.Tactic.Common

/-!
# Circular doubly linked lists

Nodes are addresses, and a list is a ring of `next` and `prev` links through a head that is not a
node of it, as `struct list_head` is. `Ring s h l` says that the links `s` are the ring of the nodes
`l` with the head `h`.

A walk over the ring that has read the link of the next node may unlink the node it is at
(`Ring.del`), since the links of the nodes after it, and the head's, still lead to the rest.
-/

namespace LinkedList

variable {A : Type*}

/-- The links from `x` lead through the nodes `l` to `y`. -/
def Path (s : A → A) : A → List A → A → Prop
  | x, [], y => s x = y
  | x, a :: l, y => s x = a ∧ Path s a l y

section Path

variable {s s' : A → A} {x y a : A} {l l₁ l₂ : List A}

theorem Path.first (h : Path s x l y) : s x = l.headD y := by
  cases l with
  | nil => exact h
  | cons a l => exact h.1

/-- The rest of a path. -/
theorem Path.of_append : ∀ {l₁ : List A} {x : A}, Path s x (l₁ ++ a :: l₂) y → Path s a l₂ y
  | [], _, h => h.2
  | _ :: _, _, h => of_append h.2

theorem Path.congr : ∀ {l : List A} {x : A}, (∀ b ∈ x :: l, s' b = s b) → Path s x l y →
    Path s' x l y
  | [], x, hs, h => (hs x List.mem_cons_self).trans h
  | _ :: _, x, hs, h =>
    ⟨(hs x List.mem_cons_self).trans h.1, congr (fun b hb => hs b (List.mem_cons_of_mem _ hb)) h.2⟩

/-- A path may begin at another node with the same link. -/
theorem Path.congr_first (h : Path s x l y) (ha : s' a = s x) (hs : ∀ b ∈ l, s' b = s b) :
    Path s' a l y := by
  cases l with
  | nil => exact ha.trans h
  | cons b l => exact ⟨ha.trans h.1, h.2.congr hs⟩

variable [DecidableEq A]

/-- A new node at the end of a path. -/
theorem Path.extend : ∀ {l : List A} {x : A}, Path s x l y → (x :: l).Nodup → a ∉ x :: l →
    Path (Function.update (Function.update s a y) (l.getLastD x) a) x (l ++ [a]) y
  | [], x, _, _, ha => by
    have hax : a ≠ x := List.ne_of_not_mem_cons ha
    refine ⟨Function.update_self _ _ _, ?_⟩
    exact (Function.update_of_ne hax _ _).trans (Function.update_self _ _ _)
  | b :: l, x, h, hn, ha => by
    obtain ⟨hxb, hrest⟩ := h
    obtain ⟨hx, hn'⟩ := List.nodup_cons.mp hn
    obtain ⟨hax, ha'⟩ := not_or.mp (mt List.mem_cons.mpr ha)
    rw [List.getLastD_cons]
    refine ⟨?_, hrest.extend hn' ha'⟩
    rw [Function.update_of_ne, Function.update_of_ne (Ne.symm hax), hxb]
    rintro rfl
    exact hx List.getLastD_mem_cons

/-- The node before `a` is linked to the one after it. -/
theorem Path.unlink : ∀ {l₁ : List A} {x : A}, Path s x (l₁ ++ a :: l₂) y →
    (x :: (l₁ ++ a :: l₂)).Nodup → Path (Function.update s (l₁.getLastD x) (s a)) x (l₁ ++ l₂) y
  | [], x, h, hn => by
    have hrest : Path s a l₂ y := h.2
    have hx : x ∉ a :: l₂ := (List.nodup_cons.mp hn).1
    rw [List.nil_append, List.getLastD_nil]
    cases l₂ with
    | nil => exact (Function.update_self _ _ _).trans hrest
    | cons b l₂ =>
      refine ⟨(Function.update_self _ _ _).trans hrest.1, hrest.2.congr fun c hc => ?_⟩
      refine Function.update_of_ne ?_ _ _
      rintro rfl
      exact hx (List.mem_cons_of_mem _ hc)
  | b :: l₁, x, h, hn => by
    obtain ⟨hxb, hrest⟩ := h
    obtain ⟨hx, hn'⟩ := List.nodup_cons.mp hn
    rw [List.getLastD_cons]
    refine ⟨(Function.update_of_ne ?_ _ _).trans hxb, hrest.unlink hn'⟩
    rintro rfl
    exact hx (List.mem_append_left _ List.getLastD_mem_cons)

end Path

/-- The links of all nodes, the head's included. -/
structure Links (A : Type*) where
  next : A → A
  prev : A → A

/-- The ring of the nodes `l` with the head `h`. -/
structure Ring (s : Links A) (h : A) (l : List A) : Prop where
  nodup : (h :: l).Nodup
  next : Path s.next h l h
  prev : Path s.prev h l.reverse h

variable {s : Links A} {h a : A} {l₁ l₂ : List A}

/-- `list_del` : the neighbours of `a` are linked to each other, and its own links are poisoned. -/
def Links.del [DecidableEq A] (s : Links A) (poison a : A) : Links A where
  next := Function.update (Function.update s.next (s.prev a) (s.next a)) a poison
  prev := Function.update (Function.update s.prev (s.next a) (s.prev a)) a poison

/-- `INIT_LIST_HEAD`. -/
def Links.initHead [DecidableEq A] (s : Links A) (a : A) : Links A where
  next := Function.update s.next a a
  prev := Function.update s.prev a a

/-- `list_add_tail` : `a` comes between the last node and the head. -/
def Links.addTail [DecidableEq A] (s : Links A) (h a : A) : Links A where
  next := Function.update (Function.update s.next a h) (s.prev h) a
  prev := Function.update (Function.update s.prev h a) a (s.prev h)

theorem headD_eq_getLastD_reverse {l : List A} : l.headD h = l.reverse.getLastD h := by
  cases l with
  | nil => rfl
  | cons b l => rw [List.reverse_cons, List.getLastD_concat, List.headD_cons]

theorem Ring.next_eq (hr : Ring s h (l₁ ++ a :: l₂)) : s.next a = l₂.headD h :=
  hr.next.of_append.first

theorem Ring.prev_eq (hr : Ring s h (l₁ ++ a :: l₂)) : s.prev a = l₁.getLastD h := by
  have hprev := hr.prev
  rw [List.reverse_append, List.reverse_cons, List.append_assoc, List.singleton_append] at hprev
  rw [hprev.of_append.first, headD_eq_getLastD_reverse, List.reverse_reverse]

theorem headD_mem : ∀ l : List A, l.headD h = h ∨ l.headD h ∈ l
  | [] => Or.inl rfl
  | _ :: _ => Or.inr List.mem_cons_self

theorem getLastD_mem (l : List A) : l.getLastD h = h ∨ l.getLastD h ∈ l := by
  have hmem := headD_mem (h := h) l.reverse
  rwa [headD_eq_getLastD_reverse, List.reverse_reverse, List.mem_reverse] at hmem

/-- A ring without nodes. -/
theorem ring_nil (hn : s.next h = h) (hp : s.prev h = h) : Ring s h [] :=
  ⟨List.nodup_singleton h, hn, hp⟩

/-- The link from the head to the last node. -/
theorem Ring.prev_head {l : List A} (hr : Ring s h l) : s.prev h = l.getLastD h := by
  rw [hr.prev.first, headD_eq_getLastD_reverse, List.reverse_reverse]

/-- A ring does not depend on the links of other nodes. -/
theorem Ring.congr {s' : Links A} {l : List A} (hr : Ring s h l)
    (hs : ∀ b ∈ h :: l, s'.next b = s.next b ∧ s'.prev b = s.prev b) : Ring s' h l := by
  refine ⟨hr.nodup, hr.next.congr fun b hb => (hs b hb).1, hr.prev.congr fun b hb => (hs b ?_).2⟩
  simpa using hb

/-- The ring with a new last node. -/
theorem Ring.addTail [DecidableEq A] {l : List A} (hr : Ring s h l) (ha : a ∉ h :: l) :
    Ring (s.addTail h a) h (l ++ [a]) := by
  obtain ⟨hah, hal⟩ := not_or.mp (mt List.mem_cons.mpr ha)
  have hh : h ∉ l := (List.nodup_cons.mp hr.nodup).1
  refine ⟨?_, ?_, ?_⟩
  · rw [← List.cons_append, List.nodup_append]
    exact ⟨hr.nodup, List.nodup_singleton a, fun b hb c hc hbc => ha (by simp_all)⟩
  · have hpath := hr.next.extend hr.nodup ha
    rwa [← hr.prev_head] at hpath
  · rw [List.reverse_append, List.reverse_singleton, List.singleton_append]
    refine ⟨?_, hr.prev.congr_first (Function.update_self _ _ _) fun b hb => ?_⟩
    · exact (Function.update_of_ne (Ne.symm hah) _ _).trans (Function.update_self _ _ _)
    · have hbl : b ∈ l := List.mem_reverse.mp hb
      have hba : b ≠ a := fun heq => hal (heq ▸ hbl)
      have hbh : b ≠ h := fun heq => hh (heq ▸ hbl)
      exact (Function.update_of_ne hba _ _).trans (Function.update_of_ne hbh _ _)

/-- The ring without a node. -/
theorem Ring.del [DecidableEq A] (hr : Ring s h (l₁ ++ a :: l₂)) (poison : A) :
    Ring (s.del poison a) h (l₁ ++ l₂) := by
  have hsub : (h :: (l₁ ++ l₂)).Sublist (h :: (l₁ ++ a :: l₂)) :=
    ((List.Sublist.refl l₁).append (List.sublist_cons_self a l₂)).cons_cons h
  have hnot : a ∉ h :: (l₁ ++ l₂) := by
    have hn := hr.nodup
    rw [← List.cons_append, List.nodup_middle] at hn
    exact (List.nodup_cons.mp hn).1
  refine ⟨hr.nodup.sublist hsub, ?_, ?_⟩
  · have hpath := hr.next.unlink hr.nodup
    rw [← hr.prev_eq] at hpath
    refine hpath.congr fun b hb => Function.update_of_ne ?_ _ _
    rintro rfl
    exact hnot hb
  · have hprev := hr.prev
    have hn := ((List.reverse_perm (l₁ ++ a :: l₂)).cons h).nodup_iff.mpr hr.nodup
    rw [List.reverse_append, List.reverse_cons, List.append_assoc, List.singleton_append]
      at hprev hn
    have hpath := hprev.unlink hn
    rw [← headD_eq_getLastD_reverse, ← hr.next_eq, ← List.reverse_append] at hpath
    refine hpath.congr fun b hb => Function.update_of_ne ?_ _ _
    rintro rfl
    exact hnot (by simpa [or_comm] using hb)

end LinkedList
