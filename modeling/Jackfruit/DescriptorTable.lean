import Mathlib.Data.List.Basic
import Mathlib.Logic.Function.Basic
import Mathlib.Tactic.Common

/-!
# Descriptor tables

The table of open descriptors of a process. A descriptor is a position in the list, and a free one
holds nothing; a new descriptor takes the lowest free position. Two descriptors may hold the same
open file, and so may two processes.
-/

/-- An open descriptor. -/
structure Desc (F : Type*) where
  file : F
  /-- `FD_CLOEXEC`. -/
  cloexec : Bool
  deriving DecidableEq

/-- A process's descriptors. -/
abbrev FdTable (F : Type*) :=
  List (Option (Desc F))

namespace FdTable

variable {F : Type*}

/-- What the descriptor `n` holds. -/
def get (t : FdTable F) (n : ℕ) : Option (Desc F) :=
  t[n]?.join

/-- The open file of the descriptor `n`. -/
def file (t : FdTable F) (n : ℕ) : Option F :=
  (t.get n).map Desc.file

/-- The lowest free descriptor. -/
def lowest (t : FdTable F) : ℕ :=
  t.findIdx Option.isNone

/-- The descriptor `n` becomes `d`. -/
def place (t : FdTable F) (n : ℕ) (d : Desc F) : FdTable F :=
  if n < t.length then t.set n (some d) else t ++ List.replicate (n - t.length) none ++ [some d]

/-- A file is opened at the lowest free descriptor. -/
def openFile (t : FdTable F) (f : F) (cloexec : Bool) : FdTable F :=
  t.place t.lowest ⟨f, cloexec⟩

/-- `close(n)`. -/
def close (t : FdTable F) (n : ℕ) : FdTable F :=
  t.set n none

/-- `dup2(n, m)`, which does nothing if `n` is not open or is `m`. -/
def dup2 (t : FdTable F) (n m : ℕ) : FdTable F :=
  match t.file n with
  | some f => if n = m then t else t.place m ⟨f, false⟩
  | none => t

/-- What a successful `exec` leaves. -/
def exec (t : FdTable F) : FdTable F :=
  t.map fun o => o.filter fun d => !d.cloexec

/-- Some descriptor holds this file. -/
def Holds (t : FdTable F) (f : F) : Prop :=
  ∃ d ∈ t, d.map Desc.file = some f

instance [DecidableEq F] (t : FdTable F) (f : F) : Decidable (t.Holds f) :=
  inferInstanceAs (Decidable (∃ d ∈ t, _))

variable {t : FdTable F} {n m : ℕ} {d : Desc F} {f : F}

theorem holds_iff : t.Holds f ↔ ∃ n, t.file n = some f := by
  constructor
  · rintro ⟨d, hd, hf⟩
    obtain ⟨n, hn⟩ := List.mem_iff_getElem?.mp hd
    exact ⟨n, by rw [file, get, hn]; exact hf⟩
  · rintro ⟨n, hn⟩
    obtain ⟨d, hd, hf⟩ := Option.map_eq_some_iff.mp hn
    refine ⟨some d, List.mem_of_getElem? ((Option.join_eq_some_iff).mp hd), ?_⟩
    rw [Option.map_some, hf]

theorem get_place : (t.place n d).get m = if m = n then some d else t.get m := by
  unfold place get
  split_ifs with hlt hmn hmn
  · rw [hmn, List.getElem?_set_self hlt]
    rfl
  · rw [List.getElem?_set_ne (Ne.symm hmn)]
  · have hlen : (t ++ List.replicate (n - t.length) none).length = n := by
      simp
      omega
    rw [hmn, List.getElem?_append_right (by omega), hlen, Nat.sub_self]
    rfl
  · rcases Nat.lt_trichotomy m n with hlt' | heq | hgt
    · rw [List.getElem?_append_left (by simp; omega)]
      rcases Nat.lt_or_ge m t.length with hm | hm
      · rw [List.getElem?_append_left hm]
      · rw [List.getElem?_append_right hm, List.getElem?_eq_none hm, List.getElem?_replicate,
          if_pos (by omega)]
        rfl
    · exact absurd heq hmn
    · rw [List.getElem?_eq_none (by simp; omega), List.getElem?_eq_none (by omega)]

theorem get_lowest : t.get t.lowest = none := by
  unfold get lowest
  rcases Nat.lt_or_ge (t.findIdx Option.isNone) t.length with hlt | hge
  · rw [List.getElem?_eq_getElem hlt]
    have hnone := List.findIdx_getElem (w := hlt)
    rw [Option.isNone_iff_eq_none] at hnone
    rw [hnone]
    rfl
  · rw [List.getElem?_eq_none hge]
    rfl

theorem get_close : (t.close n).get m = if m = n then none else t.get m := by
  unfold close get
  split_ifs with hmn
  · rw [hmn]
    rcases Nat.lt_or_ge n t.length with hlt | hge
    · rw [List.getElem?_set_self hlt]
      rfl
    · rw [List.getElem?_eq_none (by simpa using hge)]
      rfl
  · rw [List.getElem?_set_ne (Ne.symm hmn)]

theorem get_exec : t.exec.get n = (t.get n).filter fun d => !d.cloexec := by
  unfold exec get
  rw [List.getElem?_map]
  cases t[n]? with
  | none => rfl
  | some o => rfl

@[simp] theorem file_lowest : t.file t.lowest = none := by
  rw [file, get_lowest, Option.map_none]

theorem file_place : (t.place n d).file m = if m = n then some d.file else t.file m := by
  unfold file
  rw [get_place]
  split_ifs <;> rfl

theorem file_openFile {cloexec : Bool} :
    (t.openFile f cloexec).file m = if m = t.lowest then some f else t.file m :=
  file_place

theorem file_close : (t.close n).file m = if m = n then none else t.file m := by
  unfold file
  rw [get_close]
  split_ifs <;> rfl

theorem file_dup2 (hf : t.file n = some f) :
    (t.dup2 n m).file = fun k => if k = m then some f else t.file k := by
  funext k
  simp only [dup2, hf]
  split_ifs with hnm hk hk
  · rw [hk, ← hnm, hf]
  · rfl
  · rw [file_place, if_pos hk]
  · rw [file_place, if_neg hk]

/-! ## Where a process has its files open -/

/-- Every file with `p` is open at the one descriptor that `pos` says, if at any. -/
def Tracks (p : F → Prop) (t : FdTable F) (pos : F → Option ℕ) : Prop :=
  ∀ n f, p f → (t.file n = some f ↔ pos f = some n)

variable {p : F → Prop} {pos : F → Option ℕ} {cloexec : Bool}

theorem Tracks.holds_iff (ht : t.Tracks p pos) (hp : p f) : t.Holds f ↔ pos f ≠ none := by
  rw [FdTable.holds_iff, Option.ne_none_iff_exists']
  exact exists_congr fun n => ht n f hp

theorem Tracks.openFile [DecidableEq F] (ht : t.Tracks p pos) (hf : pos f = none) :
    (t.openFile f cloexec).Tracks p (Function.update pos f (some t.lowest)) := by
  intro n g hg
  rw [file_openFile]
  rcases eq_or_ne g f with rfl | hgf
  · rw [Function.update_self]
    split_ifs with hn
    · simp [hn]
    · rw [ht n g hg, hf]
      simp [Ne.symm hn]
  · rw [Function.update_of_ne hgf]
    split_ifs with hn
    · rw [← ht n g hg, hn, file_lowest]
      simp [Ne.symm hgf]
    · exact ht n g hg

theorem Tracks.openFile_of_not (ht : t.Tracks p pos) (hf : ¬p f) :
    (t.openFile f cloexec).Tracks p pos := by
  intro n g hg
  have hgf : f ≠ g := by
    rintro rfl
    exact hf hg
  rw [file_openFile]
  split_ifs with hn
  · rw [← ht n g hg, hn, file_lowest]
    simp [hgf]
  · exact ht n g hg

theorem Tracks.close [DecidableEq F] (ht : t.Tracks p pos) (hn : t.file n = some f) :
    (t.close n).Tracks p (Function.update pos f none) := by
  intro m g hg
  rw [file_close]
  rcases eq_or_ne g f with rfl | hgf
  · rw [Function.update_self]
    split_ifs with hm
    · simp
    · rw [ht m g hg, (ht n g hg).mp hn]
      simp [Ne.symm hm]
  · rw [Function.update_of_ne hgf]
    split_ifs with hm
    · rw [← ht m g hg, hm, hn]
      simp [Ne.symm hgf]
    · exact ht m g hg

theorem Tracks.close_of_not (ht : t.Tracks p pos) (hn : t.file n = some f) (hf : ¬p f) :
    (t.close n).Tracks p pos := by
  intro m g hg
  have hgf : f ≠ g := by
    rintro rfl
    exact hf hg
  rw [file_close]
  split_ifs with hm
  · rw [← ht m g hg, hm, hn]
    simp [hgf]
  · exact ht m g hg

end FdTable
