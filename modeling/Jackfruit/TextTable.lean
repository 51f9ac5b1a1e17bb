import Mathlib.Data.List.Basic
import Mathlib.Tactic.Common

/-!
# Tables of text

A table is printed as a line for each row, with a separator between the fields of a row and an end
of line behind it. A reader takes the text apart at the ends of the lines and each line at the
separators.

The reader gets the printed rows back if no field has a separator or an end of line in it
(`read_print`). Otherwise it cannot : no field that it gets from any text has one
(`plain_of_mem_read`).
-/

set_option linter.unusedSectionVars false

namespace TextTable

variable {α : Type*} [DecidableEq α]

/-- The line of a row. -/
def line (sep eol : α) (row : List (List α)) : List α :=
  [sep].intercalate row ++ [eol]

/-- The text of a table. -/
def print (sep eol : α) (rows : List (List (List α))) : List α :=
  rows.flatMap (line sep eol)

/-- What is behind the last end of line is no row. -/
def read (sep eol : α) (text : List α) : List (List (List α)) :=
  (text.splitOn eol).dropLast.map fun l => l.splitOn sep

/-- Neither a separator nor an end of line is in the field. -/
def Plain (sep eol : α) (field : List α) : Prop :=
  sep ∉ field ∧ eol ∉ field

instance (sep eol : α) (field : List α) : Decidable (Plain sep eol field) :=
  inferInstanceAs (Decidable (_ ∧ _))

variable {sep eol a b : α} {text field l : List α} {row : List (List α)}

/-! ## Pieces -/

/-- The pieces have nothing that the text has not, and no separator. -/
theorem mem_of_mem_splitOn (hl : l ∈ text.splitOn a) (hb : b ∈ l) : b ∈ text ∧ b ≠ a := by
  induction text generalizing l with
  | nil =>
    rw [List.splitOn_nil, List.mem_singleton] at hl
    simp [hl] at hb
  | cons c text ih =>
    rw [List.splitOn_cons_eq_if_modifyHead] at hl
    have hrest {l : List α} (hl : l ∈ text.splitOn a) (hb : b ∈ l) : b ∈ c :: text ∧ b ≠ a :=
      (ih hl hb).imp_left (List.mem_cons_of_mem c)
    obtain ⟨head, tail, hsplit⟩ := List.exists_cons_of_ne_nil (List.splitOn_ne_nil a text)
    rw [hsplit] at hrest hl
    split_ifs at hl with hc
    · rcases List.mem_cons.mp hl with rfl | hl
      · simp at hb
      · exact hrest hl hb
    · rcases List.mem_cons.mp hl with rfl | hl
      · rcases List.mem_cons.mp hb with rfl | hb
        · exact ⟨List.mem_cons_self, by simpa using hc⟩
        · exact hrest List.mem_cons_self hb
      · exact hrest (List.mem_cons_of_mem _ hl) hb

/-- A field that was read has no separator and no end of line in it. -/
theorem plain_of_mem_read (hrow : row ∈ read sep eol text) (hfield : field ∈ row) :
    Plain sep eol field := by
  obtain ⟨l, hl, rfl⟩ := List.mem_map.mp hrow
  refine ⟨fun h => (mem_of_mem_splitOn hfield h).2 rfl, fun h => ?_⟩
  exact (mem_of_mem_splitOn (List.dropLast_subset _ hl) (mem_of_mem_splitOn hfield h).1).2 rfl

/-! ## Lines -/

/-- A row of plain fields has no end of line in it. -/
theorem not_mem_intercalate (hne : sep ≠ eol) :
    ∀ {row : List (List α)}, (∀ field ∈ row, Plain sep eol field) → eol ∉ [sep].intercalate row
  | [], _ => by simp
  | [field], hrow => by
    rw [List.intercalate_singleton]
    exact (hrow field List.mem_cons_self).2
  | field :: next :: row, hrow => by
    rw [List.intercalate_cons_cons, List.mem_append, List.mem_append, List.mem_singleton]
    rintro ((h | h) | h)
    · exact (hrow field List.mem_cons_self).2 h
    · exact hne h.symm
    · exact not_mem_intercalate hne (fun f hf => hrow f (List.mem_cons_of_mem _ hf)) h

/-- A line is read back from before any text. -/
theorem read_line_append (hne : sep ≠ eol) (hnil : row ≠ [])
    (hrow : ∀ field ∈ row, Plain sep eol field) (text : List α) :
    read sep eol (line sep eol row ++ text) = row :: read sep eol text := by
  rw [read, line, List.append_assoc, List.singleton_append,
    List.splitOn_append_cons_self_of_not_mem (not_mem_intercalate hne hrow),
    List.dropLast_cons_of_ne_nil (List.splitOn_ne_nil eol text), List.map_cons,
    List.splitOn_intercalate sep (fun field hf => (hrow field hf).1) hnil]
  rfl

/-- The rows are read back if their fields are plain. -/
theorem read_print (hne : sep ≠ eol) : ∀ {rows : List (List (List α))},
    (∀ row ∈ rows, row ≠ []) → (∀ row ∈ rows, ∀ field ∈ row, Plain sep eol field) →
    read sep eol (print sep eol rows) = rows
  | [], _, _ => rfl
  | row :: rows, hnil, hplain => by
    have hrows := read_print hne (fun r hr => hnil r (List.mem_cons_of_mem _ hr))
      fun r hr => hplain r (List.mem_cons_of_mem _ hr)
    rw [print, List.flatMap_cons, read_line_append hne (hnil row List.mem_cons_self)
      (hplain row List.mem_cons_self), ← print, hrows]

end TextTable
