import Mathlib.Tactic.SplitIfs
import Mathlib.Tactic.TypeStar

/-!
# Path names

A path is a list of characters, `sep` the separator and `dot` the character of the name `.`. The
names in it are the pieces between separators; an empty piece, of a repeated or a trailing
separator, and the name `.` do not lead anywhere. `resolve` is the list of names that a path
leads to from a working directory. The name `..` and symbolic links are names like any other
here, so two paths with the same `resolve` name the same file, and others may.
-/

namespace PathName

variable {α : Type*} [DecidableEq α] (sep dot : α)

/-- The names in a path that lead somewhere. -/
def components (p : List α) : List (List α) :=
  (p.splitOnP (· == sep)).filter fun c => c ≠ [] ∧ c ≠ [dot]

/-- Where a path leads from the directory `cwd`. -/
def resolve (cwd : List (List α)) (p : List α) : List (List α) :=
  if p.head? = some sep then components sep dot p else cwd ++ components sep dot p

variable {sep dot} {cwd : List (List α)} {p q : List α}

@[simp] theorem components_nil : components sep dot [] = [] := by
  simp [components]

theorem components_append_cons (p q : List α) :
    components sep dot (p ++ sep :: q) = components sep dot p ++ components sep dot q := by
  have hsplit := List.splitOnP_append_cons (p := (· == sep)) p q (beq_self_eq_true sep)
  rw [components, hsplit, List.filter_append]
  rfl

theorem components_dot (hd : dot ≠ sep) : components sep dot [dot] = [] := by
  have hsplit : [dot].splitOnP (· == sep) = [[dot]] :=
    List.splitOnP_eq_singleton (by simpa using hd)
  simp [components, hsplit]

/-- Two paths that begin alike lead to the same place if their names are the same. -/
theorem resolve_congr (hhead : p.head? = q.head?)
    (hnames : components sep dot p = components sep dot q) :
    resolve sep dot cwd p = resolve sep dot cwd q := by
  rw [resolve, resolve, hhead, hnames]

/-- A trailing separator does not matter. -/
theorem resolve_trailing (hp : p ≠ []) :
    resolve sep dot cwd (p ++ [sep]) = resolve sep dot cwd p := by
  have hhead : (p ++ [sep]).head? = p.head? := by
    cases p with
    | nil => exact absurd rfl hp
    | cons => rfl
  refine resolve_congr hhead ?_
  rw [components_append_cons, components_nil, List.append_nil]

/-- A repeated separator does not matter. -/
theorem resolve_repeated :
    resolve sep dot cwd (p ++ sep :: sep :: q) = resolve sep dot cwd (p ++ sep :: q) := by
  refine resolve_congr (by cases p <;> rfl) ?_
  rw [components_append_cons, components_append_cons, ← List.nil_append (sep :: q),
    components_append_cons, components_nil, List.nil_append]

/-- The name `.` inside a path does not matter. -/
theorem resolve_dot (hd : dot ≠ sep) :
    resolve sep dot cwd (p ++ sep :: dot :: sep :: q) = resolve sep dot cwd (p ++ sep :: q) := by
  refine resolve_congr (by cases p <;> rfl) ?_
  rw [components_append_cons, components_append_cons,
    show dot :: sep :: q = [dot] ++ sep :: q from rfl, components_append_cons, components_dot hd,
    List.nil_append]

/-- The name `.` at the beginning of a relative path does not matter. -/
theorem resolve_leading_dot (hd : dot ≠ sep) (hq : q.head? ≠ some sep) :
    resolve sep dot cwd (dot :: sep :: q) = resolve sep dot cwd q := by
  have hnames : components sep dot (dot :: sep :: q) = components sep dot q := by
    rw [show dot :: sep :: q = [dot] ++ sep :: q from rfl, components_append_cons,
      components_dot hd, List.nil_append]
  rw [resolve, resolve, hnames, if_neg hq, if_neg (by simpa using hd)]

end PathName
