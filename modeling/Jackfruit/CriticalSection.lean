import Jackfruit.Transition
import Mathlib.Data.Nat.Notation

/-!
# Critical sections under one mutex

Threads that work on shared data `σ` under one mutex. `Code σ ρ` is what a thread does inside : it
reads and writes the data in single steps and decides by what it read how to go on, until it returns
something in `ρ`. `Code.run` does all of it at once.

The machine locks the mutex for a section, does one step of the code of whoever holds it, and
unlocks once the code has returned. `Sequential` says that sections done at once and one after the
other give these results. Every run of the machine is sequential in this sense, and while a section
is half done, the rest of it does what the whole would have done (`sequential_of_run`). The code is
a tree without infinite branches, so that the mutex is always given back (`exec_finish`).
-/

namespace CriticalSection

/-- Code that returns, or does one step on the data and goes on depending on what it read. -/
inductive Code (σ ρ : Type) : Type
  | ret (r : ρ)
  | act (write : σ → σ) (next : σ → Code σ ρ)

namespace Code

variable {σ ρ ρ' : Type}

/-- All of the code at once. -/
def run : Code σ ρ → σ → ρ × σ
  | .ret r, s => (r, s)
  | .act write next, s => (next s).run (write s)

/-- How many steps the code takes. -/
def steps : Code σ ρ → σ → ℕ
  | .ret _, _ => 0
  | .act write next, s => (next s).steps (write s) + 1

/-- Code followed by code that gets its result. -/
def bind : Code σ ρ → (ρ → Code σ ρ') → Code σ ρ'
  | .ret r, k => k r
  | .act write next, k => .act write fun s => (next s).bind k

/-- One step that only reads. -/
def read (f : σ → Code σ ρ) : Code σ ρ :=
  .act id f

@[simp] theorem run_ret (r : ρ) (s : σ) : (ret r : Code σ ρ).run s = (r, s) :=
  rfl

@[simp] theorem run_act (write : σ → σ) (next : σ → Code σ ρ) (s : σ) :
    (act write next).run s = (next s).run (write s) :=
  rfl

@[simp] theorem run_read (f : σ → Code σ ρ) (s : σ) : (read f).run s = (f s).run s :=
  rfl

@[simp] theorem run_bind (c : Code σ ρ) (k : ρ → Code σ ρ') (s : σ) :
    (c.bind k).run s = (k (c.run s).1).run (c.run s).2 := by
  induction c generalizing s with
  | ret r => rfl
  | act write next ih => exact ih s (write s)

end Code

variable {T σ Op : Type} {Res : Op → Type}

/-- A section that is over : the thread, what it did and what that returned. -/
structure Entry (T : Type) (Res : Op → Type) where
  thread : T
  op : Op
  result : Res op

/-- A section that is half done. -/
structure Holder (T σ : Type) (Res : Op → Type) where
  thread : T
  op : Op
  rest : Code σ (Res op)

/-- The data with the thread that holds the mutex. -/
structure State (T σ : Type) (Res : Op → Type) where
  shared : σ
  /-- Who has the mutex. -/
  holder : Option (Holder T σ Res)
  /-- The sections that are over. No step reads it. -/
  log : List (Entry T Res)

/-- A thread gets the mutex for a section, does one step of its code, or gives the mutex back. -/
inductive Event (T Op : Type)
  | lock (thread : T) (op : Op)
  | act
  | unlock

/-- The mutex is free and no section has run. -/
def initial (T : Type) (Res : Op → Type) (s : σ) : State T σ Res :=
  ⟨s, none, []⟩

variable (code : (op : Op) → Code σ (Res op))

/-- One step of whoever may take it. -/
def step (s : State T σ Res) : Event T Op → Option (State T σ Res)
  | .lock thread op =>
    match s.holder with
    | none => some { s with holder := some ⟨thread, op, code op⟩ }
    | some _ => none
  | .act =>
    match s.holder with
    | some ⟨thread, op, .act write next⟩ =>
      some { s with shared := write s.shared, holder := some ⟨thread, op, next s.shared⟩ }
    | _ => none
  | .unlock =>
    match s.holder with
    | some ⟨thread, op, .ret r⟩ => some { s with holder := none, log := s.log ++ [⟨thread, op, r⟩] }
    | _ => none

/-- The sections of the log done at once, one after the other, give its results and lead from `s`
to `t`. -/
def Sequential (run : (op : Op) → σ → Res op × σ) : List (Entry T Res) → σ → σ → Prop
  | [], s, t => s = t
  | ⟨_, op, r⟩ :: log, s, t => (run op s).1 = r ∧ Sequential run log (run op s).2 t

/-- What is left of the section that is half done does what all of it does to `t`. -/
def Remains (s : State T σ Res) (t : σ) : Prop :=
  match s.holder with
  | none => s.shared = t
  | some ⟨_, op, rest⟩ => rest.run s.shared = (code op).run t

variable {code} {run : (op : Op) → σ → Res op × σ} {s₀ t u : σ} {s s' : State T σ Res}

theorem Sequential.append : ∀ {log log' : List (Entry T Res)} {s : σ}, Sequential run log s t →
    Sequential run log' t u → Sequential run (log ++ log') s u
  | [], _, _, h, h' => h ▸ h'
  | ⟨_, _, _⟩ :: _, _, _, h, h' => ⟨h.1, h.2.append h'⟩

/-- The sections may be replaced by others that do the same. -/
theorem Sequential.congr {run' : (op : Op) → σ → Res op × σ} (hrun : ∀ op s, run op s = run' op s) :
    ∀ {log : List (Entry T Res)} {s : σ}, Sequential run log s t → Sequential run' log s t
  | [], _, h => h
  | ⟨_, _, _⟩ :: _, _, h => by
    obtain ⟨hr, hrest⟩ := h
    rw [hrun] at hr hrest
    exact ⟨hr, hrest.congr hrun⟩

/-- What holds of the data and is kept by every section holds after all of them. -/
theorem Sequential.invariant {I : σ → Prop} (hkeep : ∀ op s, I s → I (run op s).2) :
    ∀ {log : List (Entry T Res)} {s : σ}, Sequential run log s t → I s → I t
  | [], _, h, hi => h ▸ hi
  | ⟨_, op, _⟩ :: _, s, h, hi => h.2.invariant hkeep (hkeep op s hi)

/-- One step keeps the account of the sections that are over and of the one that is not. -/
theorem sequential_step {e : Event T Op}
    (h : ∃ t, Sequential (fun op => (code op).run) s.log s₀ t ∧ Remains code s t)
    (hs : step code s e = some s') :
    ∃ t, Sequential (fun op => (code op).run) s'.log s₀ t ∧ Remains code s' t := by
  obtain ⟨t, hlog, hrest⟩ := h
  obtain ⟨shared, holder, log⟩ := s
  cases e with
  | lock thread op =>
    cases holder with
    | some _ => cases hs
    | none =>
      obtain rfl := Option.some.inj hs
      exact ⟨t, hlog, congrArg (code op).run hrest⟩
  | act =>
    rcases holder with _ | ⟨thread, op, r | ⟨write, next⟩⟩
    · cases hs
    · cases hs
    · obtain rfl := Option.some.inj hs
      exact ⟨t, hlog, hrest⟩
  | unlock =>
    rcases holder with _ | ⟨thread, op, r | ⟨write, next⟩⟩
    · cases hs
    · obtain rfl := Option.some.inj hs
      refine ⟨((code op).run t).2, hlog.append ⟨?_, rfl⟩, ?_⟩
      · exact congrArg Prod.fst hrest.symm
      · exact congrArg Prod.snd hrest
    · cases hs

/-- After every run the sections that are over were done as if at once and in the order in which
they ended, and what is left of the one that is not does what all of it would have done. -/
theorem sequential_of_run
    (h : Transition.Run (step code) Transition.Always (initial T Res s₀) s) :
    ∃ t, Sequential (fun op => (code op).run) s.log s₀ t ∧ Remains code s t := by
  refine h.invariant (I := fun s =>
    ∃ t, Sequential (fun op => (code op).run) s.log s₀ t ∧ Remains code s t) ?_ ?_
  · exact ⟨s₀, rfl, rfl⟩
  · exact fun _ _ _ ih _ hs => sequential_step ih hs

/-- Whoever holds the mutex can take all the steps that are left of its section and unlock. -/
theorem exec_finish (code : (op : Op) → Code σ (Res op)) (thread : T) (op : Op) :
    ∀ (rest : Code σ (Res op)) (shared : σ) (log : List (Entry T Res)),
    Transition.exec (step code) Transition.Always ⟨shared, some ⟨thread, op, rest⟩, log⟩
        (List.replicate (rest.steps shared) .act ++ [.unlock]) =
      some ⟨(rest.run shared).2, none, log ++ [⟨thread, op, (rest.run shared).1⟩]⟩
  | .ret r, shared, log => rfl
  | .act write next, shared, log => by
    rw [Code.steps, List.replicate_succ, List.cons_append, Transition.exec,
      if_pos (show Transition.Always _ _ from trivial)]
    exact exec_finish code thread op (next shared) (write shared) log

/-- While the mutex is held, only its holder can take a step. -/
theorem not_lock_of_held {hd : Holder T σ Res} (h : s.holder = some hd) (thread : T) (op : Op) :
    step code s (.lock thread op) = none := by
  simp [step, h]

end CriticalSection
