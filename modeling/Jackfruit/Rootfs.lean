import Jackfruit.LifeCycle
import Jackfruit.PathName

/-!
# Root directories of live containers

A start looks for its rootfs path among the live slots under the lock under which it takes its
slot, so no two live slots have the same path. But it compares strings, and `chroot` opens
directories : `a`, `./a` and `a/` are three paths of one directory (`rootfs_spelled_differently`).
If no start gets past its checks with another spelling of a live container's directory, no two
live containers share one. The theorem is about any `dir`, which says what directory a path names.
-/

set_option linter.unusedSectionVars false

namespace Jackfruit

namespace Engine

variable {s s' : Engine} {e : Event} {i j : Slot} {h : ℕ} {D : Type} {dir : CStr → D}

/-- No two live containers have the same root directory. -/
def Exclusive (dir : CStr → D) (s : Engine) : Prop :=
  ∀ i j, (s.table i).Live → (s.table j).Live →
    dir (s.table i).rootfs = dir (s.table j).rootfs → i = j

/-- A start that gets past its checks asks for no live container's directory under another
spelling. -/
def SameSpelling (dir : CStr → D) (s : Engine) : Event → Prop
  | .reserve h _ => (startContainerCheck s.table (s.req h)).isOk = true →
      ∀ j, (s.table j).Live → dir (s.table j).rootfs = dir (s.req h).rootfs →
        (s.table j).rootfs = (s.req h).rootfs
  | _ => True

instance [DecidableEq D] (s : Engine) (e : Event) : Decidable (SameSpelling dir s e) := by
  apply @Event.casesOn (fun e => Decidable (SameSpelling dir s e)) e <;> intros <;>
    dsimp only [SameSpelling] <;> infer_instance

/-- A live slot has just been reserved, or was live with the same rootfs. -/
theorem SlotStep.live_cases {c : Container} (w : Wf s) (hs : SlotStep s e i c) (hc : c.Live) :
    (∃ h now, e = .reserve h now ∧ startContainerCheck s.table (s.req h) = .ok i ∧
        c.rootfs = safeStrcpy (s.req h).rootfs MAX_PATH_LEN) ∨
      (s.table i).Live ∧ c.rootfs = (s.table i).rootfs := by
  cases hs with
  | reserve h now he hpc hck => exact Or.inl ⟨h, now, he, hck, rfl⟩
  | release => simp [Container.Live, Container.release] at hc
  | publish h pid he hpc =>
    obtain ⟨-, hst, -⟩ := w.reserved h i (by rw [hpc]; rfl)
    exact Or.inr ⟨⟨hc.1, by rw [hst]; rfl⟩, rfl⟩
  | reap h pid status he hr hchild hfind =>
    exact absurd (reapState_final _ _) (not_final_of_isLiveState hc.2)
  | same | waiters | stop => exact Or.inr ⟨hc, rfl⟩

theorem Exclusive.step (x : Exclusive dir s) (w : Wf s) (n : Named s) (hs : Effect s e s')
    (hc : SameSpelling dir s e) : Exclusive dir s' := by
  intro i j hi hj hdir
  -- The start that takes a new slot looked for its rootfs among the live ones.
  have hnew {i j : Slot} {h : ℕ} {now : ℤ} (he : e = .reserve h now)
      (hck : startContainerCheck s.table (s.req h) = .ok i) (hj : (s.table j).Live)
      (hdir : dir (safeStrcpy (s.req h).rootfs MAX_PATH_LEN) = dir (s.table j).rootfs) : False := by
    subst he
    rw [safeStrcpy_eq (n.terminated h).2.1] at hdir
    have hsame := hc (by rw [hck]; rfl) j hj hdir.symm
    exact (startContainerCheck_ok hck).2.2 j hj.1 hj.2 hsame
  rcases (step_slot hs i).live_cases w hi with ⟨h, now, he, hck, hroot⟩ | ⟨hi₀, hroot⟩ <;>
    rcases (step_slot hs j).live_cases w hj with ⟨h', now', he', hck', hroot'⟩ | ⟨hj₀, hroot'⟩
  · obtain ⟨rfl, -⟩ := Event.reserve.inj (he.symm.trans he')
    exact Except.ok.inj (hck.symm.trans hck')
  · exact (hnew he hck hj₀ (by rw [← hroot, hdir, hroot'])).elim
  · exact (hnew he' hck' hi₀ (by rw [← hroot', ← hdir, hroot])).elim
  · exact x i j hi₀ hj₀ (by rw [← hroot, hdir, hroot'])

/-- A start under another spelling ends the exclusivity. -/
theorem Exclusive.sameSpelling (x : Exclusive dir s') (n : Named s)
    (hs : Engine.step s e = some s') :
    SameSpelling dir s e := by
  cases e with
  | reserve h now =>
    intro hok j hj hdir
    obtain ⟨i, hck⟩ : ∃ i, startContainerCheck s.table (s.req h) = .ok i := by
      cases hck : startContainerCheck s.table (s.req h) with
      | error text => simp [hck, Except.isOk, Except.toBool] at hok
      | ok i => exact ⟨i, rfl⟩
    obtain rfl := step_reserve hs hck
    have hij : j ≠ i := by
      rintro rfl
      exact absurd (hj.1.symm.trans (startContainerCheck_ok hck).1) (by simp)
    have hslot : (s.reserved h i now).table i = (s.table i).reserve (s.req h) now :=
      Function.update_self _ _ _
    have hother : (s.reserved h i now).table j = s.table j := Function.update_of_ne hij _ _
    refine absurd (x j i (by rwa [hother]) (by rw [hslot]; exact ⟨rfl, rfl⟩) ?_) hij
    rw [hother, hslot, hdir]
    exact congrArg dir (safeStrcpy_eq (n.terminated h).2.1).symm
  | _ => trivial

/-- The conditions on the starts. -/
def StartsSpelledAlike (dir : CStr → D) (s : Engine) (e : Event) : Prop :=
  RequestTerminated s e ∧ SameSpelling dir s e

instance [DecidableEq D] (s : Engine) (e : Event) : Decidable (StartsSpelledAlike dir s e) :=
  inferInstanceAs (Decidable (_ ∧ _))

/-- Whatever directories the paths name : if no start gets past its checks with another spelling
of a live container's directory, then no two live containers have the same root directory; and
the first start that does so makes two. -/
theorem rootfs_exclusive (hr : Transition.Run step (StartsSpelledAlike dir) init s) :
    Exclusive dir s ∧ ∀ e s', step s e = some s' → (Exclusive dir s' ↔ SameSpelling dir s e) := by
  have hnamed {s} (hr : Transition.Run step (StartsSpelledAlike dir) init s) : Named s :=
    Named.of_run (hr.mono fun _ _ h => h.1)
  have hexcl : Exclusive dir s := by
    refine hr.invariant_of_reached (fun i j hi => ?_) ?_
    · simp [Container.Live, init, initContainers, Container.init] at hi
    · exact fun _ _ _ ht x hc hs => x.step (Wf.of_run ht) (hnamed ht) (step_effect hs) hc.2
  refine ⟨hexcl, fun e s' hs => ⟨fun x => x.sameSpelling (hnamed hr) hs, fun hc => ?_⟩⟩
  exact hexcl.step (Wf.of_run hr) (hnamed hr) (step_effect hs) hc

/-- The directory that a path names when `..` and links are taken as names. -/
def dirOf (cwd : List CStr) (path : CStr) : List CStr :=
  PathName.resolve 47 46 cwd path

/-- Two containers with two directories. -/
theorem rootfs_exclusive_two : ∃ s : Engine, (s.table 0).Live ∧ (s.table 1).Live ∧
    Exclusive (dirOf []) s := by
  obtain ⟨s, hr, h₀, h₁⟩ := Transition.exists_run_of_exec step (StartsSpelledAlike (dirOf [])) init
    (playClone 0 REQ_START "a" 7 ++ playPublish 0 ++ playClone 1 REQ_START "./b/" 8)
    (fun s => (s.table 0).Live ∧ (s.table 1).Live) (by decide)
  exact ⟨s, h₀, h₁, (rootfs_exclusive hr).1⟩

/-- Five spellings of `a`. -/
def spellings : List CStr :=
  ["a", "a/", "./a", ".//a", "././a"].map cstr

/-- They lead to the same directory from everywhere. -/
theorem dirOf_spellings (cwd : List CStr) {path : CStr} (h : path ∈ spellings) :
    dirOf cwd path = dirOf cwd [97] := by
  have hdot : dirOf cwd [46, 47, 97] = dirOf cwd [97] :=
    PathName.resolve_leading_dot (by decide) (by decide)
  have hmem : path = [97] ∨ path = [97, 47] ∨ path = [46, 47, 97] ∨ path = [46, 47, 47, 97] ∨
      path = [46, 47, 46, 47, 97] := by
    simpa [spellings, cstr] using h
  rcases hmem with rfl | rfl | rfl | rfl | rfl
  · rfl
  · exact PathName.resolve_trailing (p := [97]) (by decide)
  · exact hdot
  · exact (PathName.resolve_repeated (p := [46]) (q := [97])).trans hdot
  · exact (PathName.resolve_dot (p := [46]) (q := [97]) (by decide)).trans hdot

/-- Five live containers with five rootfs paths that lead to one directory. -/
theorem rootfs_spelled_differently : ∃ s : Engine,
    Transition.Run step RequestTerminated init s ∧
      (∀ i : Slot, (i : ℕ) < 5 → (s.table i).Live) ∧
      ∀ cwd, (∀ i : Slot, (i : ℕ) < 5 →
        dirOf cwd (s.table i).rootfs = dirOf cwd [97]) ∧ ¬Exclusive (dirOf cwd) s := by
  obtain ⟨s, hr, hs⟩ := Transition.exists_run_of_exec step RequestTerminated init
    ((List.range 5).flatMap fun h =>
      playClone h REQ_START (["a", "a/", "./a", ".//a", "././a"].getD h "") (7 + h) ++
        playPublish h)
    (fun s => ∀ i : Slot, (i : ℕ) < 5 → (s.table i).Live ∧ (s.table i).rootfs ∈ spellings)
    (by decide)
  refine ⟨s, hr, fun i hi => (hs i hi).1, fun cwd => ?_⟩
  have hdir (i : Slot) (hi : (i : ℕ) < 5) : dirOf cwd (s.table i).rootfs = dirOf cwd [97] :=
    dirOf_spellings cwd (hs i hi).2
  refine ⟨hdir, fun x => ?_⟩
  have hsame := x 0 1 (hs 0 (by decide)).1 (hs 1 (by decide)).1
    ((hdir 0 (by decide)).trans (hdir 1 (by decide)).symm)
  exact absurd hsame (by decide)

end Engine

end Jackfruit
