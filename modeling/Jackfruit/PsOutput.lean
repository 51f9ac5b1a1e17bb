import Jackfruit.Printing
import Jackfruit.Records
import Jackfruit.TextTable
import Jackfruit.Wire

/-!
# The list of containers

`build_ps_output` prints a header and a row for every used slot into the message of a response. The
loop looks at `used` only after it has printed a row, so it is not the check that keeps it inside
the buffer : with every field at its longest, the header and ten rows are shorter than the buffer
(`ps_output_complete`). What is printed is a table of text : the fields of a row stand between tabs,
a row ends with a newline.
-/

set_option linter.unusedSectionVars false

open Printing TextTable

namespace Jackfruit

/-- The size of the text of a state, with its NUL. -/
def MAX_STATE_LEN : ℕ := 24

/-- `sizeof(ts)`. -/
def TIME_LEN : ℕ := 32

/-- `sizeof(resp.message)` as `build_ps_output` gets it. -/
def psSize : UInt64 :=
  UInt64.ofNat RESPONSE_MSG_LEN

/-- The first line of the list. -/
def psHeader : CStr :=
  cstr "ID\tPID\tSTATE\tEXIT\tSOFT\tHARD\tNICE\tSTARTED\t\t\tLOG FILE\n"

/-- What is in `ts`, when `format_time_string` makes `formatTime t` of `t`. -/
def psTime (formatTime : ℤ → CStr) (t : ℤ) : CStr :=
  if t ≠ 0 then formatTime t else cstr "-"

/-- The row of a container. -/
def psRow (formatTime : ℤ → CStr) (c : Container) : CStr :=
  c.id ++ cstr "\t" ++ decimal c.pid ++ cstr "\t" ++ c.state.text ++ cstr "\t" ++
    decimal c.exitCode ++ cstr "\t" ++ decimal c.softMib ++ cstr "\t" ++ decimal c.hardMib ++
    cstr "\t" ++ decimal c.niceValue ++ cstr "\t" ++ psTime formatTime c.startTime ++
    cstr "\t" ++ c.logFile ++ cstr "\n"

/-- What stands between two fields. -/
def TAB : UInt8 := 9

/-- The end of a row. -/
def NEWLINE : UInt8 := 10

/-- The fields of the row of a container. -/
def psFields (formatTime : ℤ → CStr) (c : Container) : List CStr :=
  [c.id, decimal c.pid, c.state.text, decimal c.exitCode, decimal c.softMib, decimal c.hardMib,
    decimal c.niceValue, psTime formatTime c.startTime, c.logFile]

/-- The fields of the header; two of them are empty. -/
def psHeaderFields : List CStr :=
  [cstr "ID", cstr "PID", cstr "STATE", cstr "EXIT", cstr "SOFT", cstr "HARD", cstr "NICE",
    cstr "STARTED", [], [], cstr "LOG FILE"]

/-- The loop of `build_ps_output` over these slots. -/
def psRows (formatTime : ℤ → CStr) (outSize : UInt64) (t : Table) :
    List Slot → Printer → Option Printer
  | [], p => some p
  | i :: is, p =>
    if (t i).used then
      (p.print outSize (psRow formatTime (t i))).bind fun p =>
        if outSize ≤ p.used then some p else psRows formatTime outSize t is p
    else psRows formatTime outSize t is p

/-- `build_ps_output`. -/
def buildPsOutput (formatTime : ℤ → CStr) (outSize : UInt64) (t : Table) (out : List UInt8) :
    Option Printer :=
  (({ out := out, used := 0, calls := [] } : Printer).print outSize psHeader).bind
    (psRows formatTime outSize t (List.finRange MAX_CONTAINERS))

/-! ## Numbers -/

/-- The digits of a number, with a sign in front if it is negative. -/
theorem decimal_eq (n : ℤ) : decimal n =
    if 0 ≤ n then (Nat.toDigits 10 n.toNat).map fun c => UInt8.ofNat c.toNat
    else 45 :: (Nat.toDigits 10 (-n).toNat).map fun c => UInt8.ofNat c.toNat := by
  rw [decimal, cstr, Int.toString_eq_repr, Int.repr_eq_if]
  split_ifs
  · rw [Nat.toList_repr]
  · rw [String.toList_append, Nat.toList_repr, List.map_append]
    rfl

theorem length_decimal {n : ℤ} (hn : IsInt n) : (decimal n).length ≤ 11 := by
  have hdigits {k : ℕ} (hk : k ≤ 2 ^ 31) : (Nat.toDigits 10 k).length ≤ 10 :=
    (Nat.length_toDigits_le_iff (by decide) (by decide)).mpr (by omega)
  obtain ⟨hlo, hhi⟩ := hn
  rw [decimal_eq]
  split_ifs
  · rw [List.length_map]
    exact (hdigits (by omega)).trans (by decide)
  · rw [List.length_cons, List.length_map]
    exact Nat.succ_le_succ (hdigits (by omega))

theorem nulFree_digits (k : ℕ) :
    CStr.NulFree ((Nat.toDigits 10 k).map fun c => UInt8.ofNat c.toNat) := by
  intro b hb
  obtain ⟨c, hc, rfl⟩ := List.mem_map.mp hb
  obtain ⟨hlo, hhi⟩ := Char.isDigit_iff_toNat.mp
    (Nat.isDigit_of_mem_toDigits (by decide) (by decide) hc)
  intro hzero
  have hnat := congrArg UInt8.toNat hzero
  rw [UInt8.toNat_ofNat'] at hnat
  change 48 ≤ c.toNat at hlo
  change c.toNat ≤ 57 at hhi
  simp at hnat
  omega

theorem nulFree_decimal (n : ℤ) : (decimal n).NulFree := by
  rw [decimal_eq]
  split_ifs
  · exact nulFree_digits _
  · intro b hb
    rcases List.mem_cons.mp hb with rfl | hb
    · decide
    · exact nulFree_digits _ b hb

/-! ## Rows -/

/-- The fields hold what fits them. -/
structure Container.Fits (c : Container) : Prop where
  id : c.id.length < MAX_ID_LEN
  idNul : c.id.NulFree
  logFile : c.logFile.length < MAX_PATH_LEN
  logFileNul : c.logFile.NulFree
  pid : IsInt c.pid
  exitCode : IsInt c.exitCode
  softMib : IsInt c.softMib
  hardMib : IsInt c.hardMib
  niceValue : IsInt c.niceValue

/-- The times that `format_time_string` makes fit `ts`. -/
def TimeFits (formatTime : ℤ → CStr) : Prop :=
  ∀ t, (formatTime t).length < TIME_LEN ∧ (formatTime t).NulFree

variable {formatTime : ℤ → CStr} {c : Container} {t : Table}

theorem CStr.nulFree_append {a b : CStr} :
    CStr.NulFree (a ++ b) ↔ a.NulFree ∧ b.NulFree :=
  List.forall_mem_append

theorem ContainerState.text_fits (state : ContainerState) :
    state.text.length < MAX_STATE_LEN ∧ state.text.NulFree := by
  cases state <;> decide

theorem TimeFits.psTime (ht : TimeFits formatTime) (t : ℤ) :
    (psTime formatTime t).length < TIME_LEN ∧ (Jackfruit.psTime formatTime t).NulFree := by
  unfold Jackfruit.psTime
  split_ifs
  · exact ht t
  · decide

/-- A row with every field at its longest. -/
theorem length_psRow (ht : TimeFits formatTime) (hc : c.Fits) :
    (psRow formatTime c).length ≤ 404 := by
  have htab : (cstr "\t").length = 1 := by decide
  have hnl : (cstr "\n").length = 1 := by decide
  have hid := hc.id
  have hlog := hc.logFile
  have hpid := length_decimal hc.pid
  have hexit := length_decimal hc.exitCode
  have hsoft := length_decimal hc.softMib
  have hhard := length_decimal hc.hardMib
  have hnice := length_decimal hc.niceValue
  have hstate := c.state.text_fits.1
  have htime := (ht.psTime c.startTime).1
  simp only [MAX_ID_LEN, MAX_PATH_LEN, MAX_STATE_LEN, TIME_LEN] at hid hlog hstate htime
  unfold psRow
  simp only [List.length_append, htab, hnl]
  omega

theorem nulFree_psRow (ht : TimeFits formatTime) (hc : c.Fits) :
    CStr.NulFree (psRow formatTime c) := by
  have htab : CStr.NulFree (cstr "\t") := by decide
  have hnl : CStr.NulFree (cstr "\n") := by decide
  have htime := (ht.psTime c.startTime).2
  unfold psRow
  simp only [CStr.nulFree_append, htab, hnl, hc.idNul, hc.logFileNul, htime,
    c.state.text_fits.2, nulFree_decimal, and_self]

/-! ## The whole list -/

/-- The rows of the used slots among these, in order. -/
def rowsOf (formatTime : ℤ → CStr) (t : Table) (is : List Slot) : CStr :=
  (is.filter fun i => (t i).used).flatMap fun i => psRow formatTime (t i)

theorem psHeader_eq : psHeader = line TAB NEWLINE psHeaderFields := by
  decide

theorem psRow_eq : psRow formatTime c = line TAB NEWLINE (psFields formatTime c) := by
  have htab : cstr "\t" = [TAB] := by decide
  have hnl : cstr "\n" = [NEWLINE] := by decide
  simp only [psRow, line, psFields, htab, hnl, List.intercalate_cons_cons,
    List.intercalate_singleton, List.append_assoc]

/-- The header and the rows are the lines of a table. -/
theorem ps_print_eq : psHeader ++ rowsOf formatTime t (List.finRange MAX_CONTAINERS) =
    print TAB NEWLINE (psHeaderFields ::
      ((List.finRange MAX_CONTAINERS).filter fun i => (t i).used).map fun i =>
        psFields formatTime (t i)) := by
  rw [print, List.flatMap_cons, ← psHeader_eq, rowsOf, List.flatMap_map]
  simp only [psRow_eq]

/-- While there is room for a row for each slot left, the loop prints them all. -/
theorem psRows_holds {outSize : UInt64} (ht : TimeFits formatTime)
    (hfits : ∀ i, (t i).used = true → (t i).Fits) :
    ∀ (is : List Slot) {p : Printer} {done : CStr}, Holds outSize p done →
      done.length + 404 * is.length < outSize.toNat →
      ∃ q, psRows formatTime outSize t is p = some q ∧
        Holds outSize q (done ++ rowsOf formatTime t is)
  | [], p, done, hp, _ =>
    ⟨p, rfl, by rwa [rowsOf, List.filter_nil, List.flatMap_nil, List.append_nil]⟩
  | i :: is, p, done, hp, hroom => by
    rw [List.length_cons] at hroom
    unfold psRows
    by_cases hu : (t i).used = true
    · have hlen := length_psRow ht (hfits i hu)
      obtain ⟨q, hprint, hq⟩ := hp.print (psRow formatTime (t i)) (by omega)
      have hbreak : ¬outSize ≤ q.used := by
        rw [UInt64.le_iff_toNat_le, hq.used]
        exact not_le.mpr hq.room
      obtain ⟨r, hrows, hr⟩ := psRows_holds ht hfits is hq (by
        rw [List.length_append]
        omega)
      refine ⟨r, by rw [if_pos hu, hprint, Option.bind_some, if_neg hbreak, hrows], ?_⟩
      rwa [rowsOf, List.filter_cons_of_pos (by simpa using hu), List.flatMap_cons, ← rowsOf,
        ← List.append_assoc]
    · obtain ⟨r, hrows, hr⟩ := psRows_holds ht hfits is hp (by omega)
      refine ⟨r, by rw [if_neg hu, hrows], ?_⟩
      rwa [rowsOf, List.filter_cons_of_neg (by simpa using hu), ← rowsOf]

/-- In every call of `snprintf` the size has not wrapped and the text is not cut, nothing is written
outside the buffer, and the message is the header with the whole rows of the used slots, in the
order of the slots. -/
def PsComplete (formatTime : ℤ → CStr) (t : Table) (out : List UInt8) : Prop :=
  ∃ p, buildPsOutput formatTime psSize t out = some p ∧ p.out.length = RESPONSE_MSG_LEN ∧
    (∀ c ∈ p.calls, c.Fits psSize) ∧
    p.out.takeWhile (fun b => b ≠ 0) =
      psHeader ++ rowsOf formatTime t (List.finRange MAX_CONTAINERS)

theorem psComplete_of_fits (ht : TimeFits formatTime)
    (hfits : ∀ i, (t i).used = true → (t i).Fits) {out : List UInt8}
    (hout : out.length = RESPONSE_MSG_LEN) : PsComplete formatTime t out := by
  have hsize : psSize.toNat = RESPONSE_MSG_LEN := by decide
  obtain ⟨q, hprint, hq⟩ := (holds_nil psSize (hout.trans hsize.symm) (by decide)).print psHeader
    (by decide)
  obtain ⟨r, hrows, hr⟩ := psRows_holds ht hfits (List.finRange MAX_CONTAINERS) hq (by decide)
  refine ⟨r, by rw [buildPsOutput, hprint, Option.bind_some, hrows], hr.length.trans hsize,
    hr.calls, hr.contents (by simp [psHeader, cstr]) ?_⟩
  rw [List.nil_append]
  intro b hb
  rcases List.mem_append.mp hb with hb | hb
  · exact (by decide : CStr.NulFree psHeader) b hb
  · obtain ⟨i, hi, hb⟩ := List.mem_flatMap.mp hb
    exact nulFree_psRow ht (hfits i (by simpa using (List.mem_filter.mp hi).2)) b hb

/-! ## The tables that arise -/

theorem reapExitCode_isInt (status : ℕ) : IsInt (reapExitCode status) := by
  unfold reapExitCode wexitstatus wtermsig
  split_ifs <;> constructor <;> omega

theorem nulFree_logFileOf {id : CStr} (hid : id.NulFree) : (logFileOf id).NulFree := by
  have hdir : CStr.NulFree (cstr "logs/") := by decide
  have hext : CStr.NulFree (cstr ".log") := by decide
  simp only [logFileOf, CStr.nulFree_append, hdir, hid, hext, and_self]

theorem decodeRequest_nulFree (msg : List UInt8) : (decodeRequest msg).NulFree := by
  have htext (offset : ℕ) : (decodeString msg offset).NulFree := fun b hb => by
    simpa using List.mem_takeWhile_imp hb
  exact ⟨htext _, htext _, htext _⟩

namespace Engine

variable {s : Engine} {i : Slot} {h : ℕ} {msg : ℕ → List UInt8}

/-- The request of `h` is the message `msg h`, and a pid is an `int`. -/
def ReadsMessages (msg : ℕ → List UInt8) (_ : Engine) : Event → Prop
  | .recv h req => req = decodeRequest (msg h)
  | .clone _ (.ok pid) => IsInt pid
  | _ => True

instance (s : Engine) (e : Event) : Decidable (ReadsMessages msg s e) := by
  rcases e <;> (try casesm* Except _ _) <;> dsimp only [ReadsMessages] <;> infer_instance

theorem exitCode_of_run {C : Engine → Event → Prop} (hr : Transition.Run Engine.step C init s)
    (i : Slot) : IsInt (s.table i).exitCode := by
  refine hr.invariant (I := fun t => IsInt (t.table i).exitCode)
    (by decide : IsInt (Container.init).exitCode) fun t e u hexit _ hs => ?_
  have hslot := step_slot (step_effect hs) i
  generalize u.table i = c at hslot
  cases hslot with
  | reserve => exact (by decide : IsInt (-1))
  | reap h pid status => exact reapExitCode_isInt status
  | _ => exact hexit

theorem childPid_of_run (hr : Transition.Run Engine.step (ReadsMessages msg) init s) {c : Child}
    (hc : s.child h = some c) : IsInt c.pid := by
  refine hr.invariant (I := fun t => ∀ c, t.child h = some c → IsInt c.pid)
    (fun c hc => by cases hc) (fun t e u ih hwire hs c hc => ?_) c hc
  have hchild := step_child (step_effect hs) h
  rw [hc] at hchild
  rcases hchild.pid_cases with ⟨c₀, hc₀, hp⟩ | rfl
  · exact hp ▸ ih c₀ hc₀
  · exact hwire

/-- In every reachable state the fields of the used slots hold what fits them. -/
theorem fits_of_run (hr : Transition.Run Engine.step (ReadsMessages msg) init s)
    (hu : (s.table i).used = true) : (s.table i).Fits := by
  have w := Wf.of_run hr
  obtain ⟨h, ho⟩ := (w.used_iff i).mp hu
  have hrec := records_of_run hr i h ho
  obtain ⟨hreq, -⟩ := owner_received (P := fun h req => req = decodeRequest (msg h)) hr
    (fun _ _ _ hc => hc) ho
  have hnul := decodeRequest_nulFree (msg h)
  have hints := decodeRequest_ints (msg h)
  rw [← hreq] at hnul hints
  have hpid : IsInt (s.table i).pid := by
    rcases w.owned i h ho with hres | ⟨-, -, -, c, hc, hp⟩
    · rw [(w.reserved h i hres).2.2]
      decide
    · exact hp ▸ childPid_of_run hr hc
  refine ⟨?_, ?_, ?_, ?_, hpid, exitCode_of_run hr i, ?_, ?_, ?_⟩
  · exact hrec.id ▸ length_snprintf_lt _ (by decide)
  · exact hrec.id ▸ hnul.1.take _
  · exact hrec.logFile ▸ length_snprintf_lt _ (by decide)
  · exact hrec.logFile ▸ (nulFree_logFileOf hnul.1).take _
  · exact hrec.softMib ▸ hints.2.1
  · exact hrec.hardMib ▸ hints.2.2.1
  · exact hrec.niceValue ▸ hints.2.2.2

end Engine

/-- For every table whose used slots hold what fits their fields, and so in every reachable state,
the list is complete : its lines are the header and, for each used slot, a row with the id, the pid,
the state, the exit code, the two limits, the nice value, the time and the log file. -/
theorem ps_output_complete (ht : TimeFits formatTime) {out : List UInt8}
    (hout : out.length = RESPONSE_MSG_LEN) :
    (∀ t : Table, (∀ i, (t i).used = true → (t i).Fits) → PsComplete formatTime t out) ∧
      (∀ msg s, Transition.Run Engine.step (Engine.ReadsMessages msg) Engine.init s →
        PsComplete formatTime s.table out) ∧
      ∀ t : Table, psHeader ++ rowsOf formatTime t (List.finRange MAX_CONTAINERS) =
        print TAB NEWLINE (psHeaderFields ::
          ((List.finRange MAX_CONTAINERS).filter fun i => (t i).used).map fun i =>
            psFields formatTime (t i)) :=
  ⟨fun _ hfits => psComplete_of_fits ht hfits hout,
    fun _ _ hr => psComplete_of_fits ht (fun _ hu => Engine.fits_of_run hr hu) hout,
    fun _ => ps_print_eq⟩

/-- The list of a table with one container. -/
theorem ps_output_complete_example : ∃ s : Engine, (s.table 0).used = true ∧
    PsComplete (fun _ => cstr "2024-01-01 00:00:00") s.table
      (List.replicate RESPONSE_MSG_LEN 0) := by
  let msg (_ : ℕ) := encodeRequest ⟨REQ_START, cstr "a", cstr "r", cstr "true", 40, 64, 0⟩
  obtain ⟨s, hr, hu⟩ := Transition.exists_run_of_exec Engine.step (Engine.ReadsMessages msg)
    Engine.init [.loopTest, .accept 0, .recv 0 (decodeRequest (msg 0)), .reserve 0 1700000000]
    (fun s => (s.table 0).used = true) (by decide +kernel)
  have hts : (cstr "2024-01-01 00:00:00").length < TIME_LEN ∧
      CStr.NulFree (cstr "2024-01-01 00:00:00") := by decide
  exact ⟨s, hu, (ps_output_complete (fun _ => hts) (List.length_replicate ..)).2.1 msg s hr⟩

end Jackfruit
