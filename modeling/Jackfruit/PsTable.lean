import Jackfruit.CommandLine
import Jackfruit.PsOutput

/-!
# Reading the list of containers

The message of `REQ_PS` is a table of text : the fields of a row stand between tabs, a row ends with
a newline. `readPs` takes it apart again. It is what a reader can do who knows nothing but the
message.

In every state that the supervisor reaches, the message reads back as the record of every used
slot, in the order of the slots, if and only if no id and no log file of a used slot has a tab or a
newline in it (`ps_reads_back_iff`). Nothing in the supervisor keeps them out : an id with a tab or
a newline makes a row that reads as something else.
-/

set_option linter.unusedSectionVars false

open TextTable

namespace Jackfruit

/-- What the list says of a container. -/
structure PsEntry where
  id : CStr
  pid : ℤ
  state : ContainerState
  exitCode : ℤ
  softMib : ℤ
  hardMib : ℤ
  niceValue : ℤ
  started : CStr
  logFile : CStr
  deriving DecidableEq

/-- The entry of a container. -/
def Container.psEntry (formatTime : ℤ → CStr) (c : Container) : PsEntry :=
  ⟨c.id, c.pid, c.state, c.exitCode, c.softMib, c.hardMib, c.niceValue,
    psTime formatTime c.startTime, c.logFile⟩

/-- The entries of the used slots, in the order of the slots. -/
def psEntries (formatTime : ℤ → CStr) (t : Table) : List PsEntry :=
  ((List.finRange MAX_CONTAINERS).filter fun i => (t i).used).map fun i =>
    (t i).psEntry formatTime

/-! ## The reader -/

/-- The state whose text this is. -/
def readState (text : CStr) : Option ContainerState :=
  [ContainerState.cleared, .starting, .running, .exited, .stopped, .killed].find? fun state =>
    state.text = text

/-- The entry of a row of nine fields. -/
def readEntry : List CStr → Option PsEntry
  | [id, pid, state, exitCode, softMib, hardMib, niceValue, started, logFile] =>
    (readState state).map fun state =>
      ⟨id, atoi pid, state, atoi exitCode, atoi softMib, atoi hardMib, atoi niceValue, started,
        logFile⟩
  | _ => none

/-- The entries of the rows behind the header. -/
def readPs (message : CStr) : Option (List PsEntry) :=
  (read TAB NEWLINE message).tail.mapM readEntry

/-! ## Numbers and states -/

/-- The byte of a digit is its character. -/
theorem toNat_digit {n : ℕ} {c : Char} (hc : c ∈ Nat.toDigits 10 n) :
    (UInt8.ofNat c.toNat).toNat = c.toNat ∧ isdigit (UInt8.ofNat c.toNat) = true := by
  obtain ⟨hlo, hhi⟩ := Char.isDigit_iff_toNat.mp
    (Nat.isDigit_of_mem_toDigits (by decide) (by decide) hc)
  change 48 ≤ c.toNat at hlo
  change c.toNat ≤ 57 at hhi
  have hnat : (UInt8.ofNat c.toNat).toNat = c.toNat := by
    rw [UInt8.toNat_ofNat']
    omega
  refine ⟨hnat, ?_⟩
  simp only [isdigit, Bool.and_eq_true, decide_eq_true_eq, UInt8.le_iff_toNat_le, hnat]
  exact ⟨hlo, hhi⟩

/-- The digits that `%d` prints. -/
def digits (n : ℕ) : CStr :=
  (Nat.toDigits 10 n).map fun c => UInt8.ofNat c.toNat

theorem isDigits_digits (n : ℕ) : IsDigits (digits n) := by
  refine ⟨by simp [digits], fun b hb => ?_⟩
  obtain ⟨c, hc, rfl⟩ := List.mem_map.mp hb
  exact (toNat_digit hc).2

theorem digitsValue_digits (n : ℕ) : digitsValue (digits n) = n := by
  have hfold (cs : List Char) (m : ℕ) (hcs : ∀ c ∈ cs, c ∈ Nat.toDigits 10 n) :
      (cs.map fun c => UInt8.ofNat c.toNat).foldl (fun m b => 10 * m + (b.toNat - 48)) m =
        Nat.ofDigitChars 10 cs m := by
    induction cs generalizing m with
    | nil => rw [List.map_nil, List.foldl_nil, Nat.ofDigitChars_nil]
    | cons c cs ih =>
      rw [List.map_cons, List.foldl_cons, ih _ fun c hc => hcs c (List.mem_cons_of_mem _ hc),
        Nat.ofDigitChars_cons, (toNat_digit (hcs c List.mem_cons_self)).1]
      rfl
  rw [digitsValue, digits, hfold _ _ fun _ hc => hc, Nat.ofDigitChars_ten_toDigits]

/-- Digits without a sign are a decimal integer. -/
theorem decimalValue_digits (n : ℕ) : decimalValue (digits n) = some (n : ℤ) := by
  obtain ⟨hne, hdigits⟩ := isDigits_digits n
  obtain ⟨b, rest, hcons⟩ := List.exists_cons_of_ne_nil hne
  have hb : isdigit b = true := hdigits b (hcons ▸ List.mem_cons_self)
  unfold decimalValue
  split
  · next heq =>
    rw [hcons] at heq
    obtain ⟨rfl, -⟩ := List.cons.inj heq
    exact absurd hb (by decide)
  · next heq =>
    rw [hcons] at heq
    obtain ⟨rfl, -⟩ := List.cons.inj heq
    exact absurd hb (by decide)
  · rw [if_pos (isDigits_digits n), digitsValue_digits]

theorem decimal_eq_digits (n : ℤ) :
    decimal n = if 0 ≤ n then digits n.toNat else 45 :: digits (-n).toNat :=
  decimal_eq n

/-- What `%d` prints is a decimal integer. -/
theorem decimalValue_decimal (n : ℤ) : decimalValue (decimal n) = some n := by
  rw [decimal_eq_digits]
  split_ifs with hn
  · rw [decimalValue_digits, Int.toNat_of_nonneg hn]
  · rw [decimalValue, if_pos (isDigits_digits _), digitsValue_digits,
      Int.toNat_of_nonneg (by omega), neg_neg]

/-- `atoi` reads what `%d` prints. -/
theorem atoi_decimal {n : ℤ} (hn : IsInt n) : atoi (decimal n) = n :=
  atoi_eq ⟨decimalValue_decimal n, hn⟩

theorem readState_text (state : ContainerState) : readState state.text = some state := by
  cases state <;> decide

/-- Digits and a sign are neither tabs nor newlines. -/
theorem plain_decimal (n : ℤ) : Plain TAB NEWLINE (decimal n) := by
  have hdigits (k : ℕ) : TAB ∉ digits k ∧ NEWLINE ∉ digits k :=
    ⟨fun h => absurd ((isDigits_digits k).2 _ h) (by decide),
      fun h => absurd ((isDigits_digits k).2 _ h) (by decide)⟩
  rw [decimal_eq_digits]
  split_ifs
  · exact hdigits _
  · exact ⟨List.not_mem_cons_of_ne_of_not_mem (by decide) (hdigits _).1,
      List.not_mem_cons_of_ne_of_not_mem (by decide) (hdigits _).2⟩

theorem plain_state (state : ContainerState) : Plain TAB NEWLINE state.text := by
  cases state <;> decide

/-! ## Rows -/

variable {formatTime : ℤ → CStr} {c : Container} {t : Table}

/-- The fields of a container are read back as its entry. -/
theorem readEntry_psFields (hc : c.Fits) :
    readEntry (psFields formatTime c) = some (c.psEntry formatTime) := by
  simp only [psFields, readEntry, readState_text, atoi_decimal hc.pid, atoi_decimal hc.exitCode,
    atoi_decimal hc.softMib, atoi_decimal hc.hardMib, atoi_decimal hc.niceValue, Option.map_some]
  rfl

/-- Neither the id nor the log file has a tab or a newline in it. -/
def Container.PlainNames (c : Container) : Prop :=
  Plain TAB NEWLINE c.id ∧ Plain TAB NEWLINE c.logFile

instance (c : Container) : Decidable c.PlainNames :=
  inferInstanceAs (Decidable (_ ∧ _))

/-- The times that `format_time_string` makes have no tab and no newline in them. -/
def TimePlain (formatTime : ℤ → CStr) : Prop :=
  ∀ t, Plain TAB NEWLINE (formatTime t)

theorem plain_psFields (ht : TimePlain formatTime) (hc : c.PlainNames) :
    ∀ field ∈ psFields formatTime c, Plain TAB NEWLINE field := by
  have htime : Plain TAB NEWLINE (psTime formatTime c.startTime) := by
    unfold psTime
    split_ifs
    · exact ht _
    · decide
  simp only [psFields, List.forall_mem_cons, List.not_mem_nil, false_imp_iff, implies_true,
    plain_decimal, plain_state, htime, hc.1, hc.2, and_self]

/-- The names in an entry that was read have no tab and no newline in them. -/
theorem plain_of_readEntry {row : List CStr} {entry : PsEntry}
    (hrow : ∀ field ∈ row, Plain TAB NEWLINE field) (h : readEntry row = some entry) :
    Plain TAB NEWLINE entry.id ∧ Plain TAB NEWLINE entry.logFile := by
  unfold readEntry at h
  split at h
  · obtain ⟨state, -, rfl⟩ := Option.map_eq_some_iff.mp h
    exact ⟨hrow _ (by simp), hrow _ (by simp)⟩
  · cases h

/-! ## The whole list -/

theorem exists_of_mem_mapM {α β : Type} {f : α → Option β} :
    ∀ {l : List α} {entries : List β} {b : β}, l.mapM f = some entries → b ∈ entries →
      ∃ a ∈ l, f a = some b
  | [], entries, b, h, hb => by
    rw [List.mapM_nil] at h
    cases h
    cases hb
  | a :: l, entries, b, h, hb => by
    rw [List.mapM_cons] at h
    obtain ⟨b', hb', h⟩ := Option.bind_eq_some_iff.mp h
    obtain ⟨entries', hl, h⟩ := Option.bind_eq_some_iff.mp h
    cases h
    rcases List.mem_cons.mp hb with rfl | hb
    · exact ⟨a, List.mem_cons_self, hb'⟩
    · exact (exists_of_mem_mapM hl hb).imp fun _ ha => ha.imp_left (List.mem_cons_of_mem _)

theorem mapM_eq_map {α β : Type} {f : α → Option β} {g : α → β} :
    ∀ {l : List α}, (∀ a ∈ l, f a = some (g a)) → l.mapM f = some (l.map g)
  | [], _ => rfl
  | a :: l, h => by
    rw [List.mapM_cons, h a List.mem_cons_self,
      mapM_eq_map fun b hb => h b (List.mem_cons_of_mem _ hb)]
    rfl

/-- The message of a table reads back as its entries if and only if the names are plain. -/
theorem readPs_iff (ht : TimePlain formatTime) (hfits : ∀ i, (t i).used = true → (t i).Fits) :
    readPs (psHeader ++ rowsOf formatTime t (List.finRange MAX_CONTAINERS)) =
        some (psEntries formatTime t) ↔
      ∀ i, (t i).used = true → (t i).PlainNames := by
  have hused {i : Slot} : i ∈ (List.finRange MAX_CONTAINERS).filter (fun i => (t i).used) ↔
      (t i).used = true := by
    simp
  rw [ps_print_eq]
  constructor
  · intro hread i hu
    -- Each name is a field of a row that was read, whatever the text was.
    obtain ⟨row, hrow, hentry⟩ := exists_of_mem_mapM hread
      (List.mem_map_of_mem (f := fun i => (t i).psEntry formatTime) (hused.mpr hu))
    exact plain_of_readEntry (fun field => plain_of_mem_read (List.mem_of_mem_tail hrow)) hentry
  · intro hnames
    rw [readPs, read_print (by decide), List.tail_cons, List.mapM_map]
    · exact mapM_eq_map fun i hi => readEntry_psFields (hfits i (hused.mp hi))
    · simp [psHeaderFields, psFields]
    · refine List.forall_mem_cons.mpr ⟨by decide, List.forall_mem_map.mpr fun i hi => ?_⟩
      exact plain_psFields ht (hnames i (hused.mp hi))

/-- In every state that the supervisor reaches, the message of `REQ_PS` reads back as the records of
the used slots, in the order of the slots, if and only if no id and no log file of a used slot has a
tab or a newline in it. -/
theorem ps_reads_back_iff (hfit : TimeFits formatTime) (hplain : TimePlain formatTime)
    {out : List UInt8} (hout : out.length = RESPONSE_MSG_LEN) {msg : ℕ → List UInt8} {s : Engine}
    (hr : Transition.Run Engine.step (Engine.ReadsMessages msg) Engine.init s) :
    ∃ p, buildPsOutput formatTime psSize s.table out = some p ∧
      (readPs (p.out.takeWhile fun b => b ≠ 0) = some (psEntries formatTime s.table) ↔
        ∀ i, (s.table i).used = true → (s.table i).PlainNames) := by
  have hfits i (hu : (s.table i).used = true) : (s.table i).Fits := Engine.fits_of_run hr hu
  obtain ⟨p, hp, -, -, hmessage⟩ := psComplete_of_fits hfit hfits hout
  exact ⟨p, hp, by rw [hmessage, readPs_iff hplain hfits]⟩

/-- The list of a container `a` reads back, the list of a container whose id has a newline in it
does not. -/
theorem ps_reads_back_example : ∃ (formatTime : ℤ → CStr) (s s' : Engine) (p p' : Printing.Printer),
    (s.table 0).id = cstr "a" ∧ (s'.table 0).id = cstr "a\n" ∧
      buildPsOutput formatTime psSize s.table (List.replicate RESPONSE_MSG_LEN 0) = some p ∧
      buildPsOutput formatTime psSize s'.table (List.replicate RESPONSE_MSG_LEN 0) = some p' ∧
      readPs (p.out.takeWhile fun b => b ≠ 0) = some (psEntries formatTime s.table) ∧
      readPs (p'.out.takeWhile fun b => b ≠ 0) ≠ some (psEntries formatTime s'.table) := by
  let msg (id : CStr) (_ : ℕ) := encodeRequest ⟨REQ_START, id, cstr "r", cstr "true", 40, 64, 0⟩
  let events (id : CStr) : List Event :=
    [.loopTest, .accept 0, .recv 0 (decodeRequest (msg id 0)), .reserve 0 1700000000]
  have hts : (cstr "2024-01-01 00:00:00").length < TIME_LEN ∧
      CStr.NulFree (cstr "2024-01-01 00:00:00") := by decide
  have hplain : Plain TAB NEWLINE (cstr "2024-01-01 00:00:00") := by decide
  obtain ⟨s, hr, hid, hnames⟩ := Transition.exists_run_of_exec Engine.step
    (Engine.ReadsMessages (msg (cstr "a"))) Engine.init (events (cstr "a"))
    (fun s => (s.table 0).id = cstr "a" ∧ ∀ i, (s.table i).used = true → (s.table i).PlainNames)
    (by decide +kernel)
  obtain ⟨s', hr', hid', hu', hname'⟩ := Transition.exists_run_of_exec Engine.step
    (Engine.ReadsMessages (msg (cstr "a\n"))) Engine.init (events (cstr "a\n"))
    (fun s => (s.table 0).id = cstr "a\n" ∧ (s.table 0).used = true ∧ ¬(s.table 0).PlainNames)
    (by decide +kernel)
  obtain ⟨p, hp, hiff⟩ := ps_reads_back_iff (fun _ => hts) (fun _ => hplain)
    (List.length_replicate ..) hr
  obtain ⟨p', hp', hiff'⟩ := ps_reads_back_iff (fun _ => hts) (fun _ => hplain)
    (List.length_replicate ..) hr'
  exact ⟨_, s, s', p, p', hid, hid', hp, hp', hiff.mpr hnames,
    fun hread => hname' (hiff'.mp hread 0 hu')⟩

end Jackfruit
