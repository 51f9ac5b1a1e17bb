import Jackfruit.Container
import Mathlib.Data.List.TakeWhile

/-!
# The command line

`parse_optional_flags` reads pairs of a flag and a value from the end of a command line. It takes
every word that stands where a value should, since `atoi` makes a number of any text : what does not
begin with digits is `0`, what follows the digits is dropped, and what does not fit is cut off.

So it accepts exactly the flags of its grammar with integers as their values if and only if no other
word stands in the place of a value (`parse_optional_flags_exact_iff`).
-/

set_option linter.unusedSectionVars false

namespace Jackfruit

/-! ## Numbers -/

/-- `isspace`. -/
def isspace (b : UInt8) : Bool :=
  b = 32 || 9 ≤ b && b ≤ 13

/-- `isdigit`. -/
def isdigit (b : UInt8) : Bool :=
  48 ≤ b && b ≤ 57

/-- The number that digits stand for. -/
def digitsValue (digits : CStr) : ℕ :=
  digits.foldl (fun n b => 10 * n + (b.toNat - 48)) 0

/-- `strtol(s, NULL, 10)`, which stays at the ends of the range of a `long`. -/
def strtol (s : CStr) : ℤ :=
  let value : ℤ :=
    match s.dropWhile isspace with
    | 45 :: digits => -(digitsValue (digits.takeWhile isdigit) : ℤ)
    | 43 :: digits => digitsValue (digits.takeWhile isdigit)
    | digits => digitsValue (digits.takeWhile isdigit)
  max (-2 ^ 63) (min (2 ^ 63 - 1) value)

/-- `atoi` : the `long` that `strtol` returns, as an `int`. -/
def atoi (s : CStr) : ℤ :=
  (BitVec.ofInt 32 (strtol s)).toInt

/-- One digit or more. -/
def IsDigits (s : CStr) : Prop :=
  s ≠ [] ∧ ∀ b ∈ s, isdigit b = true

instance (s : CStr) : Decidable (IsDigits s) :=
  inferInstanceAs (Decidable (_ ∧ _))

/-- The value of an optionally signed decimal integer. -/
def decimalValue : CStr → Option ℤ
  | 45 :: digits => if IsDigits digits then some (-(digitsValue digits : ℤ)) else none
  | 43 :: digits => if IsDigits digits then some (digitsValue digits) else none
  | digits => if IsDigits digits then some (digitsValue digits) else none

/-- The text of an `int`. -/
def IntText (s : CStr) (n : ℤ) : Prop :=
  decimalValue s = some n ∧ IsInt n

instance (s : CStr) (n : ℤ) : Decidable (IntText s n) :=
  inferInstanceAs (Decidable (_ ∧ _))

theorem takeWhile_isdigit {s : CStr} (hs : IsDigits s) : s.takeWhile isdigit = s :=
  List.takeWhile_eq_self_iff.mpr hs.2

theorem isspace_of_isdigit {b : UInt8} (hb : isdigit b = true) : isspace b = false := by
  simp only [isdigit, isspace, Bool.and_eq_true, decide_eq_true_eq, UInt8.le_iff_toNat_le,
    Bool.or_eq_false_iff, Bool.and_eq_false_iff, decide_eq_false_iff_not] at hb ⊢
  refine ⟨?_, Or.inr ?_⟩
  · rintro rfl
    exact absurd hb.1 (by decide)
  · exact fun h => absurd (hb.1.trans h) (by decide)

/-- A number does not begin with a space. -/
theorem dropWhile_isspace {s : CStr} {n : ℤ} (hs : decimalValue s = some n) :
    s.dropWhile isspace = s := by
  unfold decimalValue at hs
  split at hs
  · rfl
  · rfl
  · split_ifs at hs with hdigits
    obtain ⟨b, rest, rfl⟩ := List.exists_cons_of_ne_nil hdigits.1
    have hb := isspace_of_isdigit (hdigits.2 b List.mem_cons_self)
    exact List.dropWhile_cons_of_neg (by simp [hb])

/-- `strtol` reads a decimal integer, up to the range of a `long`. -/
theorem strtol_eq {s : CStr} {n : ℤ} (hs : decimalValue s = some n) :
    strtol s = max (-2 ^ 63) (min (2 ^ 63 - 1) n) := by
  rw [strtol, dropWhile_isspace hs]
  unfold decimalValue at hs
  split at hs <;> split_ifs at hs with hdigits <;> obtain rfl := Option.some.inj hs <;>
    simp only [takeWhile_isdigit hdigits]

/-- `atoi` reads the text of an `int`. -/
theorem atoi_eq {s : CStr} {n : ℤ} (hs : IntText s n) : atoi s = n := by
  obtain ⟨hvalue, hlo, hhi⟩ := hs
  have hlong : strtol s = n := by
    rw [strtol_eq hvalue]
    omega
  rw [atoi, hlong, BitVec.toInt_ofInt]
  exact Int.bmod_eq_of_le (by omega) (by omega)

/-! ## Flags -/

/-- The flags of `parse_optional_flags`. -/
inductive OptionalFlag
  | softMib
  | hardMib
  | nice
  deriving DecidableEq

/-- The comparisons of a word with the flags, in the order of the source. -/
def optionalFlag (arg : CStr) : Option OptionalFlag :=
  if arg = cstr "--soft-mib" then some .softMib
  else if arg = cstr "--hard-mib" then some .hardMib
  else if arg = cstr "--nice" then some .nice
  else none

/-- The field that the branch of a flag sets. -/
def OptionalFlag.set (req : Request) (n : ℤ) : OptionalFlag → Request
  | softMib => { req with softMib := n }
  | hardMib => { req with hardMib := n }
  | nice => { req with niceValue := n }

/-- The loop of `parse_optional_flags` with these words left : its result and the request. -/
def parseFlagsFrom : List CStr → Request → ℤ × Request
  | [], req => (0, req)
  | arg :: args, req =>
    match optionalFlag arg with
    | none => (-1, req)
    | some f =>
      match args with
      | [] => (-1, req)
      | value :: args => parseFlagsFrom args (f.set req (atoi value))

/-- `parse_optional_flags`. -/
def parseOptionalFlags (argv : List CStr) (startIndex : ℕ) (req : Request) : ℤ × Request :=
  parseFlagsFrom (argv.drop startIndex) req

namespace OptionalFlag

/-- The word of the flag. -/
def text : OptionalFlag → CStr
  | softMib => cstr "--soft-mib"
  | hardMib => cstr "--hard-mib"
  | nice => cstr "--nice"

/-- The value in the last pair for the flag. -/
def last (f : OptionalFlag) (pairs : List (OptionalFlag × ℤ)) (previous : ℤ) : ℤ :=
  (((pairs.filter fun p => p.1 = f).getLast?).map Prod.snd).getD previous

theorem optionalFlag_text (f : OptionalFlag) : optionalFlag f.text = some f := by
  cases f <;> decide

theorem text_of_optionalFlag {arg : CStr} {f : OptionalFlag} (h : optionalFlag arg = some f) :
    arg = f.text := by
  unfold optionalFlag at h
  split_ifs at h with hsoft hhard hnice <;> obtain rfl := Option.some.inj h
  · exact hsoft
  · exact hhard
  · exact hnice

theorem last_cons (f : OptionalFlag) (p : OptionalFlag × ℤ) (pairs : List (OptionalFlag × ℤ))
    (previous : ℤ) :
    f.last (p :: pairs) previous = f.last pairs (if p.1 = f then p.2 else previous) := by
  unfold last
  by_cases hp : p.1 = f
  · rw [List.filter_cons_of_pos (by simpa using hp), List.getLast?_cons, if_pos hp]
    cases (pairs.filter fun p => p.1 = f).getLast? <;> rfl
  · rw [List.filter_cons_of_neg (by simpa using hp), if_neg hp]

end OptionalFlag

/-- The words of the pairs. -/
def flagWords (pairs : List (OptionalFlag × CStr)) : List CStr :=
  pairs.flatMap fun p => [p.1.text, p.2]

/-- The pairs set their fields in turn. -/
def setFlags (pairs : List (OptionalFlag × ℤ)) (req : Request) : Request :=
  pairs.foldl (fun req p => p.1.set req p.2) req

/-- The grammar of the flags : the words are pairs of a flag and the text of an `int`. -/
inductive FlagPairs : List CStr → List (OptionalFlag × ℤ) → Prop
  | nil : FlagPairs [] []
  | cons (f : OptionalFlag) (value : CStr) (n : ℤ) (args : List CStr)
      (pairs : List (OptionalFlag × ℤ)) : IntText value n → FlagPairs args pairs →
      FlagPairs (f.text :: value :: args) ((f, n) :: pairs)

variable {args : List CStr} {req : Request}

theorem parseFlagsFrom_flag (f : OptionalFlag) (value : CStr) :
    parseFlagsFrom (f.text :: value :: args) req =
      parseFlagsFrom args (f.set req (atoi value)) := by
  rw [parseFlagsFrom, f.optionalFlag_text]

/-- Only pairs of a flag and a word are taken. -/
theorem parseFlagsFrom_eq_zero : ∀ {args : List CStr} {req : Request},
    (parseFlagsFrom args req).1 = 0 → ∃ pairs, args = flagWords pairs
  | [], _, _ => ⟨[], rfl⟩
  | [arg], req, h => by
    rw [parseFlagsFrom] at h
    cases harg : optionalFlag arg <;> simp [harg] at h
  | arg :: value :: args, req, h => by
    rw [parseFlagsFrom] at h
    cases harg : optionalFlag arg with
    | none => simp [harg] at h
    | some f =>
      simp only [harg] at h
      obtain ⟨pairs, rfl⟩ := parseFlagsFrom_eq_zero h
      exact ⟨(f, value) :: pairs, by rw [OptionalFlag.text_of_optionalFlag harg]; rfl⟩

/-- Every pair of a flag and a word is taken. -/
theorem parseFlagsFrom_flagWords : ∀ (pairs : List (OptionalFlag × CStr)) (req : Request),
    parseFlagsFrom (flagWords pairs) req =
      (0, setFlags (pairs.map fun p => (p.1, atoi p.2)) req)
  | [], _ => rfl
  | (f, value) :: pairs, req => by
    have hwords : flagWords ((f, value) :: pairs) = f.text :: value :: flagWords pairs := rfl
    rw [hwords, parseFlagsFrom_flag, parseFlagsFrom_flagWords]
    rfl

/-- Every field has the last value that was set. -/
theorem setFlags_eq : ∀ (pairs : List (OptionalFlag × ℤ)) (req : Request),
    setFlags pairs req = { req with
      softMib := OptionalFlag.softMib.last pairs req.softMib
      hardMib := OptionalFlag.hardMib.last pairs req.hardMib
      niceValue := OptionalFlag.nice.last pairs req.niceValue }
  | [], _ => rfl
  | (f, n) :: pairs, req => by
    rw [show setFlags ((f, n) :: pairs) req = setFlags pairs (f.set req n) from rfl, setFlags_eq]
    simp only [OptionalFlag.last_cons]
    cases f <;> rfl

theorem flagWords_inj : ∀ {words words' : List (OptionalFlag × CStr)},
    flagWords words = flagWords words' → words = words'
  | [], [], _ => rfl
  | [], _ :: _, h => nomatch h
  | _ :: _, [], h => nomatch h
  | (f, value) :: words, (g, value') :: words', h => by
    obtain ⟨htext, htail⟩ := List.cons.inj h
    obtain ⟨rfl, hwords⟩ := List.cons.inj htail
    have hflag := f.optionalFlag_text
    rw [htext, g.optionalFlag_text] at hflag
    obtain rfl := Option.some.inj hflag
    rw [flagWords_inj hwords]

/-- The words of the grammar are pairs of a flag and the text of an `int`, which `atoi` reads. -/
theorem FlagPairs.words {pairs : List (OptionalFlag × ℤ)} (h : FlagPairs args pairs) :
    ∃ words : List (OptionalFlag × CStr), args = flagWords words ∧
      pairs = words.map (fun p => (p.1, atoi p.2)) ∧ ∀ p ∈ words, ∃ n, IntText p.2 n := by
  induction h with
  | nil => exact ⟨[], rfl, rfl, by simp⟩
  | cons f value n args pairs hvalue _ ih =>
    obtain ⟨words, rfl, rfl, hwords⟩ := ih
    refine ⟨(f, value) :: words, rfl, ?_, ?_⟩
    · rw [List.map_cons, atoi_eq hvalue]
    · intro p hp
      rcases List.mem_cons.mp hp with rfl | hp
      · exact ⟨n, hvalue⟩
      · exact hwords p hp

theorem flagPairs_of_words : ∀ {words : List (OptionalFlag × CStr)},
    (∀ p ∈ words, ∃ n, IntText p.2 n) →
    FlagPairs (flagWords words) (words.map fun p => (p.1, atoi p.2))
  | [], _ => .nil
  | (f, value) :: words, h => by
    obtain ⟨n, hvalue⟩ := h (f, value) List.mem_cons_self
    have hatoi := atoi_eq hvalue
    rw [List.map_cons, hatoi]
    refine .cons f value n _ _ hvalue (flagPairs_of_words fun p hp => ?_)
    exact h p (List.mem_cons_of_mem _ hp)

/-- For every command line, `parse_optional_flags` accepts exactly the grammar of the flags, and
then every field has the value of the last pair for its flag or keeps its own, if and only if the
words are not pairs of a flag and a word of which one is not the text of an `int`. -/
theorem parse_optional_flags_exact_iff (argv : List CStr) (startIndex : ℕ) (req : Request) :
    (((parseOptionalFlags argv startIndex req).1 = 0 ↔
        ∃ pairs, FlagPairs (argv.drop startIndex) pairs) ∧
      ∀ pairs, FlagPairs (argv.drop startIndex) pairs →
        (parseOptionalFlags argv startIndex req).2 = { req with
          softMib := OptionalFlag.softMib.last pairs req.softMib
          hardMib := OptionalFlag.hardMib.last pairs req.hardMib
          niceValue := OptionalFlag.nice.last pairs req.niceValue }) ↔
      ∀ words, argv.drop startIndex = flagWords words → ∀ p ∈ words, ∃ n, IntText p.2 n := by
  unfold parseOptionalFlags
  generalize argv.drop startIndex = args
  constructor
  · rintro ⟨haccepts, -⟩ words rfl
    obtain ⟨pairs, hpairs⟩ := haccepts.mp (by rw [parseFlagsFrom_flagWords])
    obtain ⟨words', heq, -, hwords⟩ := hpairs.words
    rwa [flagWords_inj heq]
  · intro hwords
    refine ⟨⟨fun hret => ?_, ?_⟩, ?_⟩
    · obtain ⟨words, rfl⟩ := parseFlagsFrom_eq_zero hret
      exact ⟨_, flagPairs_of_words (hwords words rfl)⟩
    · rintro ⟨pairs, hpairs⟩
      obtain ⟨words, rfl, -, -⟩ := hpairs.words
      rw [parseFlagsFrom_flagWords]
    · intro pairs hpairs
      obtain ⟨words, rfl, rfl, -⟩ := hpairs.words
      rw [parseFlagsFrom_flagWords, setFlags_eq]

/-- `--nice high` is taken for `--nice 0`. -/
theorem parse_optional_flags_takes_words :
    ¬((parseOptionalFlags [cstr "engine", cstr "start", cstr "a", cstr "r", cstr "c",
        cstr "--nice", cstr "high"] 5 ⟨1, cstr "a", cstr "r", cstr "c", 40, 64, 5⟩).1 = 0 ↔
      ∃ pairs, FlagPairs [cstr "--nice", cstr "high"] pairs) := by
  intro h
  obtain ⟨pairs, hpairs⟩ := h.mp (by decide)
  obtain ⟨words, heq, -, hwords⟩ := hpairs.words
  have hnice : words = [(.nice, cstr "high")] := flagWords_inj (heq.symm.trans rfl)
  obtain ⟨n, hn, -⟩ := hwords (.nice, cstr "high") (by simp [hnice])
  have hnone : decimalValue (cstr "high") = none := by decide
  rw [hnone] at hn
  cases hn

/-! ## Requests -/

/-- The soft limit without a flag. -/
def DEFAULT_SOFT_MIB : ℤ := 40

/-- The hard limit without a flag. -/
def DEFAULT_HARD_MIB : ℤ := 64

/-- The nice value without a flag. -/
def DEFAULT_NICE : ℤ := 0

/-- `init_request_defaults`. -/
def initRequestDefaults : Request :=
  ⟨0, [], [], [], DEFAULT_SOFT_MIB, DEFAULT_HARD_MIB, DEFAULT_NICE⟩

/-- `argv[k]`. -/
def word (argv : List CStr) (k : ℕ) : CStr :=
  argv.getD k []

/-- The request of `start` and `run` before their flags. -/
def startRequest (argv : List CStr) : Request :=
  { initRequestDefaults with
    type := if word argv 1 = cstr "start" then REQ_START else REQ_RUN
    id := safeStrcpy (word argv 2) MAX_ID_LEN
    rootfs := safeStrcpy (word argv 3) MAX_PATH_LEN
    command := safeStrcpy (word argv 4) MAX_CMD_LEN }

/-- The request that `main` sends. It sends none as the supervisor, or if it prints its usage. -/
def mainRequest (argv : List CStr) : Option Request :=
  if argv.length < 2 then none
  else if word argv 1 = cstr "supervisor" then none
  else if word argv 1 = cstr "start" ∨ word argv 1 = cstr "run" then
    if argv.length < 5 then none
    else if (parseOptionalFlags argv 5 (startRequest argv)).1 ≠ 0 then none
    else some (parseOptionalFlags argv 5 (startRequest argv)).2
  else if word argv 1 = cstr "ps" then
    if argv.length ≠ 2 then none else some { initRequestDefaults with type := REQ_PS }
  else if word argv 1 = cstr "logs" then
    if argv.length ≠ 3 then none
    else some { initRequestDefaults with
      type := REQ_LOGS
      id := safeStrcpy (word argv 2) MAX_ID_LEN }
  else if word argv 1 = cstr "stop" then
    if argv.length ≠ 3 then none
    else some { initRequestDefaults with
      type := REQ_STOP
      id := safeStrcpy (word argv 2) MAX_ID_LEN }
  else none

/-- The requests that `main` sends. -/
theorem mainRequest_cases {argv : List CStr} (h : mainRequest argv = some req) :
    (∃ words : List (OptionalFlag × CStr),
        req = setFlags (words.map fun p => (p.1, atoi p.2)) (startRequest argv)) ∨
      req = { initRequestDefaults with type := REQ_PS } ∨
      ∃ type, (type = REQ_STOP ∨ type = REQ_LOGS) ∧ req = { initRequestDefaults with
        type := type
        id := safeStrcpy (word argv 2) MAX_ID_LEN } := by
  unfold mainRequest at h
  split_ifs at h with _ _ _ _ hret <;> try obtain rfl := Option.some.inj h
  · obtain ⟨words, heq⟩ := parseFlagsFrom_eq_zero (not_not.mp hret)
    refine Or.inl ⟨words, ?_⟩
    rw [parseOptionalFlags, heq, parseFlagsFrom_flagWords]
  · exact Or.inr (Or.inl rfl)
  · exact Or.inr (Or.inr ⟨REQ_LOGS, Or.inr rfl, rfl⟩)
  · exact Or.inr (Or.inr ⟨REQ_STOP, Or.inl rfl, rfl⟩)

/-- What `main` sends of the words of a start. -/
theorem mainRequest_start {argv : List CStr} (h : mainRequest argv = some req)
    (hstart : req.Starts) : req.id = safeStrcpy (word argv 2) MAX_ID_LEN ∧
      req.rootfs = safeStrcpy (word argv 3) MAX_PATH_LEN ∧
      req.command = safeStrcpy (word argv 4) MAX_CMD_LEN := by
  rcases mainRequest_cases h with ⟨words, rfl⟩ | rfl | ⟨type, rfl | rfl, rfl⟩
  · rw [setFlags_eq]
    exact ⟨rfl, rfl, rfl⟩
  · exact absurd hstart (by decide : ¬(REQ_PS = REQ_START ∨ REQ_PS = REQ_RUN))
  · exact absurd hstart (by decide : ¬(REQ_STOP = REQ_START ∨ REQ_STOP = REQ_RUN))
  · exact absurd hstart (by decide : ¬(REQ_LOGS = REQ_START ∨ REQ_LOGS = REQ_RUN))

/-- What `main` sends of the id that `stop` and `logs` are given. -/
theorem mainRequest_id {argv : List CStr} (h : mainRequest argv = some req)
    (htype : req.type = REQ_STOP ∨ req.type = REQ_LOGS) :
    req.id = safeStrcpy (word argv 2) MAX_ID_LEN := by
  rcases mainRequest_cases h with ⟨words, rfl⟩ | rfl | ⟨type, -, rfl⟩
  · rw [setFlags_eq]
    rfl
  · exact absurd htype (by decide)
  · rfl

end Jackfruit
