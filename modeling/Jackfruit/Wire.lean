import Jackfruit.Connection

/-!
# The bytes of a request

`main` zeroes a `request_t`, fills it and sends it, and the handler reads its fields. An `int`
comes back as it was, and so does a text with its NUL inside the field
(`decodeRequest_encodeRequest`). Where a field has no NUL the handler reads on into the next one.
-/

set_option linter.unusedSectionVars false

namespace Jackfruit

/-- A text in a zeroed field. -/
def encodeString (src : CStr) (size : ℕ) : List UInt8 :=
  src ++ List.replicate (size - src.length) 0

/-- The bytes of a `request_t`. -/
def encodeRequest (req : Request) : List UInt8 :=
  encodeInt req.type ++ encodeString req.id MAX_ID_LEN ++ encodeString req.rootfs MAX_PATH_LEN ++
    encodeString req.command MAX_CMD_LEN ++ encodeInt req.softMib ++ encodeInt req.hardMib ++
    encodeInt req.niceValue

/-- The text is a C string. -/
def CStr.NulFree (src : CStr) : Prop :=
  ∀ b ∈ src, b ≠ 0

instance (src : CStr) : Decidable src.NulFree :=
  List.decidableBAll (fun b => b ≠ 0) src

variable {pre msg : List UInt8} {src : CStr} {n : ℤ} {size offset : ℕ}

@[simp] theorem length_encodeInt : (encodeInt n).length = 4 := by
  simp [encodeInt]

theorem length_encodeString (h : src.length ≤ size) : (encodeString src size).length = size := by
  rw [encodeString, List.length_append, List.length_replicate]
  omega

theorem CStr.NulFree.take (h : src.NulFree) (k : ℕ) : CStr.NulFree (src.take k) :=
  fun b hb => h b (List.mem_of_mem_take hb)

/-! ## Integers -/

/-- The four bytes of a number below `2^32`, put together again. -/
theorem bytes_eq {k : ℕ} (h : k < 2 ^ 32) :
    ((List.range 4).map fun j => UInt8.ofNat (k >>> (8 * j))).foldr
      (fun b n => b.toNat + 256 * n) 0 = k := by
  have hrange : List.range 4 = [0, 1, 2, 3] := by decide
  simp only [hrange, List.map_cons, List.map_nil, List.foldr_cons, List.foldr_nil,
    UInt8.toNat_ofNat', Nat.shiftRight_eq_div_pow]
  omega

/-- An `int` comes back. -/
theorem decodeInt_append (post : List UInt8) (hn : IsInt n) (hpre : pre.length = offset) :
    decodeInt (pre ++ (encodeInt n ++ post)) offset = n := by
  have hbytes : ((pre ++ (encodeInt n ++ post)).drop offset).take 4 = encodeInt n := by
    rw [← hpre, List.drop_left, List.take_left' length_encodeInt]
  rw [decodeInt, hbytes, encodeInt, bytes_eq (BitVec.isLt _), BitVec.ofNat_toNat,
    BitVec.setWidth_eq, BitVec.toInt_ofInt]
  obtain ⟨hlo, hhi⟩ := hn
  exact Int.bmod_eq_of_le (by omega) (by omega)

/-! ## Texts -/

/-- A text comes back if its NUL is in the field. -/
theorem decodeString_append (post : List UInt8) (hsrc : src.NulFree) (hlen : src.length < size)
    (hpre : pre.length = offset) :
    decodeString (pre ++ (encodeString src size ++ post)) offset = src := by
  obtain ⟨k, hk⟩ : ∃ k, size - src.length = k + 1 := ⟨size - src.length - 1, by omega⟩
  rw [decodeString, ← hpre, List.drop_left, encodeString, hk, List.replicate_succ,
    List.append_assoc, List.cons_append, List.takeWhile_append_of_pos, List.takeWhile_cons_of_neg,
    List.append_nil]
  · simp
  · simpa [CStr.NulFree] using hsrc

/-- The text at an offset fits a field exactly if the field holds a NUL. -/
theorem decodeString_length_lt_iff (hnul : 0 ∈ msg.drop offset) :
    (decodeString msg offset).length < size ↔ 0 ∈ (msg.drop offset).take size := by
  unfold decodeString
  generalize msg.drop offset = l at hnul ⊢
  induction l generalizing size with
  | nil => simp at hnul
  | cons b l ih =>
    cases size with
    | zero => simp
    | succ size =>
      by_cases hb : b = 0
      · simp [hb]
      · have hl : 0 ∈ l := (List.mem_cons.mp hnul).resolve_left fun h => hb h.symm
        have hb' : ¬(0 = b) := fun h => hb h.symm
        simpa [hb, hb'] using ih hl

/-! ## Requests -/

/-- The numbers are `int`s. -/
def Request.Ints (req : Request) : Prop :=
  IsInt req.type ∧ IsInt req.softMib ∧ IsInt req.hardMib ∧ IsInt req.niceValue

/-- The texts are C strings. -/
def Request.NulFree (req : Request) : Prop :=
  req.id.NulFree ∧ req.rootfs.NulFree ∧ req.command.NulFree

instance (req : Request) : Decidable req.Ints :=
  inferInstanceAs (Decidable (_ ∧ _ ∧ _ ∧ _))

instance (req : Request) : Decidable req.NulFree :=
  inferInstanceAs (Decidable (_ ∧ _ ∧ _))

theorem decodeInt_isInt (msg : List UInt8) (offset : ℕ) : IsInt (decodeInt msg offset) :=
  ⟨BitVec.le_toInt _, BitVec.toInt_lt⟩

theorem decodeRequest_ints (msg : List UInt8) : (decodeRequest msg).Ints :=
  ⟨decodeInt_isInt _ _, decodeInt_isInt _ _, decodeInt_isInt _ _, decodeInt_isInt _ _⟩

/-- A request whose texts fit their fields comes back. -/
theorem decodeRequest_encodeRequest {req : Request} (hints : req.Ints) (hnul : req.NulFree)
    (ht : req.Terminated) : decodeRequest (encodeRequest req) = req := by
  obtain ⟨htype, hsoft, hhard, hnice⟩ := hints
  obtain ⟨nid, nroot, ncmd⟩ := hnul
  obtain ⟨hid, hroot, hcmd⟩ := ht
  let t := encodeInt req.type
  let i := encodeString req.id MAX_ID_LEN
  let r := encodeString req.rootfs MAX_PATH_LEN
  let c := encodeString req.command MAX_CMD_LEN
  let s := encodeInt req.softMib
  let h := encodeInt req.hardMib
  let n := encodeInt req.niceValue
  -- Where each field begins.
  have pid : t.length = 4 := length_encodeInt
  have proot : (t ++ i).length = 4 + MAX_ID_LEN := by
    rw [List.length_append, pid, length_encodeString hid.le]
  have pcmd : (t ++ i ++ r).length = 4 + MAX_ID_LEN + MAX_PATH_LEN := by
    rw [List.length_append, proot, length_encodeString hroot.le]
  have psoft : (t ++ i ++ r ++ c).length = 4 + MAX_ID_LEN + MAX_PATH_LEN + MAX_CMD_LEN := by
    rw [List.length_append, pcmd, length_encodeString hcmd.le]
  have phard : (t ++ i ++ r ++ c ++ s).length =
      4 + MAX_ID_LEN + MAX_PATH_LEN + MAX_CMD_LEN + 4 := by
    rw [List.length_append, psoft, length_encodeInt]
  have pnice : (t ++ i ++ r ++ c ++ s ++ h).length =
      4 + MAX_ID_LEN + MAX_PATH_LEN + MAX_CMD_LEN + 8 := by
    rw [List.length_append, phard, length_encodeInt]
  have etype := decodeInt_append (i ++ r ++ c ++ s ++ h ++ n) htype
    (List.length_nil (α := UInt8))
  have eid := decodeString_append (r ++ c ++ s ++ h ++ n) nid hid pid
  have eroot := decodeString_append (c ++ s ++ h ++ n) nroot hroot proot
  have ecmd := decodeString_append (s ++ h ++ n) ncmd hcmd pcmd
  have esoft := decodeInt_append (h ++ n) hsoft psoft
  have ehard := decodeInt_append n hhard phard
  have enice := decodeInt_append [] hnice pnice
  have hbytes : encodeRequest req = t ++ i ++ r ++ c ++ s ++ h ++ n := rfl
  simp only [List.append_assoc, List.nil_append, List.append_nil] at *
  rw [decodeRequest, hbytes]
  exact Request.mk.injEq .. ▸ ⟨etype, eid, eroot, ecmd, esoft, ehard, enice⟩

end Jackfruit
