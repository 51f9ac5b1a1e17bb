import Mathlib.Data.List.Infix
import Mathlib.Data.List.TakeWhile

/-!
# Printing into a buffer

`snprintf` writes a text with a NUL behind it, as much of the text as its size argument has room
for, and returns the length of the whole text. A program that prints one text after another with
`used += snprintf(out + used, out_size - used, ..)` computes the place and the room as `size_t` :
once a text has been cut, the next difference wraps, and the room seems to be without end.

While all texts together are shorter than the buffer, the difference does not wrap, no text is cut,
and the buffer holds the texts in order (`Holds.print`).

A loop that copies one byte after another, and stops when there is room for one byte left, leaves
as much of its source as there is room for with a NUL behind it (`Copied.copyBytes`).
-/

set_option linter.unusedSectionVars false

namespace Printing

/-- The buffer after `snprintf(out + offset, size, "%s", text)`; none if it writes outside. -/
def snprintfAt (out : List UInt8) (offset size : ℕ) (text : List UInt8) : Option (List UInt8) :=
  if size = 0 then some out
  else
    let bytes := text.take (size - 1) ++ [0]
    if offset + bytes.length ≤ out.length then
      some (out.take offset ++ bytes ++ out.drop (offset + bytes.length))
    else none

/-- A call of `snprintf` at `out + used`. -/
structure Call where
  used : UInt64
  size : UInt64
  text : List UInt8

/-- The buffer and `used`, with the calls up to now. -/
structure Printer where
  out : List UInt8
  used : UInt64
  calls : List Call

/-- `used += snprintf(out + used, out_size - used, "%s", text)`. -/
def Printer.print (outSize : UInt64) (p : Printer) (text : List UInt8) : Option Printer :=
  (snprintfAt p.out p.used.toNat (outSize - p.used).toNat text).map fun out => {
    out := out
    used := p.used + UInt64.ofNat text.length
    calls := p.calls ++ [⟨p.used, outSize - p.used, text⟩] }

/-- The difference has not wrapped, and there is room for the text and a NUL. -/
structure Call.Fits (outSize : UInt64) (c : Call) : Prop where
  used : c.used ≤ outSize
  size : c.used.toNat + c.size.toNat = outSize.toNat
  text : c.text.length < c.size.toNat

/-- The texts up to now are `done`, and every call had room. -/
structure Holds (outSize : UInt64) (p : Printer) (done : List UInt8) : Prop where
  length : p.out.length = outSize.toNat
  used : p.used.toNat = done.length
  room : done.length < outSize.toNat
  bytes : ∃ rest, p.out = done ++ rest ∧ (done ≠ [] → rest.head? = some 0)
  calls : ∀ c ∈ p.calls, c.Fits outSize

variable {outSize : UInt64} {p : Printer} {done out : List UInt8}

theorem holds_nil (outSize : UInt64) (hout : out.length = outSize.toNat)
    (hpos : 0 < outSize.toNat) : Holds outSize ⟨out, 0, []⟩ [] :=
  ⟨hout, rfl, hpos, ⟨out, rfl, fun h => absurd rfl h⟩, by simp⟩

/-- A text for which there is room comes behind the others. -/
theorem Holds.print (hp : Holds outSize p done) (text : List UInt8)
    (hroom : done.length + text.length < outSize.toNat) :
    ∃ q, p.print outSize text = some q ∧ Holds outSize q (done ++ text) := by
  obtain ⟨rest, hout, -⟩ := hp.bytes
  have hle : p.used ≤ outSize := by
    rw [UInt64.le_iff_toNat_le, hp.used]
    omega
  have hsize : (outSize - p.used).toNat = outSize.toNat - done.length := by
    rw [UInt64.toNat_sub_of_le _ _ hle, hp.used]
  have hlen := hp.length
  rw [hout, List.length_append] at hlen
  have htext : text.take (outSize.toNat - done.length - 1) = text :=
    List.take_of_length_le (by omega)
  have hnext : snprintfAt p.out p.used.toNat (outSize - p.used).toNat text =
      some (done ++ text ++ 0 :: rest.drop (text.length + 1)) := by
    rw [snprintfAt, if_neg (by omega), hsize, htext, hp.used, hout]
    simp only [List.length_append, List.length_singleton]
    rw [if_pos (by omega), List.take_left, List.drop_length_add_append]
    simp
  refine ⟨_, by rw [Printer.print, hnext]; rfl, ?_, ?_, by rwa [List.length_append],
    ⟨_, rfl, fun _ => rfl⟩, ?_⟩
  · simp only [List.length_append, List.length_cons, List.length_drop]
    omega
  · have hlt := outSize.toNat_lt
    rw [UInt64.toNat_add, hp.used, UInt64.toNat_ofNat', List.length_append]
    omega
  · intro c hc
    rcases List.mem_append.mp hc with hc | hc
    · exact hp.calls c hc
    · obtain rfl := List.mem_singleton.mp hc
      refine ⟨hle, ?_, ?_⟩ <;> simp only [hsize, hp.used] <;> omega

/-- As a C string the buffer is what was printed. -/
theorem Holds.contents (hp : Holds outSize p done) (hne : done ≠ [])
    (hnul : ∀ b ∈ done, b ≠ 0) : p.out.takeWhile (fun b => b ≠ 0) = done := by
  obtain ⟨rest, hout, hhead⟩ := hp.bytes
  obtain ⟨tail, rfl⟩ := List.head?_eq_some_iff.mp (hhead hne)
  rw [hout, List.takeWhile_append_of_pos (by simpa using hnul),
    List.takeWhile_cons_of_neg (by simp), List.append_nil]

/-- A single text. -/
theorem snprintfAt_zero (text : List UInt8) (hpos : 0 < out.length) :
    ∃ rest, snprintfAt out 0 out.length text = some (text.take (out.length - 1) ++ 0 :: rest) ∧
      (text.take (out.length - 1) ++ 0 :: rest).length = out.length := by
  have hlen : (text.take (out.length - 1)).length + 1 ≤ out.length := by
    rw [List.length_take]
    omega
  refine ⟨out.drop ((text.take (out.length - 1)).length + 1), ?_, ?_⟩
  · rw [snprintfAt, if_neg (by omega)]
    simp only [List.length_append, List.length_singleton, Nat.zero_add]
    rw [if_pos hlen]
    simp
  · rw [List.length_append, List.length_cons, List.length_drop]
    omega

/-- A C string ends at its first NUL. -/
theorem takeWhile_append_nul (text rest : List UInt8) :
    (text ++ 0 :: rest).takeWhile (fun b => b ≠ 0) = text.takeWhile fun b => b ≠ 0 := by
  rw [List.takeWhile_append, List.takeWhile_cons_of_neg (by simp), List.append_nil]
  split_ifs with hlen
  · exact ((List.takeWhile_prefix _).eq_of_length hlen).symm
  · rfl

/-! ## Copying byte by byte -/

/-- The buffer after `out[k] = b`; none if it writes outside. -/
def storeAt (out : List UInt8) (k : ℕ) (b : UInt8) : Option (List UInt8) :=
  if k < out.length then some (out.set k b) else none

/-- A buffer, and how many bytes have been copied into it. -/
structure Copier where
  out : List UInt8
  used : UInt64

/-- `while ((c = fgetc(fp)) != EOF && used + 1 < out_size) out[used++] = c`, with these bytes left
to read. -/
def copyBytes (outSize : UInt64) : List UInt8 → Copier → Option Copier
  | [], w => some w
  | c :: src, w =>
    if w.used + 1 < outSize then
      (storeAt w.out w.used.toNat c).bind fun out => copyBytes outSize src ⟨out, w.used + 1⟩
    else some w

/-- The bytes up to now are `done`, and there is room for a NUL. -/
structure Copied (outSize : UInt64) (w : Copier) (done : List UInt8) : Prop where
  length : w.out.length = outSize.toNat
  used : w.used.toNat = done.length
  room : done.length < outSize.toNat
  bytes : ∃ rest, w.out = done ++ rest

variable {w : Copier}

theorem copied_nil (hout : out.length = outSize.toNat) (hpos : 0 < outSize.toNat) :
    Copied outSize ⟨out, 0⟩ [] :=
  ⟨hout, rfl, hpos, out, rfl⟩

theorem storeAt_append (rest : List UInt8) (a b : UInt8) :
    storeAt (done ++ a :: rest) done.length b = some (done ++ b :: rest) := by
  rw [storeAt, if_pos (by simp), List.set_append_right _ _ le_rfl, Nat.sub_self, List.set_cons_zero]

/-- The place behind the bytes is in the buffer. -/
theorem Copied.storeAt (hw : Copied outSize w done) (b : UInt8) :
    ∃ rest, Printing.storeAt w.out w.used.toNat b = some (done ++ b :: rest) ∧
      (done ++ b :: rest).length = outSize.toNat := by
  obtain ⟨rest, hout⟩ := hw.bytes
  have hlen := hw.length
  have hroom := hw.room
  rw [hout, List.length_append] at hlen
  cases rest with
  | nil =>
    rw [List.length_nil] at hlen
    omega
  | cons a rest =>
    refine ⟨rest, by rw [hout, hw.used, storeAt_append], ?_⟩
    rw [List.length_append, List.length_cons]
    rwa [List.length_cons] at hlen

/-- One turn of the loop. -/
theorem Copied.step (hw : Copied outSize w done) (c : UInt8)
    (hroom : done.length + 1 < outSize.toNat) :
    ∃ out, Printing.storeAt w.out w.used.toNat c = some out ∧
      Copied outSize ⟨out, w.used + 1⟩ (done ++ [c]) := by
  obtain ⟨rest, hstore, hlen⟩ := hw.storeAt c
  refine ⟨_, hstore, hlen, ?_, ?_, rest, by rw [List.append_assoc]; rfl⟩
  · have hlt := outSize.toNat_lt
    have hone : (1 : UInt64).toNat = 1 := rfl
    rw [UInt64.toNat_add, hw.used, hone, List.length_append, List.length_singleton]
    omega
  · rwa [List.length_append, List.length_singleton]

/-- The loop goes on exactly while there is room for another byte. -/
theorem Copied.test_iff (hw : Copied outSize w done) :
    w.used + 1 < outSize ↔ done.length + 1 < outSize.toNat := by
  have hlt := outSize.toNat_lt
  have hroom := hw.room
  have hone : (1 : UInt64).toNat = 1 := rfl
  rw [UInt64.lt_iff_toNat_lt, UInt64.toNat_add, hw.used, hone]
  omega

/-- The loop copies as much of its source as there is room for. -/
theorem Copied.copyBytes : ∀ (src : List UInt8) {w : Copier} {done : List UInt8},
    Copied outSize w done → ∃ q, Printing.copyBytes outSize src w = some q ∧
      Copied outSize q (done ++ src.take (outSize.toNat - 1 - done.length))
  | [], w, done, hw => ⟨w, rfl, by rwa [List.take_nil, List.append_nil]⟩
  | c :: src, w, done, hw => by
    rw [Printing.copyBytes]
    by_cases hroom : done.length + 1 < outSize.toNat
    · obtain ⟨out, hstore, hnext⟩ := hw.step c hroom
      obtain ⟨q, hcopy, hq⟩ := Copied.copyBytes src hnext
      refine ⟨q, by rw [if_pos (hw.test_iff.mpr hroom), hstore, Option.bind_some, hcopy], ?_⟩
      obtain ⟨k, hk⟩ : ∃ k, outSize.toNat - 1 - done.length = k + 1 :=
        ⟨outSize.toNat - 1 - done.length - 1, by omega⟩
      have hk' : outSize.toNat - 1 - (done ++ [c]).length = k := by
        rw [List.length_append, List.length_singleton]
        omega
      rwa [hk', List.append_assoc, List.singleton_append, ← List.take_succ_cons, ← hk] at hq
    · have hfull : outSize.toNat - 1 - done.length = 0 := by omega
      refine ⟨w, if_neg (mt hw.test_iff.mp hroom), ?_⟩
      rwa [hfull, List.take_zero, List.append_nil]

end Printing
