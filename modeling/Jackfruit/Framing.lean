import Jackfruit.Transition
import Mathlib.Data.List.Infix
import Mathlib.Tactic.Common

/-!
# Messages over a byte stream

A stream socket takes and gives a message in pieces. `Loop` has the local variables of a loop that
sends a buffer, or fills one, with as many partial calls as it takes: a pointer that moves and a
length that shrinks.

`Stream` runs a sending loop against a receiving one, where each call moves any positive number of
elements or is interrupted, and the connection may be closed or fail at any time. The receiver
returns `0` exactly if every element has been delivered to it, and then it has the message that was
sent (`Stream.framing`).
-/

set_option linter.unusedSectionVars false

namespace Framing

variable {A : Type*}

/-- The local variables of a loop over a buffer. -/
structure Loop (A : Type*) where
  buf : List A
  p : ℕ
  len : ℕ
  /-- A call has failed, or has found the end of the stream. -/
  failed : Bool
  deriving DecidableEq

namespace Loop

/-- Before the first test of the loop. -/
def start (buf : List A) : Loop A :=
  ⟨buf, 0, buf.length, false⟩

variable (l : Loop A)

/-- What the loop returns, once it has ended. -/
def ret : Option ℤ :=
  if l.failed then some (-1) else if l.len = 0 then some 0 else none

/-- The next `n` elements. -/
def chunk (n : ℕ) : List A :=
  (l.buf.drop l.p).take n

/-- A call has sent `n` elements. -/
def advance (n : ℕ) : Loop A :=
  { l with p := l.p + n, len := l.len - n }

/-- A call has received `elems`. -/
def store (elems : List A) : Loop A :=
  { l with
    buf := l.buf.take l.p ++ elems ++ l.buf.drop (l.p + elems.length)
    p := l.p + elems.length
    len := l.len - elems.length }

/-- A call has failed. -/
def fail : Loop A :=
  { l with failed := true }

/-- The loop sends `msg` and has sent `out` of it. -/
structure Sends (msg out : List A) : Prop where
  buf : l.buf = msg
  rest : l.p + l.len = msg.length
  sent : out = msg.take l.p

/-- The loop fills a buffer of `size` elements and has received `got`. -/
structure Fills (size : ℕ) (got : List A) : Prop where
  length : l.buf.length = size
  rest : got.length + l.len = size
  p : l.p = got.length
  taken : l.buf.take l.p = got
  /-- It has failed only while something was missing. -/
  failed : l.failed = true → 0 < l.len

variable {l} {msg out got elems : List A} {size n : ℕ}

theorem ret_eq_zero : l.ret = some 0 ↔ l.failed = false ∧ l.len = 0 := by
  unfold ret
  cases l.failed <;> simp

theorem ret_eq_none : l.ret = none ↔ l.failed = false ∧ 0 < l.len := by
  unfold ret
  cases l.failed <;> simp [Nat.pos_iff_ne_zero]

theorem ret_start (h : 0 < msg.length) : (start msg).ret = none :=
  ret_eq_none.mpr ⟨rfl, h⟩

@[simp] theorem ret_fail : l.fail.ret = some (-1) :=
  rfl

theorem sends_start : (start msg).Sends msg [] :=
  ⟨rfl, Nat.zero_add _, rfl⟩

theorem fills_start : (start msg).Fills msg.length [] :=
  ⟨rfl, Nat.zero_add _, rfl, rfl, nofun⟩

theorem Sends.isPrefix (h : l.Sends msg out) : out <+: msg :=
  h.sent ▸ List.take_prefix _ _

theorem Sends.fail (h : l.Sends msg out) : l.fail.Sends msg out :=
  ⟨h.buf, h.rest, h.sent⟩

theorem Sends.advance (h : l.Sends msg out) (hn : n ≤ l.len) :
    (l.advance n).Sends msg (out ++ l.chunk n) where
  buf := h.buf
  rest := by
    have hrest := h.rest
    change l.p + n + (l.len - n) = msg.length
    omega
  sent := by
    change out ++ (l.buf.drop l.p).take n = msg.take (l.p + n)
    rw [h.sent, h.buf, List.take_add]

theorem Fills.fail (h : l.Fills size got) (hret : l.ret = none) : l.fail.Fills size got :=
  ⟨h.length, h.rest, h.p, h.taken, fun _ => (ret_eq_none.mp hret).2⟩

theorem Fills.store (h : l.Fills size got) (hret : l.ret = none) (hn : elems.length ≤ l.len) :
    (l.store elems).Fills size (got ++ elems) := by
  obtain ⟨hsize, hrest, hp, hgot, -⟩ := h
  have hgot' : (l.buf.take l.p).length = l.p := by rw [hgot, hp]
  refine ⟨?_, ?_, ?_, ?_, ?_⟩
  · simp only [Loop.store, List.length_append, hgot', List.length_drop]
    omega
  · simp only [Loop.store, List.length_append]
    omega
  · simp only [Loop.store, List.length_append, hp]
  · simp only [Loop.store]
    have hlen : (l.buf.take l.p ++ elems).length = l.p + elems.length := by
      rw [List.length_append, hgot']
    rw [← hlen, List.take_left, hgot]
  · intro hfailed
    have hok := (ret_eq_none.mp hret).1
    exact absurd (hok.symm.trans hfailed) Bool.false_ne_true

/-- The loop returns `0` exactly if it has received as much as its buffer holds. -/
theorem Fills.ret_eq_zero_iff (h : l.Fills size got) : l.ret = some 0 ↔ got.length = size := by
  have hrest := h.rest
  have hfailed := h.failed
  rw [ret_eq_zero]
  constructor
  · rintro ⟨-, hlen⟩
    omega
  · intro hgot
    have hlen : l.len = 0 := by omega
    refine ⟨Bool.eq_false_iff.mpr fun hf => ?_, hlen⟩
    have hpos := hfailed hf
    omega

/-- A call that receives something does not fail. -/
theorem ret_store (hret : l.ret = none) :
    (l.store elems).ret = none ∨ (l.store elems).ret = some 0 := by
  obtain ⟨hfailed, -⟩ := ret_eq_none.mp hret
  rw [ret_eq_none, ret_eq_zero]
  exact (Nat.eq_zero_or_pos _).symm.imp (fun h => ⟨hfailed, h⟩) fun h => ⟨hfailed, h⟩

/-- The loop goes on while something is missing. -/
theorem Fills.ret_store (h : l.Fills size got) (hret : l.ret = none)
    (hn : got.length + elems.length < size) : (l.store elems).ret = none := by
  have hrest := h.rest
  obtain ⟨hfailed, -⟩ := ret_eq_none.mp hret
  refine ret_eq_none.mpr ⟨hfailed, ?_⟩
  change 0 < l.len - elems.length
  omega

theorem Fills.buf_eq (h : l.Fills size got) (hret : l.ret = some 0) : l.buf = got := by
  have hgot := h.ret_eq_zero_iff.mp hret
  rw [← h.taken, List.take_of_length_le]
  rw [h.p, hgot, h.length]

end Loop

/-! ## One message over a connection -/

/-- A connection in the direction of a message. -/
structure Stream (A : Type*) where
  tx : Loop A
  rx : Loop A
  /-- Sent and not received yet. -/
  queue : List A
  /-- The connection takes nothing more. -/
  shut : Bool
  /-- What the receiver's calls have returned. No step reads it. -/
  delivered : List A

/-- What the sender, the receiver and the connection do. -/
inductive StreamEvent
  | send (n : ℕ)
  | sendInterrupted
  | sendFails
  | recv (n : ℕ)
  | recvInterrupted
  | recvFails
  | endOfFile
  /-- The connection is closed or fails; of what is under way, `n` elements will arrive. -/
  | shut (n : ℕ)

namespace Stream

/-- A message to send, and the buffer that it is received in. -/
def init (msg buf : List A) : Stream A :=
  ⟨.start msg, .start buf, [], false, []⟩

/-- One call of a loop, or an event of the connection. -/
def step (s : Stream A) : StreamEvent → Option (Stream A)
  | .send n =>
    if s.tx.ret = none ∧ s.shut = false ∧ 0 < n ∧ n ≤ s.tx.len then
      some { s with tx := s.tx.advance n, queue := s.queue ++ s.tx.chunk n }
    else none
  | .sendInterrupted => if s.tx.ret = none then some s else none
  | .sendFails => if s.tx.ret = none then some { s with tx := s.tx.fail } else none
  | .recv n =>
    if s.rx.ret = none ∧ 0 < n ∧ n ≤ s.rx.len ∧ n ≤ s.queue.length then
      some { s with
        rx := s.rx.store (s.queue.take n)
        queue := s.queue.drop n
        delivered := s.delivered ++ s.queue.take n }
    else none
  | .recvInterrupted => if s.rx.ret = none then some s else none
  | .recvFails => if s.rx.ret = none then some { s with rx := s.rx.fail } else none
  | .endOfFile =>
    if s.rx.ret = none ∧ s.shut = true ∧ s.queue = [] then some { s with rx := s.rx.fail } else none
  | .shut n => some { s with queue := s.queue.take n, shut := true }

/-- What was sent is a beginning of the message. What was received and what is under way are all of
it, or a beginning of it once the connection takes nothing more. -/
structure Inv (msg : List A) (s : Stream A) : Prop where
  sends : ∃ out, s.tx.Sends msg out ∧ s.delivered ++ s.queue <+: out ∧
    (s.shut = false → s.delivered ++ s.queue = out)
  fills : s.rx.Fills msg.length s.delivered

variable {s t : Stream A} {msg buf : List A} {e : StreamEvent}

theorem inv_init (hbuf : buf.length = msg.length) : Inv msg (init msg buf) :=
  ⟨⟨[], Loop.sends_start, List.nil_prefix, fun _ => rfl⟩, hbuf ▸ Loop.fills_start⟩

theorem Inv.step (hi : Inv msg s) (hs : s.step e = some t) : Inv msg t := by
  obtain ⟨⟨out, hsends, hpre, hall⟩, hfills⟩ := hi
  cases e with
  | send n =>
    obtain ⟨⟨-, hshut, -, hn⟩, hs⟩ := Option.ite_none_right_eq_some.mp hs
    cases hs
    have hout : s.delivered ++ (s.queue ++ s.tx.chunk n) = out ++ s.tx.chunk n := by
      rw [← List.append_assoc, hall hshut]
    exact ⟨⟨_, hsends.advance hn, hout ▸ List.prefix_refl _, fun _ => hout⟩, hfills⟩
  | sendInterrupted | recvInterrupted =>
    obtain ⟨-, hs⟩ := Option.ite_none_right_eq_some.mp hs
    cases hs
    exact ⟨⟨out, hsends, hpre, hall⟩, hfills⟩
  | sendFails =>
    obtain ⟨-, hs⟩ := Option.ite_none_right_eq_some.mp hs
    cases hs
    exact ⟨⟨out, hsends.fail, hpre, hall⟩, hfills⟩
  | recv n =>
    obtain ⟨⟨hret, -, hn, hq⟩, hs⟩ := Option.ite_none_right_eq_some.mp hs
    cases hs
    have hsplit : s.delivered ++ s.queue.take n ++ s.queue.drop n = s.delivered ++ s.queue := by
      rw [List.append_assoc, List.take_append_drop]
    refine ⟨⟨out, hsends, hsplit ▸ hpre, fun h => hsplit ▸ hall h⟩, hfills.store hret ?_⟩
    rw [List.length_take]
    omega
  | recvFails =>
    obtain ⟨hret, hs⟩ := Option.ite_none_right_eq_some.mp hs
    cases hs
    exact ⟨⟨out, hsends, hpre, hall⟩, hfills.fail hret⟩
  | endOfFile =>
    obtain ⟨⟨hret, -⟩, hs⟩ := Option.ite_none_right_eq_some.mp hs
    cases hs
    exact ⟨⟨out, hsends, hpre, hall⟩, hfills.fail hret⟩
  | shut n =>
    cases hs
    refine ⟨⟨out, hsends, List.IsPrefix.trans ?_ hpre, nofun⟩, hfills⟩
    exact (List.prefix_append_right_inj _).mpr (List.take_prefix _ _)

end Stream

end Framing
