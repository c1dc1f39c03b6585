import PennCloud.Framing
import Mathlib.Data.UInt

/-!
# Messages over a connection

Both ends transfer bytes in loops around `write` and `read`, which may move
fewer bytes than asked. A message goes out as its size, the eight bytes of a
`size_t`, and its content. Whatever pieces the kernel makes of the stream, the
reading end gets the messages that were written.
-/

namespace TcpOperation
open Framing

abbrev Bytes := List UInt8

/-- What the kernel answers, call by call: `write` on the number of bytes offered, `read`
on the number of bytes asked for and the number still to come. -/
structure Kernel where
  write : Nat → Nat → Int
  read : Nat → Nat → Nat → Int

/-- The end of a connection that is written to: what it has sent, and the calls so far. -/
structure Writer where
  stream : Bytes
  calls : Nat

/-- The end that is read from: what is still to come until the stream ends, and the calls so far. -/
structure Reader where
  waiting : Bytes
  calls : Nat

/-- A `ssize_t` stored in an `int`. -/
def toInt (n : Int) : Int := n.bmod (2 ^ 32)

def writeCall (k : Kernel) (data : Bytes) (w : Writer) : Int × Writer :=
  let n := k.write w.calls data.length
  (n, ⟨w.stream ++ data.take n.toNat, w.calls + 1⟩)

def readCall (k : Kernel) (asked : Nat) (r : Reader) : Int × Bytes × Reader :=
  let n := k.read r.calls asked r.waiting.length
  (n, r.waiting.take n.toNat, ⟨r.waiting.drop n.toNat, r.calls + 1⟩)

/-- The loop of `tcp_write`, for at most as many calls as there is fuel. -/
def writeLoop (k : Kernel) (buf : Bytes) : Nat → Nat → Writer → Option (Bool × Writer)
  | 0, sent, w => if sent < buf.length then none else some (true, w)
  | fuel + 1, sent, w =>
    if sent < buf.length then
      let called := writeCall k (buf.drop sent) w
      if toInt called.1 < 0 then some (false, called.2)
      else writeLoop k buf fuel (sent + (toInt called.1).toNat) called.2
    else some (true, w)

def tcpWrite (k : Kernel) (fuel : Nat) (buf : Bytes) (w : Writer) : Option (Bool × Writer) :=
  writeLoop k buf fuel 0 w

/-- The loop of `tcp_read`, which fills the buffer from the front. -/
def readLoop (k : Kernel) : Nat → Nat → Bytes → Reader → Option (Bool × Bytes × Reader)
  | 0, sent, buf, r => if sent < buf.length then none else some (true, buf, r)
  | fuel + 1, sent, buf, r =>
    if sent < buf.length then
      let called := readCall k (buf.length - sent) r
      let got := called.2.1
      let filled := buf.take sent ++ got ++ buf.drop (sent + got.length)
      if toInt called.1 ≤ 0 then some (false, filled, called.2.2)
      else readLoop k fuel (sent + (toInt called.1).toNat) filled called.2.2
    else some (true, buf, r)

def tcpRead (k : Kernel) (fuel : Nat) (buf : Bytes) (r : Reader) :
    Option (Bool × Bytes × Reader) :=
  readLoop k fuel 0 buf r

/-- The bytes of a number in memory, least significant first. -/
def bytesOf : Nat → Nat → Bytes
  | 0, _ => []
  | size + 1, n => UInt8.ofNat n :: bytesOf size (n / 256)

/-- The number that bytes in memory stand for. -/
def valueOf : Bytes → Nat
  | [] => 0
  | b :: bs => b.toNat + 256 * valueOf bs

def sizeofSizeT : Nat := 8

def tcpWriteMsg (k : Kernel) (fuel : Nat) (msg : Bytes) (w : Writer) : Option (Bool × Writer) :=
  match tcpWrite k fuel (bytesOf sizeofSizeT msg.length) w with
  | none => none
  | some (true, w) => tcpWrite k fuel msg w
  | some (false, w) => some (false, w)

def tcpReadMsg (k : Kernel) (fuel : Nat) (r : Reader) : Option (Bool × Bytes × Reader) :=
  match tcpRead k fuel (bytesOf sizeofSizeT 0) r with
  | none => none
  | some (true, length, r) => tcpRead k fuel (List.replicate (valueOf length) 0) r
  | some (false, _, r) => some (false, [], r)

/-- One message after another, and what the calls returned. -/
def writeMsgs (k : Kernel) (fuel : Nat) : List Bytes → Writer → Option (List Bool × Writer)
  | [], w => some ([], w)
  | msg :: msgs, w =>
    (tcpWriteMsg k fuel msg w).bind fun first =>
      (writeMsgs k fuel msgs first.2).map fun rest => (first.1 :: rest.1, rest.2)

/-- Repeated calls of `tcp_read_msg`, with the result and the message of each. -/
def readMsgs (k : Kernel) (fuel : Nat) : Nat → Reader → Option (List (Bool × Bytes) × Reader)
  | 0, r => some ([], r)
  | count + 1, r =>
    (tcpReadMsg k fuel r).bind fun first =>
      (readMsgs k fuel count first.2.2).map fun rest =>
        ((first.1, first.2.1) :: rest.1, rest.2)

/-- A kernel that moves between one byte and what it is asked for as long as the stream
lasts, and then reports its end or an error. -/
structure Splitting extends Kernel where
  write_pos (i offered : Nat) : 0 < offered → 1 ≤ write i offered
  write_le (i offered : Nat) : write i offered ≤ offered
  read_pos (i asked waiting : Nat) : 0 < asked → 0 < waiting → 1 ≤ read i asked waiting
  read_le (i asked waiting : Nat) : read i asked waiting ≤ (min asked waiting : Nat)
  read_narrow (i asked waiting : Nat) : -(2 ^ 31) ≤ read i asked waiting

/-! ### Sizes in memory -/

theorem bytesOf_length (size n : Nat) : (bytesOf size n).length = size := by
  induction size generalizing n with
  | zero => rfl
  | succ size ih => rw [bytesOf, List.length_cons, ih]

theorem valueOf_bytesOf (size n : Nat) : valueOf (bytesOf size n) = n % 256 ^ size := by
  induction size generalizing n with
  | zero => rw [bytesOf, valueOf, pow_zero, Nat.mod_one]
  | succ size ih =>
    have low : (UInt8.ofNat n).toNat = n % 256 := UInt8.toNat_ofNat'
    rw [bytesOf, valueOf, ih, low, pow_succ, Nat.mul_comm (256 ^ size), Nat.mod_mul]

/-- The eight bytes of a `size_t` as the header of a message. -/
def sizeHeader : Header UInt8 where
  width := sizeofSizeT
  bound := 256 ^ sizeofSizeT
  encode := bytesOf sizeofSizeT
  decode := valueOf
  encode_length := bytesOf_length sizeofSizeT
  decode_encode n small := by rw [valueOf_bytesOf, Nat.mod_eq_of_lt small]

theorem toInt_of_small {n : Int} (low : -(2 ^ 31) ≤ n) (high : n < 2 ^ 31) : toInt n = n := by
  rw [toInt]
  exact Int.bmod_eq_of_le (by omega) (by omega)

theorem toInt_count {n : Nat} (small : n < 2 ^ 31) : toInt n = n :=
  toInt_of_small (by omega) (by omega)

/-! ### Writing -/

/-- A call of `write` moves at least one byte of what it is offered. -/
theorem writeCall_moves (k : Splitting) (data : Bytes) (offered : 0 < data.length) (w : Writer) :
    ∃ n : Nat, 1 ≤ n ∧ n ≤ data.length ∧
      writeCall k.toKernel data w = ((n : Int), ⟨w.stream ++ data.take n, w.calls + 1⟩) := by
  have least := k.write_pos w.calls data.length offered
  have most := k.write_le w.calls data.length
  obtain ⟨n, same⟩ := Int.eq_ofNat_of_zero_le (Int.le_trans (by decide) least)
  refine ⟨n, by omega, by omega, ?_⟩
  simp only [writeCall, same, Int.toNat_natCast]

/-- From any point of the buffer the loop sends the rest of it. -/
theorem writeLoop_sends (k : Splitting) {buf : Bytes} (short : buf.length < 2 ^ 31)
    (fuel sent : Nat) (enough : buf.length ≤ sent + fuel) (w : Writer) :
    ∃ calls, writeLoop k.toKernel buf fuel sent w =
      some (true, ⟨w.stream ++ buf.drop sent, calls⟩) := by
  induction fuel generalizing sent w with
  | zero =>
    refine ⟨w.calls, ?_⟩
    rw [writeLoop, if_neg (by omega), List.drop_of_length_le (by omega), List.append_nil]
  | succ fuel ih =>
    rw [writeLoop]
    split
    case isFalse all =>
      refine ⟨w.calls, ?_⟩
      rw [List.drop_of_length_le (Nat.le_of_not_lt all), List.append_nil]
    case isTrue more =>
      obtain ⟨n, least, most, called⟩ := writeCall_moves k (buf.drop sent)
        (by rw [List.length_drop]; omega) w
      rw [List.length_drop] at most
      simp only [called, toInt_count (n := n) (by omega), Int.toNat_natCast]
      rw [if_neg (by omega)]
      obtain ⟨calls, same⟩ := ih (sent + n) (by omega)
        ⟨w.stream ++ (buf.drop sent).take n, w.calls + 1⟩
      refine ⟨calls, same.trans ?_⟩
      rw [List.append_assoc, ← List.drop_drop, List.take_append_drop]

theorem tcpWrite_sends (k : Splitting) (buf : Bytes) (short : buf.length < 2 ^ 31) (fuel : Nat)
    (enough : buf.length ≤ fuel) (w : Writer) :
    ∃ calls, tcpWrite k.toKernel fuel buf w = some (true, ⟨w.stream ++ buf, calls⟩) :=
  writeLoop_sends k short fuel 0 (by omega) w

theorem tcpWriteMsg_sends (k : Splitting) {msg : Bytes} (short : msg.length < 2 ^ 31) (fuel : Nat)
    (enough : (frame sizeHeader msg).length ≤ fuel) (w : Writer) :
    ∃ calls, tcpWriteMsg k.toKernel fuel msg w =
      some (true, ⟨w.stream ++ frame sizeHeader msg, calls⟩) := by
  have width : (bytesOf sizeofSizeT msg.length).length = sizeofSizeT := bytesOf_length _ _
  have parts : sizeofSizeT + msg.length ≤ fuel := by rwa [frame_length] at enough
  obtain ⟨first, header⟩ := tcpWrite_sends k (bytesOf sizeofSizeT msg.length)
    (by rw [width]; decide) fuel (by omega) w
  obtain ⟨calls, body⟩ := tcpWrite_sends k msg short fuel (by omega)
    ⟨w.stream ++ bytesOf sizeofSizeT msg.length, first⟩
  refine ⟨calls, ?_⟩
  simp only [tcpWriteMsg, header, body]
  rw [List.append_assoc]
  rfl

theorem writeMsgs_sends (k : Splitting) {msgs : List Bytes}
    (short : ∀ msg ∈ msgs, msg.length < 2 ^ 31) {fuel : Nat}
    (enough : (frames sizeHeader msgs).length ≤ fuel) (w : Writer) :
    ∃ calls, writeMsgs k.toKernel fuel msgs w =
      some (msgs.map fun _ => true, ⟨w.stream ++ frames sizeHeader msgs, calls⟩) := by
  induction msgs generalizing w with
  | nil => exact ⟨w.calls, by rw [writeMsgs, frames_nil, List.append_nil, List.map_nil]⟩
  | cons msg msgs ih =>
    obtain ⟨small, rest⟩ := List.forall_mem_cons.mp short
    rw [frames_cons, List.length_append] at enough
    obtain ⟨before, first⟩ := tcpWriteMsg_sends k small fuel (by omega) w
    obtain ⟨calls, later⟩ := ih rest (by omega) ⟨w.stream ++ frame sizeHeader msg, before⟩
    refine ⟨calls, ?_⟩
    rw [writeMsgs, first, Option.bind_some, later, Option.map_some, frames_cons, List.append_assoc,
      List.map_cons]

/-! ### Reading -/

/-- While the stream lasts a call of `read` moves at least one byte. -/
theorem readCall_moves (k : Splitting) {asked : Nat} (wanted : 0 < asked) (r : Reader)
    (lasts : 0 < r.waiting.length) :
    ∃ n : Nat, 1 ≤ n ∧ n ≤ asked ∧ n ≤ r.waiting.length ∧
      readCall k.toKernel asked r =
        ((n : Int), r.waiting.take n, ⟨r.waiting.drop n, r.calls + 1⟩) := by
  have least := k.read_pos r.calls asked r.waiting.length wanted lasts
  have most := k.read_le r.calls asked r.waiting.length
  obtain ⟨n, same⟩ := Int.eq_ofNat_of_zero_le (Int.le_trans (by decide) least)
  refine ⟨n, by omega, by omega, by omega, ?_⟩
  simp only [readCall, same, Int.toNat_natCast]

/-- What the loop has filled stays, and the stream fills the rest of the buffer if it lasts. -/
theorem readLoop_fills (k : Splitting) (fuel : Nat) (got buf : Bytes) (r : Reader)
    (short : got.length + buf.length < 2 ^ 31) (enough : r.waiting.length < fuel)
    (lasts : buf.length ≤ r.waiting.length) :
    ∃ calls, readLoop k.toKernel fuel got.length (got ++ buf) r =
      some (true, got ++ r.waiting.take buf.length, ⟨r.waiting.drop buf.length, calls⟩) := by
  induction fuel generalizing got buf r with
  | zero => omega
  | succ fuel ih =>
    rw [readLoop]
    split
    case isFalse all =>
      obtain rfl : buf = [] := by
        rw [List.length_append] at all
        exact List.length_eq_zero_iff.mp (by omega)
      refine ⟨r.calls, ?_⟩
      simp
    case isTrue more =>
      have asked : (got ++ buf).length - got.length = buf.length := by
        rw [List.length_append, Nat.add_sub_cancel_left]
      obtain ⟨n, least, most, there, called⟩ := readCall_moves k
        (show 0 < buf.length by rw [List.length_append] at more; omega) r (by omega)
      have taken : (r.waiting.take n).length = n := List.length_take_of_le there
      have filled : (got ++ buf).take got.length ++ r.waiting.take n ++
          (got ++ buf).drop (got.length + n) = got ++ r.waiting.take n ++ buf.drop n := by
        rw [List.take_left, List.drop_append, List.drop_of_length_le (Nat.le_add_right _ _),
          List.nil_append, Nat.add_sub_cancel_left]
      have grown : got.length + n = (got ++ r.waiting.take n).length := by
        rw [List.length_append, taken]
      have left : (buf.drop n).length = buf.length - n := List.length_drop
      simp only [asked, called, taken, filled, toInt_count (n := n) (by omega), Int.toNat_natCast]
      rw [if_neg (by omega), grown]
      obtain ⟨calls, same⟩ := ih (got ++ r.waiting.take n) (buf.drop n)
        ⟨r.waiting.drop n, r.calls + 1⟩ (by rw [← grown, left]; omega)
        (by rw [List.length_drop]; omega)
        (by rw [left, List.length_drop]; exact Nat.sub_le_sub_right lasts n)
      refine ⟨calls, same.trans ?_⟩
      rw [left, List.append_assoc, List.drop_drop, ← List.take_add,
        show n + (buf.length - n) = buf.length by omega]

/-- Where the stream ends before the buffer is full the loop returns false. -/
theorem readLoop_ends (k : Splitting) (fuel sent : Nat) (buf : Bytes) (r : Reader)
    (short : buf.length < 2 ^ 31) (enough : r.waiting.length < fuel)
    (ends : sent + r.waiting.length < buf.length) :
    ∃ filled calls, readLoop k.toKernel fuel sent buf r = some (false, filled, ⟨[], calls⟩) := by
  induction fuel generalizing sent buf r with
  | zero => omega
  | succ fuel ih =>
    rw [readLoop, if_pos (by omega)]
    by_cases lasts : 0 < r.waiting.length
    · obtain ⟨n, least, most, there, called⟩ := readCall_moves k
        (show 0 < buf.length - sent by omega) r lasts
      have taken : (r.waiting.take n).length = n := List.length_take_of_le there
      simp only [called, taken, toInt_count (n := n) (by omega), Int.toNat_natCast]
      rw [if_neg (by omega)]
      apply ih
      · simp only [List.length_append, List.length_drop, List.length_take]
        omega
      · rw [List.length_drop]
        omega
      · simp only [List.length_append, List.length_drop, List.length_take]
        omega
    · have closed : r.waiting = [] := List.length_eq_zero_iff.mp (by omega)
      have most := k.read_le r.calls (buf.length - sent) r.waiting.length
      have low := k.read_narrow r.calls (buf.length - sent) r.waiting.length
      simp only [readCall, toInt_of_small low (by omega)]
      rw [if_pos (by omega), closed, List.drop_nil]
      exact ⟨_, _, rfl⟩

/-- A message is read where the stream begins with a whole frame. -/
theorem tcpReadMsg_next (k : Splitting) {fuel : Nat} {r : Reader}
    (enough : r.waiting.length < fuel) {msg rest : Bytes} (short : msg.length < 2 ^ 31)
    (found : next sizeHeader r.waiting = some (msg, rest)) :
    ∃ calls, tcpReadMsg k.toKernel fuel r = some (true, msg, ⟨rest, calls⟩) := by
  have zeros : (bytesOf sizeofSizeT 0).length = sizeofSizeT := bytesOf_length _ _
  obtain ⟨fits, length, after⟩ := length_of_next found
  have full : sizeofSizeT ≤ r.waiting.length := fits
  have value : valueOf (r.waiting.take sizeofSizeT) = msg.length := length.symm
  have body : r.waiting.drop sizeofSizeT = msg ++ rest := after
  have whole : r.waiting.length = sizeofSizeT + (msg ++ rest).length := by
    have parts := congrArg List.length (List.take_append_drop sizeofSizeT r.waiting)
    rw [body, List.length_append, List.length_take_of_le full] at parts
    exact parts.symm
  obtain ⟨first, header⟩ := readLoop_fills k fuel [] (bytesOf sizeofSizeT 0) r
    (by rw [zeros]; decide) enough (by rw [zeros]; exact full)
  rw [zeros, List.nil_append, List.nil_append, body] at header
  obtain ⟨calls, message⟩ := readLoop_fills k fuel []
    (List.replicate msg.length 0) ⟨msg ++ rest, first⟩
    (by rw [List.length_replicate]; exact Nat.lt_of_le_of_lt (Nat.le_of_eq (Nat.zero_add _)) short)
    (by simp only; omega)
    (by rw [List.length_replicate, List.length_append]; omega)
  rw [List.length_replicate, List.take_left, List.drop_left] at message
  refine ⟨calls, ?_⟩
  simp only [tcpReadMsg, tcpRead]
  rw [show readLoop k.toKernel fuel 0 (bytesOf sizeofSizeT 0) r = _ from header]
  simp only [value]
  exact message

/-- No message is read from a stream that ends within its first frame. -/
theorem tcpReadMsg_none (k : Splitting) (fuel : Nat) (r : Reader)
    (enough : r.waiting.length < fuel) (absent : next sizeHeader r.waiting = none)
    (short : sizeofSizeT ≤ r.waiting.length → valueOf (r.waiting.take sizeofSizeT) < 2 ^ 31) :
    ∃ got calls, tcpReadMsg k.toKernel fuel r = some (false, got, ⟨[], calls⟩) := by
  have zeros : (bytesOf sizeofSizeT 0).length = sizeofSizeT := bytesOf_length _ _
  by_cases inside : r.waiting.length < sizeofSizeT
  · obtain ⟨filled, calls, header⟩ := readLoop_ends k fuel 0 (bytesOf sizeofSizeT 0) r
      (by rw [zeros]; decide) enough (by omega)
    refine ⟨[], calls, ?_⟩
    simp only [tcpReadMsg, tcpRead, header]
  · have full : sizeofSizeT ≤ r.waiting.length := Nat.le_of_not_lt inside
    have lacking : (r.waiting.drop sizeofSizeT).length <
        valueOf (r.waiting.take sizeofSizeT) := by
      by_contra whole
      rw [next, if_neg (show ¬ r.waiting.length < sizeHeader.width from inside)] at absent
      rw [if_neg (show ¬ (r.waiting.drop sizeHeader.width).length <
        sizeHeader.decode (r.waiting.take sizeHeader.width) from whole)] at absent
      cases absent
    obtain ⟨first, header⟩ := readLoop_fills k fuel [] (bytesOf sizeofSizeT 0) r
      (by rw [zeros]; decide) enough (by rw [zeros]; exact full)
    rw [zeros, List.nil_append, List.nil_append] at header
    obtain ⟨filled, calls, body⟩ := readLoop_ends k fuel 0
      (List.replicate (valueOf (r.waiting.take sizeofSizeT)) 0)
      ⟨r.waiting.drop sizeofSizeT, first⟩
      (by rw [List.length_replicate]; exact short full)
      (by rw [List.length_drop]; omega)
      (by rw [List.length_replicate, Nat.zero_add]; exact lacking)
    refine ⟨filled, calls, ?_⟩
    simp only [tcpReadMsg, tcpRead]
    rw [show readLoop k.toKernel fuel 0 (bytesOf sizeofSizeT 0) r = _ from header]
    exact body

/-- The calls read the frames that the stream begins with, one message a call. -/
theorem readMsgs_frames (k : Splitting) (fuel : Nat) {msgs : List Bytes}
    (short : ∀ msg ∈ msgs, msg.length < 2 ^ 31) {rest : Bytes} (r : Reader)
    (enough : r.waiting.length < fuel) (found : r.waiting = frames sizeHeader msgs ++ rest) :
    ∃ calls, readMsgs k.toKernel fuel msgs.length r =
      some (msgs.map fun msg => (true, msg), ⟨rest, calls⟩) := by
  induction msgs generalizing r with
  | nil =>
    refine ⟨r.calls, ?_⟩
    rw [frames_nil, List.nil_append] at found
    rw [List.length_nil, readMsgs, ← found, List.map_nil]
  | cons msg msgs ih =>
    obtain ⟨small, rest'⟩ := List.forall_mem_cons.mp short
    rw [frames_cons, List.append_assoc] at found
    have begins : next sizeHeader r.waiting = some (msg, frames sizeHeader msgs ++ rest) := by
      rw [found]
      exact next_frame (Nat.lt_trans small (by decide))
    obtain ⟨between, first⟩ := tcpReadMsg_next k enough small begins
    obtain ⟨calls, later⟩ := ih rest' ⟨frames sizeHeader msgs ++ rest, between⟩
      (by
        rw [found, List.length_append] at enough
        exact Nat.lt_of_le_of_lt (Nat.le_add_left _ _) enough)
      rfl
    refine ⟨calls, ?_⟩
    rw [List.length_cons, readMsgs, first, Option.bind_some, later, Option.map_some, List.map_cons]

theorem readMsgs_add (k : Kernel) (fuel first second : Nat) (r : Reader) :
    readMsgs k fuel (first + second) r =
      (readMsgs k fuel first r).bind fun got =>
        (readMsgs k fuel second got.2).map fun rest => (got.1 ++ rest.1, rest.2) := by
  induction first generalizing r with
  | zero => simp [readMsgs]
  | succ first ih =>
    rw [Nat.add_right_comm, readMsgs, readMsgs]
    cases tcpReadMsg k fuel r with
    | none => rfl
    | some got =>
      simp only [Option.bind_some, ih]
      cases readMsgs k fuel first got.2.2 with
      | none => rfl
      | some more =>
        simp only [Option.bind_some, Option.map_some]
        cases readMsgs k fuel second more.2 <;> rfl

/-- What is written is read, whatever the pieces; from a stream that ends early the messages
before the cut are read and the next call returns false. -/
theorem messages_arrive (sending receiving : Splitting) (msgs : List Bytes)
    (short : ∀ msg ∈ msgs, msg.length < 2 ^ 31) (fuel : Nat)
    (enough : (frames sizeHeader msgs).length < fuel) :
    ∃ w, writeMsgs sending.toKernel fuel msgs ⟨[], 0⟩ = some (msgs.map fun _ => true, w) ∧
      (∃ calls, readMsgs receiving.toKernel fuel msgs.length ⟨w.stream, 0⟩ =
        some (msgs.map fun msg => (true, msg), ⟨[], calls⟩)) ∧
      ∀ received, received <+: w.stream → received ≠ w.stream →
        ∃ whole cut later got calls, msgs = whole ++ cut :: later ∧
          (frames sizeHeader whole).length ≤ received.length ∧
          received.length < (frames sizeHeader (whole ++ [cut])).length ∧
          readMsgs receiving.toKernel fuel (whole.length + 1) ⟨received, 0⟩ =
            some ((whole.map fun msg => (true, msg)) ++ [(false, got)], ⟨[], calls⟩) := by
  obtain ⟨last, written⟩ := writeMsgs_sends sending short (Nat.le_of_lt enough) ⟨[], 0⟩
  refine ⟨_, written, ?_, ?_⟩
  · exact readMsgs_frames receiving fuel short _ (by simpa using enough) (by simp)
  · intro received begins other
    simp only [List.nil_append] at begins other
    have proper : received.length < (frames sizeHeader msgs).length :=
      Nat.lt_of_le_of_ne begins.length_le fun same => other (begins.eq_of_length same)
    obtain ⟨whole, body, later, part, rfl, rfl, starts, small⟩ := cut begins proper
    obtain ⟨early, after⟩ := List.forall_mem_append.mp short
    obtain ⟨between, before⟩ := readMsgs_frames receiving fuel early
      ⟨frames sizeHeader whole ++ part, 0⟩ (by simp only; omega) rfl
    have short := (List.forall_mem_cons.mp after).1
    have bound : body.length < sizeHeader.bound := Nat.lt_trans short (by decide)
    obtain ⟨got, calls, ended⟩ := tcpReadMsg_none receiving fuel
      ⟨part, between⟩ (by rw [List.length_append] at proper; simp only; omega)
      (next_part bound starts small) (fun full => by
        have header : part.take sizeofSizeT = bytesOf sizeofSizeT body.length :=
          take_part starts full
        have value : valueOf (bytesOf sizeofSizeT body.length) = body.length :=
          sizeHeader.decode_encode _ bound
        rw [header, value]
        exact short)
    refine ⟨whole, body, later, got, calls, rfl, ?_, ?_, ?_⟩
    · rw [List.length_append]
      exact Nat.le_add_right _ _
    · rw [frames_append, frames_cons, frames_nil, List.append_nil, List.length_append,
        List.length_append]
      exact Nat.add_lt_add_left small _
    · rw [readMsgs_add, before, Option.bind_some, readMsgs, ended]
      rfl

/-- Single bytes one way, and as much as there is the other way. -/
def byteByByte : Splitting where
  write _ offered := min 1 offered
  read _ asked waiting := min asked waiting
  write_pos _ _ some := by omega
  write_le _ _ := by omega
  read_pos _ _ _ some lasts := by omega
  read_le _ _ _ := by omega
  read_narrow _ _ _ := by omega

theorem messages_arrive_two : ∃ w,
    writeMsgs byteByByte.toKernel 30 [[7, 8], []] ⟨[], 0⟩ = some ([true, true], w) ∧
      ∃ calls, readMsgs byteByByte.toKernel 30 2 ⟨w.stream, 0⟩ =
        some ([(true, [7, 8]), (true, [])], ⟨[], calls⟩) := by
  obtain ⟨w, written, arrived, _⟩ :=
    messages_arrive byteByByte byteByByte [[7, 8], []] (by decide) 30 (by decide)
  exact ⟨w, written, arrived⟩

end TcpOperation
