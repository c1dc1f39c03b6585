import PennCloud.PairDelimiter
import PennCloud.TcpOperation

/-!
# Reading lines

`http_read_line` of `http_operation.h` and `do_read` of `email/server.h` take
one byte at a time from a connection until a line has ended. Both take the byte
after a CR for text where it is no LF, also where it is another CR, and
`do_read` goes on asking a peer that has closed the connection.
-/

namespace LineReader

open TcpOperation PairDelimiter

def CR : UInt8 := 13

def LF : UInt8 := 10

/-- What a line reader returns, the line in its argument and the connection after it; nothing
while it has not returned. -/
abbrev Outcome := Option (Bool × Bytes × Reader)

/-- The cases of the loop of `http_read_line`. -/
def nextState (state : Nat) (c : UInt8) : Nat :=
  match state with
  | 0 => if c = CR then 1 else 0
  | 1 => if c = LF then 2 else 0
  | state => state

/-- The loop of `http_read_line`, for at most as many bytes as there is fuel. -/
def httpReadLineLoop (k : Kernel) : Nat → Nat → Bytes → UInt8 → Reader → Outcome
  | 0, _, _, _, _ => none
  | fuel + 1, state, line, c, r =>
    if state = 2 then some (true, line.take (line.length - 2), r)
    else
      match tcpRead k 1 [c] r with
      | some (true, c :: _, r) =>
        httpReadLineLoop k fuel (nextState state c) (line ++ [c]) c r
      | some (_, _, r) => some (false, line, r)
      | none => none

def httpReadLine (k : Kernel) (fuel : Nat) (r : Reader) : Outcome :=
  httpReadLineLoop k fuel 0 [] 0 r

/-- The loops of `do_read`: the flag tells that the byte before was a CR. A `read` that moves no
byte is made again. -/
def doReadLoop (k : Kernel) : Nat → Bool → Bytes → Reader → Outcome
  | 0, _, _, _ => none
  | fuel + 1, gr, message, r =>
    let called := readCall k 1 r
    if toInt called.1 < 0 then some (false, message, called.2.2)
    else
      match called.2.1 with
      | [] => doReadLoop k fuel gr message called.2.2
      | c :: _ =>
        if gr = false then
          if c = CR then doReadLoop k fuel true message called.2.2
          else doReadLoop k fuel false (message ++ [c]) called.2.2
        else if c = LF then some (true, message, called.2.2)
        else doReadLoop k fuel false (message ++ [CR, c]) called.2.2

def doRead (k : Kernel) (fuel : Nat) (r : Reader) : Outcome := doReadLoop k fuel false [] r

/-- A kernel whose `read` returns 0 once the stream is over: the peer has closed the connection. -/
structure Closing extends Splitting where
  read_end (i asked : Nat) : read i asked 0 = 0

/-- The reader returns the bytes before the first CRLF and has taken it with them, or returns
false where there is none before the connection is closed. -/
def StopsAtFirstCrlf (reader : Nat → Reader → Outcome) (r : Reader) : Prop :=
  match cutFirst CR LF r.waiting with
  | some (line, rest) => ∃ fuel calls, reader fuel r = some (true, line, ⟨rest, calls⟩)
  | none => ∃ fuel line calls, reader fuel r = some (false, line, ⟨[], calls⟩)

/-! ### One byte -/

theorem readCall_byte (k : Splitting) (c : UInt8) (s : Bytes) (calls : Nat) :
    readCall k.toKernel 1 ⟨c :: s, calls⟩ = (1, [c], ⟨s, calls + 1⟩) := by
  obtain ⟨n, least, most, -, called⟩ :=
    readCall_moves k Nat.one_pos ⟨c :: s, calls⟩ (Nat.succ_pos _)
  obtain rfl : n = 1 := Nat.le_antisymm most least
  exact called

theorem readCall_closed (k : Closing) (asked calls : Nat) :
    readCall k.toKernel asked ⟨[], calls⟩ = (0, [], ⟨[], calls + 1⟩) := by
  rw [readCall, List.length_nil, k.read_end]
  rfl

theorem tcpRead_byte (k : Splitting) (buf c : UInt8) (s : Bytes) (calls : Nat) :
    tcpRead k.toKernel 1 [buf] ⟨c :: s, calls⟩ = some (true, [c], ⟨s, calls + 1⟩) := by
  rw [tcpRead, readLoop, if_pos (show 0 < [buf].length from Nat.one_pos)]
  simp only [List.length_singleton, Nat.sub_zero, readCall_byte]
  rfl

theorem tcpRead_closed (k : Closing) (buf : UInt8) (calls : Nat) :
    ∃ filled, tcpRead k.toKernel 1 [buf] ⟨[], calls⟩ = some (false, filled, ⟨[], calls + 1⟩) := by
  rw [tcpRead, readLoop, if_pos (show 0 < [buf].length from Nat.one_pos)]
  simp only [List.length_singleton, Nat.sub_zero, readCall_closed]
  exact ⟨_, rfl⟩

/-! ### The loops and the machine -/

/-- What the loop of `http_read_line` has in its line once `front` was taken. -/
def pending (gr : Bool) (front : Bytes) : Bytes := if gr then front ++ [CR] else front

theorem httpReadLineLoop_ended (k : Kernel) (fuel : Nat) (front : Bytes) (c : UInt8) (r : Reader) :
    httpReadLineLoop k (fuel + 1) 2 (front ++ [CR, LF]) c r = some (true, front, r) := by
  rw [httpReadLineLoop, if_pos rfl, List.length_append]
  exact congrArg (fun line => some (true, line, r)) (List.take_left' rfl)

/-- One byte of the loop of `http_read_line`. -/
theorem httpReadLineLoop_byte (k : Splitting) (fuel : Nat) (gr : Bool) (line : Bytes) (b c : UInt8)
    (s : Bytes) (calls : Nat) :
    httpReadLineLoop k.toKernel (fuel + 1) gr.toNat line b ⟨c :: s, calls⟩ =
      httpReadLineLoop k.toKernel fuel (nextState gr.toNat c) (line ++ [c]) c ⟨s, calls + 1⟩ := by
  have going : gr.toNat ≠ 2 := by cases gr <;> decide
  rw [httpReadLineLoop, if_neg going, tcpRead_byte]

theorem httpReadLineLoop_closed (k : Closing) (fuel : Nat) (gr : Bool) (line : Bytes) (b : UInt8)
    (calls : Nat) :
    httpReadLineLoop k.toKernel (fuel + 1) gr.toNat line b ⟨[], calls⟩ =
      some (false, line, ⟨[], calls + 1⟩) := by
  have going : gr.toNat ≠ 2 := by cases gr <;> decide
  obtain ⟨filled, closed⟩ := tcpRead_closed k b calls
  rw [httpReadLineLoop, if_neg going, closed]

/-- The line that the machine finds is the line of the loop. -/
theorem httpReadLineLoop_finds (k : Splitting) {gr : Bool} {s piece rest : Bytes}
    (found : scan CR LF gr s = some (piece, rest)) (front : Bytes) (b : UInt8) (calls : Nat) :
    ∃ fuel after, httpReadLineLoop k.toKernel fuel gr.toNat (pending gr front) b ⟨s, calls⟩ =
      some (true, front ++ piece, ⟨rest, after⟩) := by
  induction s generalizing gr piece front b calls with
  | nil => cases gr <;> cases found
  | cons c s ih =>
    cases gr with
    | false =>
      rw [scan] at found
      split at found
      case isTrue cr =>
        obtain ⟨fuel, after, ran⟩ := ih found front c (calls + 1)
        refine ⟨fuel + 1, after, ?_⟩
        rw [httpReadLineLoop_byte, cr]
        rw [cr] at ran
        exact ran
      case isFalse text =>
        obtain ⟨cut, later, same⟩ := Option.map_eq_some_iff.mp found
        cases same
        obtain ⟨fuel, after, ran⟩ := ih later (front ++ [c]) c (calls + 1)
        refine ⟨fuel + 1, after, ?_⟩
        rw [httpReadLineLoop_byte, show nextState false.toNat c = false.toNat from if_neg text]
        rw [List.append_assoc] at ran
        exact ran
    | true =>
      rw [scan] at found
      split at found
      case isTrue lf =>
        cases found
        refine ⟨2, calls + 1, ?_⟩
        rw [httpReadLineLoop_byte, lf, pending, if_pos rfl, List.append_assoc, List.append_nil]
        exact httpReadLineLoop_ended _ 0 front LF _
      case isFalse text =>
        obtain ⟨cut, later, same⟩ := Option.map_eq_some_iff.mp found
        cases same
        obtain ⟨fuel, after, ran⟩ := ih later (front ++ [CR, c]) c (calls + 1)
        refine ⟨fuel + 1, after, ?_⟩
        rw [httpReadLineLoop_byte, show nextState true.toNat c = false.toNat from if_neg text,
          pending, if_pos rfl, List.append_assoc]
        rw [List.append_assoc] at ran
        exact ran

theorem httpReadLineLoop_misses (k : Closing) {gr : Bool} {s : Bytes}
    (none : scan CR LF gr s = none) (front : Bytes) (b : UInt8) (calls : Nat) :
    ∃ fuel line after, httpReadLineLoop k.toKernel fuel gr.toNat (pending gr front) b ⟨s, calls⟩ =
      some (false, line, ⟨[], after⟩) := by
  induction s generalizing gr front b calls with
  | nil => exact ⟨1, _, _, httpReadLineLoop_closed k 0 gr _ b calls⟩
  | cons c s ih =>
    suffices more : ∃ gr' front', scan CR LF gr' s = .none ∧
        nextState gr.toNat c = gr'.toNat ∧ pending gr front ++ [c] = pending gr' front' by
      obtain ⟨gr', front', later, state, line⟩ := more
      obtain ⟨fuel, last, after, ran⟩ := ih later front' c (calls + 1)
      refine ⟨fuel + 1, last, after, ?_⟩
      rw [httpReadLineLoop_byte, state, line]
      exact ran
    cases gr with
    | false =>
      rw [scan] at none
      split at none
      case isTrue cr => exact ⟨true, front, none, if_pos cr, by rw [cr]; rfl⟩
      case isFalse text => exact ⟨false, front ++ [c], Option.map_eq_none_iff.mp none, if_neg text, rfl⟩
    | true =>
      rw [scan] at none
      split at none
      case isTrue => cases none
      case isFalse text =>
        refine ⟨false, front ++ [CR, c], Option.map_eq_none_iff.mp none, if_neg text, ?_⟩
        rw [pending, if_pos rfl, List.append_assoc]
        rfl

/-! ### The loops of `do_read` -/

theorem doReadLoop_byte (k : Splitting) (fuel : Nat) (gr : Bool) (message : Bytes) (c : UInt8)
    (s : Bytes) (calls : Nat) :
    doReadLoop k.toKernel (fuel + 1) gr message ⟨c :: s, calls⟩ =
      if gr = false then
        if c = CR then doReadLoop k.toKernel fuel true message ⟨s, calls + 1⟩
        else doReadLoop k.toKernel fuel false (message ++ [c]) ⟨s, calls + 1⟩
      else if c = LF then some (true, message, ⟨s, calls + 1⟩)
      else doReadLoop k.toKernel fuel false (message ++ [CR, c]) ⟨s, calls + 1⟩ := by
  have moved : ¬ toInt 1 < 0 := by decide
  rw [doReadLoop]
  simp only [readCall_byte, if_neg moved]

/-- Once the connection is closed the loop never ends. -/
theorem doReadLoop_closed (k : Closing) (fuel : Nat) (gr : Bool) (message : Bytes) (calls : Nat) :
    doReadLoop k.toKernel fuel gr message ⟨[], calls⟩ = none := by
  have moved : ¬ toInt 0 < 0 := by decide
  induction fuel generalizing calls with
  | zero => rfl
  | succ fuel ih =>
    rw [doReadLoop]
    simp only [readCall_closed, if_neg moved]
    exact ih (calls + 1)

theorem doReadLoop_finds (k : Splitting) {gr : Bool} {s piece rest : Bytes}
    (found : scan CR LF gr s = some (piece, rest)) (message : Bytes) (calls : Nat) :
    ∃ fuel after, doReadLoop k.toKernel fuel gr message ⟨s, calls⟩ =
      some (true, message ++ piece, ⟨rest, after⟩) := by
  induction s generalizing gr piece message calls with
  | nil => cases gr <;> cases found
  | cons c s ih =>
    cases gr with
    | false =>
      rw [scan] at found
      split at found
      case isTrue cr =>
        obtain ⟨fuel, after, ran⟩ := ih found message (calls + 1)
        refine ⟨fuel + 1, after, ?_⟩
        rw [doReadLoop_byte, if_pos rfl, if_pos cr]
        exact ran
      case isFalse text =>
        obtain ⟨cut, later, same⟩ := Option.map_eq_some_iff.mp found
        cases same
        obtain ⟨fuel, after, ran⟩ := ih later (message ++ [c]) (calls + 1)
        refine ⟨fuel + 1, after, ?_⟩
        rw [List.append_assoc] at ran
        rw [doReadLoop_byte, if_pos rfl, if_neg text]
        exact ran
    | true =>
      rw [scan] at found
      split at found
      case isTrue lf =>
        cases found
        refine ⟨1, calls + 1, ?_⟩
        rw [doReadLoop_byte, if_neg (by decide), if_pos lf, List.append_nil]
      case isFalse text =>
        obtain ⟨cut, later, same⟩ := Option.map_eq_some_iff.mp found
        cases same
        obtain ⟨fuel, after, ran⟩ := ih later (message ++ [CR, c]) (calls + 1)
        refine ⟨fuel + 1, after, ?_⟩
        rw [List.append_assoc] at ran
        rw [doReadLoop_byte, if_neg (by decide), if_neg text]
        exact ran

/-- The loop has a line only where the machine finds one. -/
theorem doReadLoop_sound (k : Closing) {fuel : Nat} {gr : Bool} {message line : Bytes} {ok : Bool}
    {r after : Reader} (ran : doReadLoop k.toKernel fuel gr message r = some (ok, line, after)) :
    ok = true ∧ ∃ piece, scan CR LF gr r.waiting = some (piece, after.waiting) ∧
      line = message ++ piece := by
  induction fuel generalizing gr message r with
  | zero => cases ran
  | succ fuel ih =>
    obtain ⟨s, calls⟩ := r
    cases s with
    | nil =>
      rw [doReadLoop_closed] at ran
      cases ran
    | cons c s =>
      rw [doReadLoop_byte] at ran
      cases gr with
      | false =>
        rw [if_pos rfl] at ran
        by_cases cr : c = CR
        · rw [if_pos cr] at ran
          obtain ⟨done, piece, found, same⟩ := ih ran
          refine ⟨done, piece, ?_, same⟩
          rw [scan, if_pos cr]
          exact found
        · rw [if_neg cr] at ran
          obtain ⟨done, piece, found, same⟩ := ih ran
          refine ⟨done, c :: piece, ?_, by rw [same, List.append_assoc]; rfl⟩
          rw [scan, if_neg cr, found]
          rfl
      | true =>
        rw [if_neg (by decide)] at ran
        by_cases lf : c = LF
        · rw [if_pos lf] at ran
          cases ran
          refine ⟨rfl, [], ?_, (List.append_nil _).symm⟩
          rw [scan, if_pos lf]
        · rw [if_neg lf] at ran
          obtain ⟨done, piece, found, same⟩ := ih ran
          refine ⟨done, CR :: c :: piece, ?_, by rw [same, List.append_assoc]; rfl⟩
          rw [scan, if_neg lf, found]
          rfl

/-! ### Both readers -/

theorem httpReadLineLoop_mono (k : Kernel) {fuel : Nat} (more : Nat) {state : Nat} {line : Bytes}
    {c : UInt8} {r : Reader} {x : Bool × Bytes × Reader}
    (ran : httpReadLineLoop k fuel state line c r = some x) :
    httpReadLineLoop k (fuel + more) state line c r = some x := by
  induction fuel generalizing state line c r with
  | zero => cases ran
  | succ fuel ih =>
    rw [Nat.add_right_comm]
    rw [httpReadLineLoop] at ran ⊢
    by_cases ended : state = 2
    · rw [if_pos ended] at ran ⊢
      exact ran
    · rw [if_neg ended] at ran ⊢
      generalize tcpRead k 1 [c] r = got at ran ⊢
      match got, ran with
      | some (true, _ :: _, _), ran => exact ih ran
      | some (true, [], _), ran => exact ran
      | some (false, _, _), ran => exact ran

theorem httpReadLine_unique (k : Kernel) {r : Reader} {fuel fuel' : Nat}
    {x y : Bool × Bytes × Reader} (one : httpReadLine k fuel r = some x)
    (other : httpReadLine k fuel' r = some y) : x = y := by
  have first := httpReadLineLoop_mono k fuel' one
  have second := httpReadLineLoop_mono k fuel other
  rw [Nat.add_comm] at second
  exact Option.some.inj (first.symm.trans second)

/-- `http_read_line` returns a line exactly where the machine finds it. -/
theorem httpReadLine_eq_true_iff (k : Closing) (r : Reader) (line rest : Bytes) :
    (∃ fuel calls, httpReadLine k.toKernel fuel r = some (true, line, ⟨rest, calls⟩)) ↔
      scan CR LF false r.waiting = some (line, rest) := by
  constructor
  · rintro ⟨fuel, calls, ran⟩
    cases found : scan CR LF false r.waiting with
    | none =>
      obtain ⟨fuel', _, _, missed⟩ := httpReadLineLoop_misses k found [] 0 r.calls
      cases httpReadLine_unique k.toKernel ran missed
    | some cut =>
      obtain ⟨fuel', _, other⟩ := httpReadLineLoop_finds k.toSplitting found [] 0 r.calls
      cases httpReadLine_unique k.toKernel ran other
      rfl
  · intro found
    obtain ⟨fuel, calls, ran⟩ := httpReadLineLoop_finds k.toSplitting found [] 0 r.calls
    exact ⟨fuel, calls, ran⟩

/-- `do_read` returns the same lines. -/
theorem doRead_eq_true_iff (k : Closing) (r : Reader) (line rest : Bytes) :
    (∃ fuel calls, doRead k.toKernel fuel r = some (true, line, ⟨rest, calls⟩)) ↔
      scan CR LF false r.waiting = some (line, rest) := by
  constructor
  · rintro ⟨fuel, calls, ran⟩
    obtain ⟨-, piece, found, rfl⟩ := doReadLoop_sound k ran
    exact found
  · intro found
    obtain ⟨fuel, calls, ran⟩ := doReadLoop_finds k.toSplitting found [] r.calls
    exact ⟨fuel, calls, ran⟩

theorem doRead_ne_false (k : Closing) (fuel : Nat) (r after : Reader) (line : Bytes) :
    doRead k.toKernel fuel r ≠ some (false, line, after) := by
  intro ran
  cases (doReadLoop_sound k ran).1

theorem scan_eq_none_of_cutFirst {s : Bytes} (none : cutFirst CR LF s = none) :
    scan CR LF false s = .none := by
  cases found : scan CR LF false s with
  | none => rfl
  | some cut =>
    have some := cutFirst_isSome (a := CR) (b := LF) cut.1 cut.2
    rw [← (scan_sound s).1 _ _ found, none] at some
    cases some

/-- `http_read_line` misses the first CRLF only after an odd number of CR. -/
theorem httpReadLine_stops_iff (k : Closing) (r : Reader) :
    StopsAtFirstCrlf (httpReadLine k.toKernel) r ↔
      ∀ line rest, cutFirst CR LF r.waiting = some (line, rest) → Paired CR line := by
  rw [StopsAtFirstCrlf]
  cases cut : cutFirst CR LF r.waiting with
  | none =>
    constructor
    · intro _ _ _ found
      cases found
    · exact fun _ => httpReadLineLoop_misses k (scan_eq_none_of_cutFirst cut) [] 0 r.calls
  | some found =>
    refine (httpReadLine_eq_true_iff k r _ _).trans ((scan_eq_iff (by decide) cut).trans ?_)
    constructor
    · rintro paired _ _ ⟨⟩
      exact paired
    · exact fun paired => paired _ _ rfl

/-- `do_read` also never returns where there is no CRLF. -/
theorem doRead_stops_iff (k : Closing) (r : Reader) :
    StopsAtFirstCrlf (doRead k.toKernel) r ↔
      ∃ line rest, cutFirst CR LF r.waiting = some (line, rest) ∧ Paired CR line := by
  rw [StopsAtFirstCrlf]
  cases cut : cutFirst CR LF r.waiting with
  | none =>
    constructor
    · rintro ⟨fuel, line, calls, ran⟩
      exact absurd ran (doRead_ne_false k fuel r _ line)
    · rintro ⟨_, _, found, _⟩
      cases found
  | some found =>
    refine (doRead_eq_true_iff k r _ _).trans ((scan_eq_iff (by decide) cut).trans ?_)
    constructor
    · exact fun paired => ⟨_, _, rfl, paired⟩
    · rintro ⟨_, _, ⟨⟩, paired⟩
      exact paired

/-- Both readers stop at the first CRLF exactly where there is one and the number of CR in
front of its LF is odd. -/
theorem readers_stop_iff (k : Closing) (r : Reader) :
    (StopsAtFirstCrlf (httpReadLine k.toKernel) r ∧ StopsAtFirstCrlf (doRead k.toKernel) r) ↔
      ∃ line rest, cutFirst CR LF r.waiting = some (line, rest) ∧ Paired CR line := by
  rw [httpReadLine_stops_iff, doRead_stops_iff]
  refine and_iff_right_of_imp ?_
  rintro ⟨line, rest, cut, paired⟩ line' rest' cut'
  cases cut.symm.trans cut'
  exact paired

/-- As much as there is, and the end of the stream after it. -/
def untilClosed : Closing where
  toSplitting := byteByByte
  read_end _ _ := by simp [byteByByte]

/-- A line that ends with CR CR LF is missed by both readers, and a connection that is closed
without a line by `do_read`. -/
theorem not_readers_stop :
    ¬ StopsAtFirstCrlf (httpReadLine untilClosed.toKernel) ⟨[71, CR, CR, LF], 0⟩ ∧
      ¬ StopsAtFirstCrlf (doRead untilClosed.toKernel) ⟨[71, CR, CR, LF], 0⟩ ∧
      ¬ StopsAtFirstCrlf (doRead untilClosed.toKernel) ⟨[71], 0⟩ := by
  rw [httpReadLine_stops_iff, doRead_stops_iff, doRead_stops_iff]
  refine ⟨fun stops => ?_, ?_, ?_⟩
  · exact absurd (stops [71, CR] [] rfl) (by decide)
  · rintro ⟨line, rest, ⟨⟩, paired⟩
    exact absurd paired (by decide)
  · rintro ⟨line, rest, ⟨⟩, _⟩

end LineReader
