import PennCloud.EmailReply
import PennCloud.MailRelay
import PennCloud.UnorderedMap

/-!
# Requests of the front end

`Request::http_read` of `request.h`: the head of a request line by line, the session
that its cookies name, and its body. The cookies are what stands between semicolons, the
blank after a semicolon included.
-/

namespace HttpRequest

open Text UnorderedMap TcpOperation LineReader PairDelimiter EmailReply
open MailRelay (chars scan_chars crlf)

/-- `Request`, with what the handlers of mails read of it in front. -/
structure Request extends EmailReply.Request where
  httpVersion : Str
  cookies : UMap Str Str
  contentLength : Nat

/-- What a request finds: the live sessions, the value in memory where `content_length_` is left
uninitialised, and the sizes of arrays that `new` can give. -/
structure Process where
  cookieMp : UMap Nat Str
  uninitialised : Nat
  allocates : Nat → Bool

/-- `http_read_line` on what a client sends before it closes the connection. -/
def readLine (s : Str) : Option (Str × Str) := scan '\r' '\n' false s

/-- `atoi`: what `strtol` reads, as an `int`. -/
def atoi (s : Str) : Int :=
  let value : Int := digitsValue (signedDigits s).2
  let number := if (signedDigits s).1 then -value else value
  toInt (max (-(2 ^ 63)) (min number (2 ^ 63 - 1)))

/-- One piece of a Cookie header, kept where it has a name and a value. -/
def addCookie (cookies : UMap Str Str) (piece : Str) : UMap Str Str :=
  match split piece '=' with
  | [name, value] => cookies.insert name value
  | _ => cookies

/-- The body of the loop over the lines of the head. -/
def headerLine (req : Request) (line : Str) : Request :=
  if line.take 8 = "Cookie: ".toList then
    { req with cookies := (split (line.drop 8) ';').foldl addCookie req.cookies }
  else if line.take 16 = "Content-Length: ".toList then
    { req with contentLength := toId (atoi (line.drop 16)) }
  else req

/-- The loop over the lines of the head, which begins with the first line itself. -/
def headerLoop : Nat → Request → Str → Str → Option (Request × Str)
  | 0, _, _, _ => none
  | fuel + 1, req, line, s =>
    if line = [] then some (req, s)
    else (readLine s).bind fun next => headerLoop fuel (headerLine req line) next.1 next.2

/-- The request before its headers are read. -/
def start (p : Process) (method path httpVersion : Str) : Request where
  username := []
  method := method
  path := path
  body := []
  httpVersion := httpVersion
  cookies := ∅
  contentLength := p.uninitialised

/-- The user of the session, `none` where `stoull` throws. -/
def signedIn (p : Process) (req : Request) : Option Request :=
  match req.cookies.lookup "sessionid".toList with
  | none => some req
  | some value => (stoull64 value).map fun number =>
    { req with username := (p.cookieMp.lookup number).getD [] }

/-- The body, `none` where `new` throws. Where fewer bytes come `http_read` returns false. -/
def readBody (p : Process) (req : Request) (s : Str) : Option (Option Request) :=
  if req.method = "POST".toList ∧ 0 < req.contentLength then
    if p.allocates ((req.contentLength + 1) % 2 ^ 64) then
      some (if req.contentLength ≤ s.length then
        some { req with body := s.take req.contentLength } else none)
    else none
  else some (some req)

/-- `http_read`: the request, or nothing where it returns false. It is `none` where it throws. -/
def httpRead (p : Process) (stream : Str) : Option (Option Request) :=
  match readLine stream with
  | none => some none
  | some (line, s) =>
    match split line ' ' with
    | [method, path, httpVersion] =>
      match headerLoop (s.length + 1) (start p method path httpVersion) line s with
      | none => some none
      | some (req, rest) => (signedIn p req).bind fun req => readBody p req rest
    | _ => some none

/-! ### The head -/

/-- The lines up to an empty one, and what follows it. -/
inductive Head : Str → List Str → Str → Prop where
  | last {s rest : Str} (found : readLine s = some ([], rest)) : Head s [] rest
  | line {s line t rest : Str} {later : List Str} (found : readLine s = some (line, t))
      (more : line ≠ []) (after : Head t later rest) : Head s (line :: later) rest

theorem readLine_of_httpReadLine {k : Closing} {r : Reader} {line rest : Bytes} {fuel calls : Nat}
    (ran : httpReadLine k.toKernel fuel r = some (true, line, ⟨rest, calls⟩)) :
    readLine (chars r.waiting) = some (chars line, chars rest) := by
  have found := (httpReadLine_eq_true_iff k r line rest).mp ⟨fuel, calls, ran⟩
  rw [readLine, scan_chars, found]
  rfl

theorem readLine_length {s line rest : Str} (found : readLine s = some (line, rest)) :
    rest.length < s.length := by
  rw [(scan_sound s).1 line rest found]
  simp only [List.length_append, List.length_cons]
  omega

theorem readLine_line {line : Str} (plain : '\r' ∉ line) (rest : Str) :
    readLine (line ++ (crlf ++ rest)) = some (line, rest) := by
  induction line with
  | nil => rfl
  | cons c line ih =>
    obtain ⟨other, later⟩ := not_or.mp (List.mem_cons.not.mp plain)
    rw [List.cons_append, readLine, scan, if_neg (Ne.symm other)]
    exact congrArg (Option.map _) (ih later)

theorem headerLoop_complete {s rest : Str} {lines : List Str} (head : Head s lines rest)
    {line : Str} (more : line ≠ []) (req : Request) {fuel : Nat} (enough : s.length < fuel) :
    headerLoop fuel req line s = some ((line :: lines).foldl headerLine req, rest) := by
  induction head generalizing line req fuel with
  | last found =>
    have shorter := readLine_length found
    obtain ⟨fuel, rfl⟩ : ∃ n, fuel = n + 2 := ⟨fuel - 2, by omega⟩
    rw [headerLoop, if_neg more, found]
    rfl
  | line found nonempty after ih =>
    have shorter := readLine_length found
    obtain ⟨fuel, rfl⟩ : ∃ n, fuel = n + 1 := ⟨fuel - 1, by omega⟩
    rw [headerLoop, if_neg more, found]
    exact ih nonempty (headerLine req line) (by omega)

theorem headerLoop_sound {fuel : Nat} {req last : Request} {line s rest : Str} (more : line ≠ [])
    (ran : headerLoop fuel req line s = some (last, rest)) :
    ∃ lines, Head s lines rest ∧ last = (line :: lines).foldl headerLine req := by
  induction fuel generalizing req line s with
  | zero => cases ran
  | succ fuel ih =>
    rw [headerLoop, if_neg more] at ran
    obtain ⟨⟨next, t⟩, found, later⟩ := Option.bind_eq_some_iff.mp ran
    by_cases done : next = []
    · subst done
      cases fuel with
      | zero => cases later
      | succ fuel =>
        cases later
        exact ⟨[], .last found, rfl⟩
    · obtain ⟨lines, head, same⟩ := ih done later
      exact ⟨next :: lines, .line found done head, same⟩

/-- A header changes only the cookies and the length of the body. -/
theorem headerLine_keeps (req : Request) (line : Str) :
    (headerLine req line).toRequest = req.toRequest := by
  rw [headerLine]
  split
  · rfl
  split <;> rfl

theorem foldl_keeps (lines : List Str) (req : Request) :
    (lines.foldl headerLine req).toRequest = req.toRequest := by
  induction lines generalizing req with
  | nil => rfl
  | cons line lines ih => rw [List.foldl_cons, ih, headerLine_keeps]

/-- What becomes of a head that is read to its end. -/
theorem httpRead_head (p : Process) {stream line s rest method path httpVersion : Str}
    {lines : List Str} (first : readLine stream = some (line, s))
    (words : split line ' ' = [method, path, httpVersion]) (head : Head s lines rest) :
    httpRead p stream =
      (signedIn p ((line :: lines).foldl headerLine (start p method path httpVersion))).bind
        fun req => readBody p req rest := by
  have more : line ≠ [] := by
    rintro rfl
    cases words
  have read := headerLoop_complete head more (start p method path httpVersion)
    (Nat.lt_succ_self s.length)
  simp only [httpRead, first, words, read]

end HttpRequest
