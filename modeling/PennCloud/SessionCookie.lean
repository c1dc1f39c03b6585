import PennCloud.HttpRequest

/-!
# The session cookie

Which user a well-formed request is from. Only the first cookie of the header has
a name without a blank in front.
-/

namespace HttpRequest

open Text UnorderedMap TcpOperation EmailReply
open MailRelay (crlf)

/-- A request as a client means it. -/
structure Message where
  method : Str
  path : Str
  httpVersion : Str
  fields : List Str
  body : Str

def Message.firstLine (m : Message) : Str := m.method ++ ' ' :: (m.path ++ ' ' :: m.httpVersion)

/-- What goes over the connection. -/
def Message.text (m : Message) : Str :=
  (m.firstLine :: m.fields).flatMap (fun line => line ++ crlf) ++ (crlf ++ m.body)

def contentLengthField (body : Str) : Str := "Content-Length: ".toList ++ toDecimal body.length

/-- The first line has three words, no line has a CR in it, and a request with a body says how long
that is. -/
structure Message.WellFormed (m : Message) : Prop where
  words : ∀ word ∈ [m.method, m.path, m.httpVersion], word ≠ [] ∧ ' ' ∉ word ∧ '\r' ∉ word
  name : ':' ∉ m.method
  fields : ∀ field ∈ m.fields, field ≠ [] ∧ '\r' ∉ field
  framed : ∀ field ∈ m.fields, "Content-Length: ".toList <+: field →
    field = contentLengthField m.body
  posted : m.method = "POST".toList → contentLengthField m.body ∈ m.fields
  small : m.body.length ≤ INT_MAX

/-- A cookie as a browser sends it. -/
def pairText (cookie : Str × Str) : Str := cookie.1 ++ '=' :: cookie.2

def cookieList : List (Str × Str) → Str
  | [] => []
  | [cookie] => pairText cookie
  | cookie :: later => pairText cookie ++ ';' :: ' ' :: cookieList later

def cookieField (cookies : List (Str × Str)) : Str := "Cookie: ".toList ++ cookieList cookies

/-- Neither the name nor the value has a separator in it. -/
def Separable (cookie : Str × Str) : Prop :=
  (';' ∉ cookie.1 ∧ '=' ∉ cookie.1) ∧ ';' ∉ cookie.2 ∧ '=' ∉ cookie.2

instance (cookie : Str × Str) : Decidable (Separable cookie) := inferInstanceAs (Decidable (_ ∧ _))

/-- The user of a live session, and no one otherwise. -/
def userOf (p : Process) (n : Nat) : Str := (p.cookieMp.lookup n).getD []

/-! The cookies of a header -/

theorem split_cookieList {cookie : Str × Str} {later : List (Str × Str)}
    (separable : ∀ q ∈ cookie :: later, Separable q) {front : Str} (plain : ';' ∉ front) :
    split (front ++ cookieList (cookie :: later)) ';' =
      (front ++ pairText cookie) :: later.map fun q => ' ' :: pairText q := by
  induction later generalizing cookie front with
  | nil =>
    obtain ⟨⟨name, -⟩, value, -⟩ := separable cookie List.mem_cons_self
    exact split_last (by simp [cookieList, pairText, plain, name, value]) (by simp [cookieList, pairText])
  | cons next later ih =>
    obtain ⟨⟨name, -⟩, value, -⟩ := separable cookie List.mem_cons_self
    have first : ';' ∉ front ++ pairText cookie := by simp [pairText, plain, name, value]
    have rest := ih (fun q mem => separable q (List.mem_cons_of_mem _ mem))
      (by simp : ';' ∉ [' '])
    rw [cookieList, ← List.append_assoc, split_line first, List.map_cons]
    exact congrArg ((front ++ pairText cookie) :: ·) rest
    · exact List.cons_ne_nil _ _

/-- A pair is kept under its name, unless the value is empty. -/
theorem addCookie_pair (cookies : UMap Str Str) {name value : Str} (plain : '=' ∉ name)
    (last : '=' ∉ value) :
    addCookie cookies (name ++ '=' :: value) =
      if value = [] then cookies else cookies.insert name value := by
  rw [addCookie, split_line plain]
  by_cases empty : value = []
  · rw [if_pos empty, empty]
    rfl
  · rw [if_neg empty, split_last last empty]

theorem lookup_addCookie {cookies : UMap Str Str} {name value key : Str} (plain : '=' ∉ name)
    (last : '=' ∉ value) (other : key ≠ name) :
    (addCookie cookies (name ++ '=' :: value)).lookup key = cookies.lookup key := by
  rw [addCookie_pair cookies plain last]
  split
  · rfl
  · exact AList.lookup_insert_ne other

/-- A name without a blank in front is not among the later cookies. -/
theorem lookup_later {later : List (Str × Str)} (separable : ∀ q ∈ later, Separable q) {key : Str}
    (dark : key.head? ≠ some ' ') (cookies : UMap Str Str) :
    ((later.map fun q => ' ' :: pairText q).foldl addCookie cookies).lookup key =
      cookies.lookup key := by
  induction later generalizing cookies with
  | nil => rfl
  | cons cookie later ih =>
    obtain ⟨here, others⟩ := List.forall_mem_cons.mp separable
    obtain ⟨⟨-, plain⟩, -, last⟩ := here
    have other : key ≠ ' ' :: cookie.1 := by
      rintro rfl
      exact dark rfl
    rw [List.map_cons, List.foldl_cons, ih others]
    exact lookup_addCookie (by simp [plain]) last other

/-- The session is found where its cookie is the first. -/
theorem lookup_sessionid_first {n : Str} {later : List (Str × Str)} (some : n ≠ [])
    (separable : ∀ q ∈ ("sessionid".toList, n) :: later, Separable q) :
    ((split (cookieList (("sessionid".toList, n) :: later)) ';').foldl addCookie ∅).lookup
      "sessionid".toList = .some n := by
  obtain ⟨⟨⟨-, plain⟩, -, last⟩, others⟩ := List.forall_mem_cons.mp separable
  have pieces := split_cookieList separable (List.not_mem_nil : ';' ∉ [])
  rw [List.nil_append, List.nil_append] at pieces
  rw [pieces, List.foldl_cons, lookup_later others (by decide), pairText,
    addCookie_pair ∅ plain last, if_neg some, AList.lookup_insert]

theorem lookup_sessionid_later {cookie : Str × Str} {later : List (Str × Str)}
    (separable : ∀ q ∈ cookie :: later, Separable q) (other : cookie.1 ≠ "sessionid".toList) :
    ((split (cookieList (cookie :: later)) ';').foldl addCookie ∅).lookup "sessionid".toList =
      none := by
  obtain ⟨⟨⟨-, plain⟩, -, last⟩, others⟩ := List.forall_mem_cons.mp separable
  have pieces := split_cookieList separable (List.not_mem_nil : ';' ∉ [])
  rw [List.nil_append, List.nil_append] at pieces
  rw [pieces, List.foldl_cons, lookup_later others (by decide), pairText,
    lookup_addCookie plain last (Ne.symm other)]
  rfl

/-! The lines of the head -/

/-- A line that is no Cookie header leaves the cookies. -/
theorem headerLine_other {req : Request} {line : Str} (other : ¬ "Cookie: ".toList <+: line) :
    (headerLine req line).cookies = req.cookies := by
  have eight : "Cookie: ".toList.length = 8 := by decide
  rw [List.prefix_iff_eq_take, eight] at other
  rw [headerLine, if_neg (Ne.symm other)]
  split <;> rfl

theorem foldl_other {lines : List Str} (other : ∀ line ∈ lines, ¬ "Cookie: ".toList <+: line)
    (req : Request) : (lines.foldl headerLine req).cookies = req.cookies := by
  induction lines generalizing req with
  | nil => rfl
  | cons line lines ih =>
    obtain ⟨here, later⟩ := List.forall_mem_cons.mp other
    rw [List.foldl_cons, ih later, headerLine_other here]

theorem headerLine_cookie (req : Request) (cookies : List (Str × Str)) :
    (headerLine req (cookieField cookies)).cookies =
      (split (cookieList cookies) ';').foldl addCookie req.cookies := by
  have eight : "Cookie: ".toList.length = 8 := by decide
  have front : (cookieField cookies).take 8 = "Cookie: ".toList := List.take_left' eight
  have back : (cookieField cookies).drop 8 = cookieList cookies := List.drop_left' eight
  rw [headerLine, if_pos front, back]

/-- The number of a Content-Length header is the length that was written into it. -/
theorem toId_atoi {n : Nat} (small : n ≤ INT_MAX) : toId (atoi (toDecimal n)) = n := by
  rw [INT_MAX] at small
  have value : atoi (toDecimal n) = n := by
    simp only [atoi, signedDigits_toDecimal, digitsValue_toDecimal, Bool.false_eq_true, if_false]
    rw [min_eq_left (by omega), max_eq_right (by omega), toInt_count (by omega)]
  rw [value, toId]
  omega

theorem headerLine_length (req : Request) {body : Str} (small : body.length ≤ INT_MAX) :
    (headerLine req (contentLengthField body)).contentLength = body.length := by
  have sixteen : "Content-Length: ".toList.length = 16 := by decide
  have front : (contentLengthField body).take 16 = "Content-Length: ".toList :=
    List.take_left' sixteen
  have back : (contentLengthField body).drop 16 = toDecimal body.length := List.drop_left' sixteen
  have other : (contentLengthField body).take 8 ≠ "Cookie: ".toList := by
    intro same
    have eight : ((contentLengthField body).take 16).take 8 = (contentLengthField body).take 8 :=
      List.take_take
    rw [same, front] at eight
    exact absurd eight (by decide)
  rw [headerLine, if_neg other, if_pos front, back]
  exact toId_atoi small

theorem headerLine_length_other {req : Request} {line : Str}
    (other : ¬ "Content-Length: ".toList <+: line) :
    (headerLine req line).contentLength = req.contentLength := by
  have sixteen : "Content-Length: ".toList.length = 16 := by decide
  rw [List.prefix_iff_eq_take, sixteen] at other
  rw [headerLine]
  split
  · rfl
  · rw [if_neg (Ne.symm other)]

section Length

variable {lines : List Str} {body : Str} (small : body.length ≤ INT_MAX)
  (framed : ∀ line ∈ lines, "Content-Length: ".toList <+: line → line = contentLengthField body)
include small framed

/-- Once the length is known, the other headers do not change it. -/
theorem foldl_length_known {req : Request} (known : req.contentLength = body.length) :
    (lines.foldl headerLine req).contentLength = body.length := by
  induction lines generalizing req with
  | nil => exact known
  | cons line lines ih =>
    obtain ⟨here, later⟩ := List.forall_mem_cons.mp framed
    refine ih later ?_
    by_cases length : "Content-Length: ".toList <+: line
    · rw [here length]
      exact headerLine_length req small
    · rw [headerLine_length_other length]
      exact known

theorem foldl_length (posted : contentLengthField body ∈ lines) (req : Request) :
    (lines.foldl headerLine req).contentLength = body.length := by
  induction lines generalizing req with
  | nil => cases posted
  | cons line lines ih =>
    obtain ⟨-, later⟩ := List.forall_mem_cons.mp framed
    rcases List.mem_cons.mp posted with rfl | there
    · exact foldl_length_known small later (headerLine_length req small)
    · exact ih later there (headerLine req line)

end Length

/-! The message on the connection -/

theorem head_fields {fields : List Str} (lines : ∀ field ∈ fields, field ≠ [] ∧ '\r' ∉ field)
    (body : Str) :
    Head (fields.flatMap (fun line => line ++ crlf) ++ (crlf ++ body)) fields body := by
  induction fields with
  | nil =>
    have found : readLine ([] ++ (crlf ++ body)) = some ([], body) := readLine_line (by simp) body
    exact .last found
  | cons field fields ih =>
    obtain ⟨⟨more, plain⟩, later⟩ := List.forall_mem_cons.mp lines
    rw [List.flatMap_cons, List.append_assoc, List.append_assoc]
    exact .line (readLine_line plain _) more (ih later)

section Message

variable {m : Message} (wellFormed : m.WellFormed)
include wellFormed

theorem split_firstLine : split m.firstLine ' ' = [m.method, m.path, m.httpVersion] := by
  obtain ⟨⟨-, first, -⟩, ⟨-, second, -⟩, ⟨more, third, -⟩⟩ :
      (m.method ≠ [] ∧ ' ' ∉ m.method ∧ '\r' ∉ m.method) ∧
        (m.path ≠ [] ∧ ' ' ∉ m.path ∧ '\r' ∉ m.path) ∧
        (m.httpVersion ≠ [] ∧ ' ' ∉ m.httpVersion ∧ '\r' ∉ m.httpVersion) :=
    ⟨wellFormed.words _ (by simp), wellFormed.words _ (by simp), wellFormed.words _ (by simp)⟩
  rw [Message.firstLine, split_line first, split_line second, split_last third more]

/-- The first line is no header. -/
theorem firstLine_no_header {name : Str} (plain : ' ' ∉ name) (colon : ':' ∈ name) :
    ¬ name ++ [' '] <+: m.firstLine := by
  rintro ⟨t, same⟩
  have words := split_firstLine wellFormed
  rw [← same, List.append_assoc, List.singleton_append, split_line plain] at words
  obtain ⟨rfl, -⟩ := List.cons.inj words
  exact wellFormed.name colon

theorem httpRead_message (p : Process) : httpRead p m.text =
    (signedIn p ((m.firstLine :: m.fields).foldl headerLine
      (start p m.method m.path m.httpVersion))).bind fun req => readBody p req m.body := by
  have plain : '\r' ∉ m.firstLine := by
    have words := fun word mem => (wellFormed.words word mem).2.2
    simp only [List.forall_mem_cons] at words
    simp [Message.firstLine, words]
  have first : readLine m.text = some (m.firstLine,
      m.fields.flatMap (fun line => line ++ crlf) ++ (crlf ++ m.body)) := by
    rw [Message.text, List.flatMap_cons, List.append_assoc, List.append_assoc]
    exact readLine_line plain _
  exact httpRead_head p first (split_firstLine wellFormed) (head_fields wellFormed.fields m.body)

/-- The body of a well-formed request is read, and the user stays. -/
theorem readBody_message {p : Process} {req : Request} (method : req.method = m.method)
    (length : m.method = "POST".toList → req.contentLength = m.body.length)
    (memory : m.method = "POST".toList → p.allocates (m.body.length + 1) = true) :
    ∃ last, readBody p req m.body = some (some last) ∧ last.username = req.username := by
  rw [readBody]
  split
  · rename_i posted
    have small := wellFormed.small
    have same := length (method.symm.trans posted.1)
    rw [INT_MAX] at small
    have array : (req.contentLength + 1) % 2 ^ 64 = m.body.length + 1 := by
      rw [same]
      exact Nat.mod_eq_of_lt (by omega)
    rw [array, if_pos (memory (method.symm.trans posted.1)), if_pos (Nat.le_of_eq same)]
    exact ⟨_, rfl, rfl⟩
  · exact ⟨req, rfl, rfl⟩

end Message

/-- A Cookie header anywhere among the others gives the request its cookies. -/
theorem foldl_cookieField {first : Str} {front back : List Str} {cookies : List (Str × Str)}
    (start : ¬ "Cookie: ".toList <+: first)
    (only : ∀ field ∈ front ++ back, ¬ "Cookie: ".toList <+: field) (req : Request) :
    ((first :: (front ++ cookieField cookies :: back)).foldl headerLine req).cookies =
      (split (cookieList cookies) ';').foldl addCookie req.cookies := by
  have before : ∀ field ∈ first :: front, ¬ "Cookie: ".toList <+: field :=
    List.forall_mem_cons.mpr ⟨start, fun field mem => only field (List.mem_append_left _ mem)⟩
  have after := fun field mem => only field (List.mem_append_right front mem)
  rw [← List.cons_append, List.foldl_append, List.foldl_cons, foldl_other after,
    headerLine_cookie, foldl_other before]

theorem toDecimal_separable (n : Nat) : ';' ∉ toDecimal n ∧ '=' ∉ toDecimal n := by
  constructor
  · intro mem
    exact absurd (isDigit_of_mem_toDecimal mem) (by decide)
  · intro mem
    exact absurd (isDigit_of_mem_toDecimal mem) (by decide)

section Session

variable {p : Process} {m : Message} (wellFormed : m.WellFormed)
include wellFormed

/-- The request after the headers of a well-formed message. -/
theorem foldl_message (method : m.method = "POST".toList) :
    ((m.firstLine :: m.fields).foldl headerLine
      (start p m.method m.path m.httpVersion)).contentLength = m.body.length := by
  have noHeader : ¬ "Content-Length:".toList ++ [' '] <+: m.firstLine :=
    firstLine_no_header wellFormed (by decide) (by decide)
  have framed : ∀ field ∈ m.firstLine :: m.fields, "Content-Length: ".toList <+: field →
      field = contentLengthField m.body :=
    List.forall_mem_cons.mpr ⟨fun header => absurd header noHeader, wellFormed.framed⟩
  exact foldl_length wellFormed.small framed
    (List.mem_cons_of_mem _ (wellFormed.posted method)) _

/-- A well-formed message is read with the user that its cookies name. -/
theorem httpRead_signedIn
    (memory : m.method = "POST".toList → p.allocates (m.body.length + 1) = true) {req : Request}
    (signed : signedIn p ((m.firstLine :: m.fields).foldl headerLine
      (start p m.method m.path m.httpVersion)) = some req) :
    ∃ last, httpRead p m.text = some (some last) ∧ last.username = req.username := by
  have kept := foldl_keeps (m.firstLine :: m.fields) (start p m.method m.path m.httpVersion)
  have length := foldl_message (p := p) wellFormed
  rw [httpRead_message wellFormed, signed]
  generalize (m.firstLine :: m.fields).foldl headerLine
    (start p m.method m.path m.httpVersion) = read at signed kept length
  have same : req.method = read.method ∧ req.contentLength = read.contentLength := by
    rw [signedIn] at signed
    split at signed
    · cases signed
      exact ⟨rfl, rfl⟩
    · obtain ⟨number, -, rfl⟩ := Option.map_eq_some_iff.mp signed
      exact ⟨rfl, rfl⟩
  have method : read.method = m.method := congrArg EmailReply.Request.method kept
  refine readBody_message wellFormed (same.1.trans method) ?_ memory
  intro posted
  exact same.2.trans (length posted)

end Session

/-- The session cookie of a well-formed request is found exactly where it is the first of the
cookies, or where it does not name a user. -/
theorem session_found_iff (p : Process) (m : Message) (wellFormed : m.WellFormed)
    (front back : List Str) (earlier later : List (Str × Str)) (n : Nat)
    (fields : m.fields =
      front ++ cookieField (earlier ++ ("sessionid".toList, toDecimal n) :: later) :: back)
    (only : ∀ field ∈ front ++ back, ¬ "Cookie: ".toList <+: field)
    (others : ∀ cookie ∈ earlier ++ later, cookie.1 ≠ "sessionid".toList ∧ Separable cookie)
    (small : n < 2 ^ 64)
    (memory : m.method = "POST".toList → p.allocates (m.body.length + 1) = true) :
    (∃ req, httpRead p m.text = some (some req) ∧ req.username = userOf p n) ↔
      earlier = [] ∨ userOf p n = [] := by
  have session : Separable ("sessionid".toList, toDecimal n) :=
    ⟨⟨(by decide : ';' ∉ "sessionid".toList), (by decide : '=' ∉ "sessionid".toList)⟩,
      toDecimal_separable n⟩
  have separable : ∀ cookie ∈ earlier ++ ("sessionid".toList, toDecimal n) :: later,
      Separable cookie := by
    intro cookie mem
    rcases List.mem_append.mp mem with there | there
    · exact (others cookie (List.mem_append_left _ there)).2
    rcases List.mem_cons.mp there with rfl | there
    · exact session
    · exact (others cookie (List.mem_append_right _ there)).2
  have noCookie : ¬ "Cookie:".toList ++ [' '] <+: m.firstLine :=
    firstLine_no_header wellFormed (by decide) (by decide)
  have cookies : ((m.firstLine :: (front ++
      cookieField (earlier ++ ("sessionid".toList, toDecimal n) :: later) :: back)).foldl headerLine
      (start p m.method m.path m.httpVersion)).cookies = _ :=
    foldl_cookieField noCookie only (start p m.method m.path m.httpVersion)
  have kept := foldl_keeps (m.firstLine :: m.fields) (start p m.method m.path m.httpVersion)
  have read : ∀ req, signedIn p ((m.firstLine :: m.fields).foldl headerLine
      (start p m.method m.path m.httpVersion)) = some req →
      ∃ last, httpRead p m.text = some (some last) ∧ last.username = req.username :=
    fun _ => httpRead_signedIn wellFormed memory
  rw [← fields] at cookies
  generalize (m.firstLine :: m.fields).foldl headerLine
    (start p m.method m.path m.httpVersion) = head at cookies kept read
  cases earlier with
  | nil =>
    have found : head.cookies.lookup "sessionid".toList = some (toDecimal n) := by
      rw [cookies]
      exact lookup_sessionid_first (toDecimal_ne_nil n) separable
    have signed : signedIn p head = some { head with username := userOf p n } := by
      rw [signedIn, found]
      simp only [stoull64_toDecimal small, Option.map_some]
      rfl
    constructor
    · intro _
      exact .inl rfl
    · intro _
      exact read _ signed
  | cons cookie earlier =>
    have missed : head.cookies.lookup "sessionid".toList = none := by
      rw [cookies]
      exact lookup_sessionid_later separable (others cookie (by simp)).1
    have signed : signedIn p head = some head := by rw [signedIn, missed]
    have noOne : head.username = [] := congrArg EmailReply.Request.username kept
    obtain ⟨last, ran, user⟩ := read head signed
    constructor
    · rintro ⟨req, ran', same⟩
      cases ran.symm.trans ran'
      exact .inr (same.symm.trans (user.trans noOne))
    · rintro (first | none)
      · cases first
      · exact ⟨last, ran, (user.trans noOne).trans none.symm⟩

def bobIsIn : Process := ⟨AList.singleton 5 "bob".toList, 0, fun _ => true⟩

/-- A request for the first page, with these cookies. -/
def visit (cookies : List (Str × Str)) : Message where
  method := "GET".toList
  path := "/".toList
  httpVersion := "HTTP/1.1".toList
  fields := ["Host: localhost".toList, cookieField cookies]
  body := []

theorem session_found_first :
    ∃ req, httpRead bobIsIn (visit [("sessionid".toList, toDecimal 5),
      ("theme".toList, "dark".toList)]).text = some (some req) ∧
      req.username = userOf bobIsIn 5 := by
  have wellFormed : (visit [("sessionid".toList, toDecimal 5),
      ("theme".toList, "dark".toList)]).WellFormed :=
    ⟨by decide, by decide, by decide, by decide, by decide, by decide⟩
  have others : ∀ cookie ∈ [] ++ [("theme".toList, "dark".toList)],
      cookie.1 ≠ "sessionid".toList ∧ Separable cookie := by decide
  exact (session_found_iff bobIsIn _ wellFormed ["Host: localhost".toList] [] []
    [("theme".toList, "dark".toList)] 5 rfl (by decide) others (by decide) fun _ => rfl).mpr
    (.inl rfl)

/-- The same cookies in the other order leave the user out. -/
theorem not_session_found : ∃ (m : Message) (earlier later : List (Str × Str)), m.WellFormed ∧
    m.fields = ["Host: localhost".toList,
      cookieField (earlier ++ ("sessionid".toList, toDecimal 5) :: later)] ∧
    (∀ cookie ∈ earlier ++ later, cookie.1 ≠ "sessionid".toList ∧ Separable cookie) ∧
    ∀ req, httpRead bobIsIn m.text = some (some req) → req.username ≠ userOf bobIsIn 5 := by
  refine ⟨visit [("theme".toList, "dark".toList), ("sessionid".toList, toDecimal 5)],
    [("theme".toList, "dark".toList)], [], ⟨by decide, by decide, by decide, by decide, by decide,
      by decide⟩, rfl, by decide, ?_⟩
  have read : (httpRead bobIsIn (visit [("theme".toList, "dark".toList),
      ("sessionid".toList, toDecimal 5)]).text).map (fun req => req.map fun r => r.username) =
      some (some []) := by decide +kernel
  intro req ran
  rw [ran] at read
  have noOne : req.username = [] := Option.some.inj (Option.some.inj read)
  rw [noOne]
  decide

end HttpRequest
