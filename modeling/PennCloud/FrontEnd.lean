import PennCloud.HttpRequest
import PennCloud.SendMails

/-!
# What a request can break

The handlers of `reply.h` take the fields of a request apart by position. Which
streams of bytes make `http_read` or a handler throw, or read past the end of what was
split.
-/

namespace FrontEnd

open Text UnorderedMap Mailbox EmailReply SendMails HttpRequest

/-- What a handler does before the page is made. -/
inductive Action where
  | signIn (usr pwd : Str)
  | signUp (usr pwd : Str)
  | changePwd (usr oldPwd newPwd : Str)
  | mail (call : EmailReply.Call)
  deriving DecidableEq

/-- `c_str`, as it is read where no length goes along. -/
def cString (s : Str) : Str := s.takeWhile (· ≠ Char.ofNat 0)

/-- `split(params.at(i), '=').at(1)`, `none` where `at` throws. -/
def param (params : List Str) (i : Nat) : Option Str :=
  params[i]?.bind fun field => (split field '=')[1]?

/-- The two fields of a form. -/
def twoParams (body : Str) : Option (Str × Str) :=
  let params := split (cString body) '&'
  (param params 0).bind fun first => (param params 1).map fun second => (first, second)

/-- The branch of a form with two fields. -/
def formHandler (act : Str → Str → Action) (req : EmailReply.Request) : Option (List Action) :=
  if req.method = "POST".toList then
    (twoParams req.body).map fun params => [act params.1 params.2]
  else some []

def loginHandler (req : EmailReply.Request) : Option (List Action) :=
  if req.method = "GET".toList then some [] else formHandler .signIn req

def signupHandler (req : EmailReply.Request) : Option (List Action) :=
  if req.method = "GET".toList then some [] else formHandler .signUp req

def userHandler (req : EmailReply.Request) : Option (List Action) :=
  if req.username = [] then some [] else formHandler (.changePwd req.username) req

/-- `reply`, for the pages with these handlers and that of a mail. The other pages are left out. -/
def reply (mails : Str → List Mail) (req : EmailReply.Request) : Option (List Action) :=
  if req.path = "/".toList ∨ req.path = "/login".toList then loginHandler req
  else if req.path = "/signup".toList then signupHandler req
  else if req.path = "/user".toList then userHandler req
  else if ToDisplay req then
    (emailDisplayHandler ⟨req, mails req.username⟩).map fun handled => handled.2.map .mail
  else some []

/-- The deliveries of all mails among the actions end. -/
def Sent (actions : List Action) : Prop :=
  ∀ usr recipients text clock, .mail (.sendMails usr recipients text) ∈ actions →
    (sendMails usr text clock recipients).Ends (fun _ _ => True) fun _ _ => True

/-- The handler ends, and so do the deliveries that it asks for, whatever they return. -/
def Answers (mails : Str → List Mail) (req : EmailReply.Request) : Prop :=
  ∃ actions, reply mails req = some actions ∧ Sent actions

/-- A stream neither makes `http_read` throw nor the handler that it selects. -/
structure Survived (p : Process) (mails : Str → List Mail) (stream : Str) : Prop where
  reads : httpRead p stream ≠ none
  answers : ∀ req, httpRead p stream = some (some req) → Answers mails req.toRequest

/-! ### What a harmless request looks like -/

/-- Something follows the first equality sign. -/
def HasValue (field : Str) : Prop := (getLine '=' field).2 ≠ []

/-- The first two fields have values. -/
def TwoValues (form : Str) : Prop :=
  HasValue (getLine '&' form).1 ∧ HasValue (getLine '&' (getLine '&' form).2).1

/-- The form is one whose two fields are read. -/
def ToForm (req : EmailReply.Request) : Prop :=
  req.method = "POST".toList ∧
    (req.path ∈ ["/".toList, "/login".toList, "/signup".toList] ∨
      req.path = "/user".toList ∧ req.username ≠ [])

/-- The eighth piece of a mail that is written or forwarded has the recipients in it. -/
def WellAddressed (pieces : List Str) : Prop :=
  ∃ field, pieces[7]? = some field ∧ field ≠ [] ∧ LongEnough (recipientList (field.drop 1))

/-- The pieces of a mail from the page of another one. -/
def WellComposed (pieces : List Str) (displayed : Mail) : Prop :=
  ∃ kind, pieces[1]? = some kind ∧
    (contains kind "name=\"WRIT\"".toList ∨ contains kind "name=\"FORW\"".toList →
      WellAddressed pieces) ∧
    (¬ contains kind "name=\"WRIT\"".toList → ¬ contains kind "name=\"FORW\"".toList →
      contains kind "name=\"REPL\"".toList →
      LongEnough (recipientList
        (if '@' ∈ displayed.usr then displayed.usr else displayed.usr ++ EMAIL_SUFFIX)))

/-- A form has two values, and the page of a mail has a number and a mail that can be sent. -/
structure Harmless (mails : Str → List Mail) (req : EmailReply.Request) : Prop where
  form : ToForm req → TwoValues (cString req.body)
  display : ToDisplay req → ∃ index, emailIndex req.path = some index ∧
    (req.method ≠ "GET".toList →
      WellComposed (split req.body '\r') (displayedEmail (mails req.username) index))

/-! ### The forms -/

theorem split_second {s : Str} {delim : Char} :
    ((split s delim)[1]?).isSome ↔ (getLine delim s).2 ≠ [] := by
  by_cases empty : s = []
  · subst empty
    exact iff_of_false nofun fun some => some rfl
  · rw [split_cons empty, List.getElem?_cons_succ]
    by_cases last : (getLine delim s).2 = []
    · rw [last]
      exact iff_of_false nofun fun some => some rfl
    · rw [split_cons last]
      exact iff_of_true rfl last

theorem param_first {s : Str} : (param (split s '&') 0).isSome ↔ HasValue (getLine '&' s).1 := by
  by_cases empty : s = []
  · subst empty
    exact iff_of_false nofun fun some => some rfl
  · rw [param, split_cons empty]
    exact split_second

theorem param_second {s : Str} :
    (param (split s '&') 1).isSome ↔ HasValue (getLine '&' (getLine '&' s).2).1 := by
  by_cases empty : s = []
  · subst empty
    exact iff_of_false nofun fun some => some rfl
  · rw [split_cons empty]
    exact param_first

theorem twoParams_isSome {body : Str} : (twoParams body).isSome ↔ TwoValues (cString body) := by
  rw [TwoValues, ← param_first, ← param_second, twoParams]
  simp only [Option.isSome_bind, Option.isSome_map]
  cases param (split (cString body) '&') 0 with
  | none => exact iff_of_false nofun fun some => nomatch some.1
  | some first =>
    constructor
    · intro second
      exact ⟨rfl, second⟩
    · intro both
      exact both.2

section Forms

variable {act : Str → Str → Action} {req : EmailReply.Request}

theorem formHandler_isSome :
    (formHandler act req).isSome ↔ (req.method = "POST".toList → TwoValues (cString req.body)) := by
  rw [formHandler]
  split
  · rename_i post
    rw [Option.isSome_map, twoParams_isSome]
    exact ⟨fun values _ => values, fun values => values post⟩
  · rename_i other
    exact iff_of_true rfl fun post => absurd post other

/-- A `GET` is no `POST`. -/
theorem getOrForm_isSome :
    (if req.method = "GET".toList then some [] else formHandler act req).isSome ↔
      (req.method = "POST".toList → TwoValues (cString req.body)) := by
  split
  · rename_i get
    refine iff_of_true rfl ?_
    intro post
    exact absurd (get.symm.trans post) (by decide)
  · exact formHandler_isSome

theorem userHandler_isSome : (userHandler req).isSome ↔
    (req.username ≠ [] → req.method = "POST".toList → TwoValues (cString req.body)) := by
  rw [userHandler]
  split
  · rename_i noOne
    exact iff_of_true rfl fun user => absurd noOne user
  · rename_i user
    rw [formHandler_isSome]
    exact ⟨fun form _ => form, fun form => form user⟩

/-- The forms send no mails. -/
theorem mail_notMem_form {h : Option (List Action)} (form : h = some [] ∨ h = formHandler act req)
    (noMail : ∀ u v call, act u v ≠ .mail call) {actions : List Action} (ran : h = some actions)
    (call : EmailReply.Call) : .mail call ∉ actions := by
  rcases form with rfl | rfl
  · cases ran
    exact List.not_mem_nil
  · rw [formHandler] at ran
    split at ran
    · obtain ⟨params, -, rfl⟩ := Option.map_eq_some_iff.mp ran
      intro mem
      exact noMail _ _ call (List.mem_singleton.mp mem).symm
    · cases ran
      exact List.not_mem_nil

end Forms

/-! ### The page of a mail -/

theorem recipientsField_eq_some {pieces : List Str} {recipients : Str} :
    recipientsField pieces = some recipients ↔
      ∃ field, pieces[7]? = some field ∧ field ≠ [] ∧ recipients = field.drop 1 := by
  rw [recipientsField, Option.bind_eq_some_iff]
  constructor
  · rintro ⟨field, there, cut⟩
    split at cut
    · cases cut
    · rename_i more
      cases cut
      exact ⟨field, there, more, rfl⟩
  · rintro ⟨field, there, more, rfl⟩
    exact ⟨field, there, if_neg more⟩

theorem wellAddressed_iff {pieces : List Str} {f : Str → Str × Str} (recipients : ∀ s, (f s).1 = s) :
    WellAddressed pieces ↔ ∃ sent, (recipientsField pieces).map f = some sent ∧
      LongEnough (recipientList sent.1) := by
  constructor
  · rintro ⟨field, there, more, enough⟩
    have found := recipientsField_eq_some.mpr ⟨field, there, more, rfl⟩
    refine ⟨f (field.drop 1), by rw [found]; rfl, ?_⟩
    rw [recipients]
    exact enough
  · rintro ⟨sent, found, enough⟩
    obtain ⟨s, cut, rfl⟩ := Option.map_eq_some_iff.mp found
    obtain ⟨field, there, more, rfl⟩ := recipientsField_eq_some.mp cut
    rw [recipients] at enough
    exact ⟨field, there, more, enough⟩

theorem longEnough_nil : LongEnough [] := by
  intro reached recipient later same
  exact absurd same (by simp)

/-- The mail is composed, and its recipients are long enough. -/
theorem wellComposed_iff {pieces : List Str} {displayed : Mail} :
    WellComposed pieces displayed ↔ ∃ sent, composed pieces displayed = some sent ∧
      LongEnough (recipientList sent.1) := by
  rw [WellComposed, composed]
  cases pieces[1]? with
  | none => exact iff_of_false nofun nofun
  | some kind =>
    rw [Option.bind_some]
    by_cases write : contains kind "name=\"WRIT\"".toList
    · rw [if_pos write, ← wellAddressed_iff fun _ => rfl]
      constructor
      · rintro ⟨_, ⟨rfl⟩, addressed, -⟩
        exact addressed (.inl write)
      · intro addressed
        exact ⟨kind, rfl, fun _ => addressed, fun no => absurd write no⟩
    by_cases forward : contains kind "name=\"FORW\"".toList
    · rw [if_neg write, if_pos forward, ← wellAddressed_iff fun _ => rfl]
      constructor
      · rintro ⟨_, ⟨rfl⟩, addressed, -⟩
        exact addressed (.inr forward)
      · intro addressed
        exact ⟨kind, rfl, fun _ => addressed, fun _ no => absurd forward no⟩
    rw [if_neg write, if_neg forward]
    have neither : ¬ (contains kind "name=\"WRIT\"".toList ∨ contains kind "name=\"FORW\"".toList) :=
      not_or.mpr ⟨write, forward⟩
    by_cases answer : contains kind "name=\"REPL\"".toList
    · rw [if_pos answer]
      constructor
      · rintro ⟨_, ⟨rfl⟩, -, enough⟩
        exact ⟨_, rfl, enough write forward answer⟩
      · rintro ⟨_, ⟨rfl⟩, enough⟩
        exact ⟨kind, rfl, fun either => absurd either neither, fun _ _ _ => enough⟩
    · rw [if_neg answer]
      constructor
      · intro _
        exact ⟨_, rfl, longEnough_nil⟩
      · intro _
        exact ⟨kind, rfl, fun either => absurd either neither, fun _ _ yes => absurd yes answer⟩

theorem sent_iff {call : EmailReply.Call} (other : ∀ usr recipients text,
    call ≠ .sendMails usr recipients text) {usr text : Str} {recipients : List Str} :
    Sent [.mail call, .mail (.sendMails usr recipients text)] ↔ LongEnough recipients := by
  constructor
  · intro sent
    exact longEnough_of_ends (sent usr recipients text (fun _ => []) (by simp))
  · intro enough usr' recipients' text' clock mem
    rcases List.mem_cons.mp mem with first | last
    · exact absurd (Action.mail.inj first).symm (other usr' recipients' text')
    · cases List.mem_singleton.mp last
      exact (ends_of_longEnough enough).mono fun _ _ _ => trivial

theorem display_iff {req : EmailReply.Request} {mails : List Mail} :
    (∃ actions, (emailDisplayHandler ⟨req, mails⟩).map (fun handled => handled.2.map Action.mail) =
        some actions ∧ Sent actions) ↔
      ∃ index, emailIndex req.path = some index ∧ (req.method ≠ "GET".toList →
        WellComposed (split req.body '\r') (displayedEmail mails index)) := by
  have other : ∀ usr recipients text,
      EmailReply.Call.getMails req.username ≠ .sendMails usr recipients text := nofun
  rw [emailDisplayHandler]
  cases emailIndex req.path with
  | none => exact iff_of_false nofun nofun
  | some index =>
    rw [Option.bind_some]
    by_cases get : req.method = "GET".toList
    · simp only [if_pos get]
      constructor
      · intro _
        exact ⟨index, rfl, fun other => absurd get other⟩
      · intro _
        refine ⟨_, rfl, ?_⟩
        intro usr recipients text clock mem
        cases List.mem_singleton.mp mem
    · simp only [if_neg get, wellComposed_iff]
      constructor
      · rintro ⟨actions, ran, sent⟩
        obtain ⟨handled, composed, rfl⟩ := Option.map_eq_some_iff.mp ran
        obtain ⟨mail, there, rfl⟩ := Option.map_eq_some_iff.mp composed
        exact ⟨index, rfl, fun _ => ⟨mail, there, (sent_iff other).mp sent⟩⟩
      · rintro ⟨_, ⟨rfl⟩, composed⟩
        obtain ⟨mail, there, enough⟩ := composed get
        rw [there]
        exact ⟨_, rfl, (sent_iff other).mpr enough⟩

/-! ### The dispatch -/

theorem not_toDisplay {req : EmailReply.Request} {path : Str} (same : req.path = path)
    (other : ¬ "/email_display".toList <+: path) : ¬ ToDisplay req := by
  rintro ⟨front, -⟩
  rw [same] at front
  exact other front

/-- A page with a form of two fields. -/
theorem answers_form (act : Str → Str → Action) {mails : Str → List Mail}
    {req : EmailReply.Request} {h : Option (List Action)} (page : reply mails req = h)
    (form : h = some [] ∨ h = formHandler act req) (noMail : ∀ u v call, act u v ≠ .mail call)
    (values : h.isSome ↔ (ToForm req → TwoValues (cString req.body))) (display : ¬ ToDisplay req) :
    Answers mails req ↔ Harmless mails req := by
  rw [Answers, page]
  constructor
  · rintro ⟨actions, ran, -⟩
    have some : h.isSome := by
      rw [ran]
      rfl
    exact ⟨values.mp some, fun there => absurd there display⟩
  · intro harmless
    obtain ⟨actions, ran⟩ := Option.isSome_iff_exists.mp (values.mpr harmless.form)
    refine ⟨actions, ran, ?_⟩
    intro usr recipients text clock mem
    exact absurd mem (mail_notMem_form form noMail ran _)

section Dispatch

variable {mails : Str → List Mail} {req : EmailReply.Request}

theorem answers_login (login : req.path = "/".toList ∨ req.path = "/login".toList) :
    Answers mails req ↔ Harmless mails req := by
  have page : reply mails req = loginHandler req := if_pos login
  have toForm : ToForm req ↔ req.method = "POST".toList := by
    have listed : req.path ∈ ["/".toList, "/login".toList, "/signup".toList] := by
      rcases login with first | second
      · simp [first]
      · simp [second]
    exact ⟨fun form => form.1, fun post => ⟨post, .inl listed⟩⟩
  refine answers_form .signIn page ?_ nofun ?_ ?_
  · rw [loginHandler]
    split
    · exact .inl rfl
    · exact .inr rfl
  · rw [toForm, loginHandler, getOrForm_isSome]
  · rcases login with first | second
    · exact not_toDisplay first (by decide)
    · exact not_toDisplay second (by decide)

theorem answers_signup (signup : req.path = "/signup".toList) :
    Answers mails req ↔ Harmless mails req := by
  have page : reply mails req = signupHandler req := by
    rw [reply, signup, if_neg (by decide), if_pos rfl]
  have toForm : ToForm req ↔ req.method = "POST".toList := by
    constructor
    · intro form
      exact form.1
    · intro post
      exact ⟨post, .inl (by simp [signup])⟩
  refine answers_form .signUp page ?_ nofun ?_ (not_toDisplay signup (by decide))
  · rw [signupHandler]
    split
    · exact .inl rfl
    · exact .inr rfl
  · rw [toForm, signupHandler, getOrForm_isSome]

theorem answers_user (user : req.path = "/user".toList) :
    Answers mails req ↔ Harmless mails req := by
  have page : reply mails req = userHandler req := by
    rw [reply, user, if_neg (by decide), if_neg (by decide), if_pos rfl]
  have toForm : ToForm req ↔ req.method = "POST".toList ∧ req.username ≠ [] := by
    constructor
    · rintro ⟨post, listed | ⟨-, there⟩⟩
      · rw [user] at listed
        exact absurd listed (by decide)
      · exact ⟨post, there⟩
    · rintro ⟨post, there⟩
      exact ⟨post, .inr ⟨user, there⟩⟩
  refine answers_form (.changePwd req.username) page ?_ nofun ?_
    (not_toDisplay user (by decide))
  · rw [userHandler]
    split
    · exact .inl rfl
    · exact .inr rfl
  · rw [toForm, userHandler_isSome]
    constructor
    · intro values form
      exact values form.2 form.1
    · intro values there post
      exact values ⟨post, there⟩

theorem answers_other (login : ¬ (req.path = "/".toList ∨ req.path = "/login".toList))
    (signup : req.path ≠ "/signup".toList) (user : req.path ≠ "/user".toList) :
    Answers mails req ↔ Harmless mails req := by
  have noForm : ¬ ToForm req := by
    rintro ⟨-, listed | ⟨there, -⟩⟩
    · rcases List.mem_cons.mp listed with first | listed
      · exact login (.inl first)
      rcases List.mem_cons.mp listed with second | third
      · exact login (.inr second)
      · exact signup (List.mem_singleton.mp third)
    · exact user there
  rw [Answers, reply, if_neg login, if_neg signup, if_neg user]
  by_cases display : ToDisplay req
  · rw [if_pos display, display_iff]
    constructor
    · intro handled
      exact ⟨fun form => absurd form noForm, fun _ => handled⟩
    · intro harmless
      exact harmless.display display
  · rw [if_neg display]
    constructor
    · intro _
      exact ⟨fun form => absurd form noForm, fun there => absurd there display⟩
    · intro _
      refine ⟨[], rfl, ?_⟩
      intro _ _ _ _ mem
      cases mem

/-- The handler that is selected is safe exactly for harmless requests. -/
theorem answers_iff : Answers mails req ↔ Harmless mails req := by
  by_cases login : req.path = "/".toList ∨ req.path = "/login".toList
  · exact answers_login login
  by_cases signup : req.path = "/signup".toList
  · exact answers_signup signup
  by_cases user : req.path = "/user".toList
  · exact answers_user user
  · exact answers_other login signup user

end Dispatch

/-! ### The head of a request -/

/-- A name and a value, where a piece of a Cookie header has both. -/
def pairOf (piece : Str) : Option (Str × Str) :=
  match split piece '=' with
  | [name, value] => some (name, value)
  | _ => none

def cookiePairs (line : Str) : List (Str × Str) :=
  if line.take 8 = "Cookie: ".toList then (split (line.drop 8) ';').filterMap pairOf else []

/-- The value that a name has last. -/
def lastNamed (name : Str) (pairs : List (Str × Str)) : Option Str :=
  (pairs.filter fun q => q.1 = name).getLast?.map Prod.snd

/-- The value of the last session cookie. -/
def sessionValue (lines : List Str) : Option Str :=
  lastNamed "sessionid".toList (lines.flatMap cookiePairs)

/-- The number of a Content-Length header. -/
def lengthValue (line : Str) : Option Nat :=
  if line.take 16 = "Content-Length: ".toList then some (toId (atoi (line.drop 16))) else none

/-- The length that the last Content-Length header says, or whatever the memory holds. -/
def lengthOf (p : Process) (lines : List Str) : Nat :=
  ((lines.filterMap lengthValue).getLast?).getD p.uninitialised

theorem lastNamed_concat (name : Str) (pairs : List (Str × Str)) (q : Str × Str) :
    lastNamed name (pairs ++ [q]) = if q.1 = name then some q.2 else lastNamed name pairs := by
  rw [lastNamed, List.filter_append]
  by_cases same : q.1 = name
  · simp [same]
  · simp [same, lastNamed]

/-- The cookies of a request are the last values of their names. -/
theorem lookup_foldl_insert (name : Str) (pairs : List (Str × Str)) :
    (pairs.foldl (fun (cookies : UMap Str Str) q => cookies.insert q.1 q.2) ∅).lookup name =
      lastNamed name pairs := by
  induction pairs using List.reverseRecOn with
  | nil => rfl
  | append_singleton pairs q ih =>
    rw [lastNamed_concat, List.foldl_append, List.foldl_cons, List.foldl_nil]
    split
    · rename_i same
      rw [← same, AList.lookup_insert]
    · rename_i other
      rw [AList.lookup_insert_ne (Ne.symm other), ih]

theorem addCookie_eq (cookies : UMap Str Str) (piece : Str) :
    addCookie cookies piece = ((pairOf piece).map fun q => cookies.insert q.1 q.2).getD cookies := by
  rw [addCookie, pairOf]
  match split piece '=' with
  | [] => rfl
  | [_] => rfl
  | [_, _] => rfl
  | _ :: _ :: _ :: _ => rfl

theorem foldl_addCookie (cookies : UMap Str Str) (pieces : List Str) :
    pieces.foldl addCookie cookies =
      (pieces.filterMap pairOf).foldl (fun cookies q => cookies.insert q.1 q.2) cookies := by
  induction pieces generalizing cookies with
  | nil => rfl
  | cons piece pieces ih =>
    rw [List.foldl_cons, ih, addCookie_eq]
    cases pair : pairOf piece with
    | none =>
      rw [List.filterMap_cons_none pair]
      rfl
    | some q =>
      rw [List.filterMap_cons_some pair]
      rfl

theorem foldl_cookies (lines : List Str) (req : HttpRequest.Request) :
    (lines.foldl headerLine req).cookies =
      (lines.flatMap cookiePairs).foldl (fun cookies q => cookies.insert q.1 q.2) req.cookies := by
  induction lines generalizing req with
  | nil => rfl
  | cons line lines ih =>
    rw [List.foldl_cons, ih, List.flatMap_cons, List.foldl_append, headerLine, cookiePairs]
    split
    · rw [← foldl_addCookie]
    · split <;> rfl

/-- A line says a length where it is a Content-Length header. -/
theorem headerLine_contentLength (req : HttpRequest.Request) (line : Str) :
    (headerLine req line).contentLength = (lengthValue line).getD req.contentLength := by
  rw [headerLine, lengthValue]
  split
  · rename_i cookie
    have other : line.take 16 ≠ "Content-Length: ".toList := by
      intro length
      have eight : (line.take 16).take 8 = line.take 8 := List.take_take
      rw [cookie, length] at eight
      exact absurd eight (by decide)
    rw [if_neg other]
    rfl
  · split <;> rfl

theorem foldl_contentLength (lines : List Str) (req : HttpRequest.Request) :
    (lines.foldl headerLine req).contentLength =
      ((lines.filterMap lengthValue).getLast?).getD req.contentLength := by
  induction lines using List.reverseRecOn with
  | nil => rfl
  | append_singleton lines line ih =>
    rw [List.foldl_append, List.foldl_cons, List.foldl_nil, headerLine_contentLength, ih,
      List.filterMap_append]
    cases length : lengthValue line with
    | none => rw [List.filterMap_cons_none length, List.filterMap_nil, List.append_nil]; rfl
    | some n => rw [List.filterMap_cons_some length, List.filterMap_nil, List.getLast?_concat]; rfl

/-! ### Every stream -/

/-- The stream begins with a head: a first line of three words, and lines up to an empty one. -/
def Opens (stream method path : Str) (lines : List Str) (rest : Str) : Prop :=
  ∃ line s later httpVersion, readLine stream = some (line, s) ∧
    split line ' ' = [method, path, httpVersion] ∧ Head s later rest ∧ lines = line :: later

/-- The user of the last session cookie. -/
def userNamed (p : Process) (lines : List Str) : Str :=
  ((sessionValue lines).bind fun value => (stoull64 value).bind fun n => p.cookieMp.lookup n).getD []

/-- The body of a request, where all of it comes. -/
def bodyOf (p : Process) (method : Str) (lines : List Str) (rest : Str) : Option Str :=
  if method = "POST".toList ∧ 0 < lengthOf p lines then
    if lengthOf p lines ≤ rest.length then some (rest.take (lengthOf p lines)) else none
  else some []

/-- A head is harmless where its session cookie reads as a number, `new` gives an array for the body
that it announces, and the request is harmless, should its body come. -/
structure HarmlessHead (p : Process) (mails : Str → List Mail) (method path : Str)
    (lines : List Str) (rest : Str) : Prop where
  session : ∀ value, sessionValue lines = some value → (stoull64 value).isSome
  memory : method = "POST".toList → 0 < lengthOf p lines →
    p.allocates ((lengthOf p lines + 1) % 2 ^ 64) = true
  request : ∀ body, bodyOf p method lines rest = some body →
    Harmless mails ⟨userNamed p lines, method, path, body⟩

section Reading

variable {p : Process} {stream method path rest : Str} {lines : List Str}

/-- The request after the lines of the head. -/
theorem httpRead_opens (opens : Opens stream method path lines rest) : ∃ req : HttpRequest.Request,
    httpRead p stream = ((signedIn p req).bind fun req => readBody p req rest) ∧
      req.toRequest = ⟨[], method, path, []⟩ ∧
      req.cookies.lookup "sessionid".toList = sessionValue lines ∧
      req.contentLength = lengthOf p lines := by
  obtain ⟨line, s, later, httpVersion, first, words, head, rfl⟩ := opens
  refine ⟨_, httpRead_head p first words head, ?_, ?_, foldl_contentLength _ _⟩
  · rw [foldl_keeps]
    rfl
  · rw [foldl_cookies]
    exact lookup_foldl_insert _ _

/-- The session cookie is read where it is a number. -/
theorem signedIn_eq {req : HttpRequest.Request}
    (session : req.cookies.lookup "sessionid".toList = sessionValue lines)
    (noOne : req.username = [])
    (number : ∀ value, sessionValue lines = some value → (stoull64 value).isSome) :
    signedIn p req = some { req with username := userNamed p lines } := by
  rw [signedIn, userNamed, session]
  cases named : sessionValue lines with
  | none =>
    have same : { req with username := [] } = req := by rw [← noOne]
    exact congrArg some same.symm
  | some value =>
    obtain ⟨n, read⟩ := Option.isSome_iff_exists.mp (number value named)
    simp only [read, Option.map_some, Option.bind_some]

theorem signedIn_none {req : HttpRequest.Request} {value : Str}
    (session : req.cookies.lookup "sessionid".toList = some value) (odd : stoull64 value = none) :
    signedIn p req = none := by
  rw [signedIn, session]
  simp only [odd, Option.map_none]

theorem readBody_eq {req : HttpRequest.Request} (same : req.method = method) (empty : req.body = [])
    (length : req.contentLength = lengthOf p lines)
    (memory : method = "POST".toList → 0 < lengthOf p lines →
      p.allocates ((lengthOf p lines + 1) % 2 ^ 64) = true) :
    readBody p req rest =
      some ((bodyOf p method lines rest).map fun body => { req with body := body }) := by
  subst same
  rw [← length] at memory
  rw [readBody, bodyOf, ← length]
  split
  · rename_i posted
    rw [if_pos (memory posted.1 posted.2)]
    split <;> rfl
  · have same : { req with body := [] } = req := by rw [← empty]
    rw [Option.map_some, same]

theorem readBody_none {req : HttpRequest.Request} (same : req.method = method)
    (length : req.contentLength = lengthOf p lines) (post : method = "POST".toList)
    (some : 0 < lengthOf p lines)
    (full : p.allocates ((lengthOf p lines + 1) % 2 ^ 64) ≠ true) : readBody p req rest = none := by
  rw [readBody, same, length, if_pos ⟨post, some⟩, if_neg full]

section Opened

variable (opens : Opens stream method path lines rest)
include opens

/-- A session cookie that is no number makes `http_read` throw. -/
theorem session_of_httpRead (reads : httpRead p stream ≠ none) :
    ∀ value, sessionValue lines = some value → (stoull64 value).isSome := by
  obtain ⟨req, ran, -, session, -⟩ := httpRead_opens (p := p) opens
  intro value named
  by_contra odd
  rw [ran, signedIn_none (session.trans named) (Option.not_isSome_iff_eq_none.mp odd)] at reads
  exact reads rfl

variable (number : ∀ value, sessionValue lines = some value → (stoull64 value).isSome)
include number

theorem memory_of_httpRead (reads : httpRead p stream ≠ none) :
    method = "POST".toList → 0 < lengthOf p lines →
      p.allocates ((lengthOf p lines + 1) % 2 ^ 64) = true := by
  obtain ⟨req, ran, fresh, session, length⟩ := httpRead_opens (p := p) opens
  have noOne : req.username = [] := congrArg EmailReply.Request.username fresh
  have same : req.method = method := congrArg EmailReply.Request.method fresh
  have signed : signedIn p req = some { req with username := userNamed p lines } :=
    signedIn_eq session noOne number
  intro post some
  by_contra full
  rw [ran, signed, Option.bind_some] at reads
  exact reads (readBody_none same length post some full)

/-- What is read of a stream that nothing is wrong with. -/
theorem httpRead_eq (memory : method = "POST".toList → 0 < lengthOf p lines →
    p.allocates ((lengthOf p lines + 1) % 2 ^ 64) = true) :
    (httpRead p stream).map (fun read => read.map HttpRequest.Request.toRequest) =
      some ((bodyOf p method lines rest).map fun body =>
        ⟨userNamed p lines, method, path, body⟩) := by
  obtain ⟨req, ran, fresh, session, length⟩ := httpRead_opens (p := p) opens
  have noOne : req.username = [] := congrArg EmailReply.Request.username fresh
  have same : req.method = method := congrArg EmailReply.Request.method fresh
  have path' : req.path = path := congrArg EmailReply.Request.path fresh
  have empty : req.body = [] := congrArg EmailReply.Request.body fresh
  have signed : signedIn p req = some { req with username := userNamed p lines } :=
    signedIn_eq session noOne number
  have read : readBody p { req with username := userNamed p lines } rest = _ :=
    readBody_eq same empty length memory
  rw [ran, signed, Option.bind_some, read, Option.map_some, Option.map_map, ← same, ← path']
  rfl

end Opened

end Reading

/-- A stream that opens no request is given up without a word. -/
theorem opens_of_httpRead {p : Process} {stream : Str} (read : httpRead p stream ≠ some none) :
    ∃ method path lines rest, Opens stream method path lines rest := by
  rw [httpRead] at read
  cases first : readLine stream with
  | none =>
    rw [first] at read
    exact absurd rfl read
  | some next =>
    obtain ⟨line, s⟩ := next
    rw [first] at read
    simp only at read
    split at read
    · rename_i method path httpVersion words
      have more : line ≠ [] := by
        rintro rfl
        cases words
      cases loop : headerLoop (s.length + 1) (start p method path httpVersion) line s with
      | none =>
        rw [loop] at read
        exact absurd rfl read
      | some last =>
        obtain ⟨later, head, -⟩ := headerLoop_sound more loop
        exact ⟨method, path, line :: later, last.2, line, s, later, httpVersion, first, words, head,
          rfl⟩
    · exact absurd rfl read

/-- A login without a body. -/
def emptyLogin : Str := "POST /login HTTP/1.1\r\nContent-Length: 0\r\n\r\n".toList

end FrontEnd
