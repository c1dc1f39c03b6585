import PennCloud.FrontEnd
import PennCloud.StorageForms

/-!
# Sessions of the front end

`handle_connect` of `frontend.cpp` with `reply` and `create_cookie` of `reply.h`: a process that
serves one connection after the other, and gives out a number at each login. What it does outside
of itself is a deed that returns a number, negative where it fails.
-/

namespace FrontEndSessions

open Text UnorderedMap Mailbox StorageHandler FrontEnd Dialogue
open HttpRequest (httpRead signedIn readBody)

/-! The process -/

inductive Deed where
  | action (act : Action)
  | initializeUsr (usr : Str)
  | storage (usr : Str) (req : StorageServiceReq)
  | displayFiles (usr path : Str)
  deriving DecidableEq

/-- Whom a deed is done as. A login and a sign-up are for anybody, and a root folder is made for one
who has just signed up. -/
def Deed.actsAs : Deed → Option Str
  | .action (.signIn _ _) | .action (.signUp _ _) | .initializeUsr _ => none
  | .action (.changePwd usr _ _) => some usr
  | .action (.mail (.getMails usr)) | .action (.mail (.sendMails usr _ _))
  | .action (.mail (.deleteMail usr _)) => some usr
  | .storage usr _ | .displayFiles usr _ => some usr

abbrev Doing (α : Type) := Dialogue Deed Int α

structure State where
  cookieMp : UMap Nat Str := ∅
  toBeDeleted : Int := 0

/-- A client that connects, with what the process finds while it serves it: the value in memory
where `content_length_` is left uninitialised, the sizes of arrays that `new` can give, the numbers
that the generator draws, and the mails of the users. -/
structure Connection where
  stream : Str
  uninitialised : Nat
  allocates : Nat → Bool
  randoms : List Nat
  mails : Str → List Mail

/-- `create_cookie`. Where all numbers that are drawn are taken the loop goes on. -/
def createCookie (randoms : List Nat) (cookieMp : UMap Nat Str) (username : Str) :
    Option (Nat × UMap Nat Str) :=
  let cookieMp := if 1000 < cookieMp.keys.length then ∅ else cookieMp
  (randoms.find? fun n => (cookieMp.lookup n).isNone).map fun n => (n, cookieMp.insert n username)

/-- One deed after the other, whatever they return. -/
def perform : List Deed → Doing Unit
  | [] => .done ()
  | deed :: later => (question deed).bind fun _ => perform later

/-- `login_handler`: the new state, and the number in the cookie of the response. -/
def loginPage (s : State) (randoms : List Nat) (req : EmailReply.Request) :
    Doing (State × Option Nat) :=
  if req.method = "GET".toList then .done (s, none)
  else if req.method = "POST".toList then
    (ofOption (twoParams req.body)).bind fun params =>
      (question (.action (.signIn params.1 params.2))).bind fun ret =>
        if 0 ≤ ret then
          (ofOption (createCookie randoms s.cookieMp params.1)).bind fun cookie =>
            .done ({ s with cookieMp := cookie.2 }, some cookie.1)
        else .done (s, none)
  else .done (s, none)

/-- `signup_handler` -/
def signupPage (req : EmailReply.Request) : Doing Unit :=
  if req.method = "GET".toList then .done ()
  else if req.method = "POST".toList then
    (ofOption (twoParams req.body)).bind fun params =>
      (question (.action (.signUp params.1 params.2))).bind fun ret =>
        if 0 ≤ ret then perform [.initializeUsr params.1] else .done ()
  else .done ()

/-- `user_handler` -/
def userPage (req : EmailReply.Request) : Doing Unit :=
  if req.username = [] then .done ()
  else if req.method = "POST".toList then
    (ofOption (twoParams req.body)).bind fun params =>
      perform [.action (.changePwd req.username params.1 params.2)]
  else .done ()

/-- `storage_handler`, with the page that is shown afterwards. -/
def storagePage (req : EmailReply.Request) : Doing Unit :=
  if req.method = "GET".toList then perform [.displayFiles req.username req.path]
  else if req.method = "POST".toList then
    (ofOption (StorageForms.storageHandler req.path req.body)).bind fun asked =>
      match asked with
      | none => .done ()
      | some form =>
        (question (.storage req.username form)).bind fun ret =>
          if 0 ≤ ret ∧ form.type ≠ .fileDownload then
            perform [.displayFiles req.username req.path]
          else .done ()
  else .done ()

/-- `email_inbox_handler` -/
def inboxPage (s : State) (req : EmailReply.Request) : Doing Unit :=
  if req.username = [] then .done ()
  else (ofOption (EmailReply.emailInboxHandler { toBeDeleted := s.toBeDeleted } req)).bind
    fun calls => perform (calls.map fun call => .action (.mail call))

/-- `email_display_handler`: the new value of `to_be_deleted`. The mails are read before the body
is looked at, which may throw. -/
def displayPage (s : State) (mails : Str → List Mail) (req : EmailReply.Request) : Doing State :=
  if req.username = [] then .done s
  else (ofOption (EmailReply.emailIndex req.path)).bind fun _ =>
    (perform [.action (.mail (.getMails req.username))]).bind fun _ =>
      (ofOption (EmailReply.emailDisplayHandler ⟨req, mails req.username⟩)).bind fun handled =>
        (perform ((handled.2.drop 1).map fun call => .action (.mail call))).bind fun _ =>
          .done { s with toBeDeleted := handled.1 }

/-- `reply`. Only a login gives out a number. -/
def reply (s : State) (c : Connection) (req : EmailReply.Request) : Doing (State × Option Nat) :=
  if req.path = "/".toList ∨ req.path = "/login".toList then loginPage s c.randoms req
  else if req.path = "/signup".toList then (signupPage req).bind fun _ => .done (s, none)
  else if req.path = "/home".toList ∨ req.path = "/about".toList then .done (s, none)
  else if req.path = "/user".toList then (userPage req).bind fun _ => .done (s, none)
  else if req.path = "/email_inbox".toList then (inboxPage s req).bind fun _ => .done (s, none)
  else if "/file".toList <+: req.path then
    if req.username = [] then .done (s, none)
    else (storagePage req).bind fun _ => .done (s, none)
  else if "/email_display".toList <+: req.path then
    (displayPage s c.mails req).bind fun s' => .done (s', none)
  else .done (s, none)

/-- What `http_read` reads of a connection. It is `none` where that throws. -/
def State.reads (s : State) (c : Connection) : Option (Option HttpRequest.Request) :=
  httpRead ⟨s.cookieMp, c.uninitialised, c.allocates⟩ c.stream

/-- The body of the loop of `handle_connect`, for a connection that has something to read. -/
def handleConnect (s : State) (c : Connection) : Doing (State × Option Nat) :=
  (ofOption (s.reads c)).bind fun read =>
    match read with
    | none => .done (s, none)
    | some req => reply s c req.toRequest

/-- A connection that was served: what was done, and the number that was given out. -/
structure Served where
  connection : Connection
  deeds : List (Deed × Int)
  number : Option Nat

/-- The connections of a process, one after the other. -/
inductive Serves : State → List Served → State → Prop where
  | start (s : State) : Serves s [] s
  | next {s s' last : State} {past : List Served} {v : Served} (before : Serves s past s')
      (spoken : Conversation (handleConnect s' v.connection) v.deeds (last, v.number)) :
      Serves s (past ++ [v]) last

/-! Who a request is from -/

theorem readBody_keeps {p : HttpRequest.Process} {req last : HttpRequest.Request} {rest : Str}
    (ran : readBody p req rest = some (some last)) :
    last.username = req.username ∧ last.cookies = req.cookies := by
  rw [readBody] at ran
  split at ran
  · split at ran
    · have read := Option.some.inj ran
      split at read
      · cases read
        exact ⟨rfl, rfl⟩
      · cases read
    · cases ran
  · cases ran
    exact ⟨rfl, rfl⟩

/-- A request is from nobody, or from the user of the session that its cookie names. -/
theorem user_of_read {p : HttpRequest.Process} {stream : Str} {req : HttpRequest.Request}
    (ran : httpRead p stream = some (some req)) : req.username = [] ∨ ∃ value n,
      req.cookies.lookup "sessionid".toList = some value ∧ stoull64 value = some n ∧
        p.cookieMp.lookup n = some req.username := by
  rw [httpRead] at ran
  split at ran
  · cases ran
  · rename_i line s first
    split at ran
    · rename_i method path httpVersion words
      split at ran
      · cases ran
      · rename_i head rest looped
        have more : line ≠ [] := by
          rintro rfl
          cases words
        obtain ⟨lines, -, same⟩ := HttpRequest.headerLoop_sound more looped
        have noOne : head.username = [] := by
          rw [same]
          exact congrArg EmailReply.Request.username (HttpRequest.foldl_keeps _ _)
        obtain ⟨signed, ends, body⟩ := Option.bind_eq_some_iff.mp ran
        obtain ⟨user, cookies⟩ := readBody_keeps body
        rw [user, cookies]
        rw [signedIn] at ends
        split at ends
        · cases ends
          exact .inl noOne
        · rename_i value session
          obtain ⟨n, number, rfl⟩ := Option.map_eq_some_iff.mp ends
          cases known : p.cookieMp.lookup n with
          | none => exact .inl (by simp)
          | some usr => exact .inr ⟨value, n, session, number, by simp [known]⟩
    · cases ran

/-- The connection is from the user: its cookie names a session of the user that is alive. -/
def From (s : State) (c : Connection) (usr : Str) (n : Nat) : Prop := ∃ req value,
  s.reads c = some (some req) ∧ req.cookies.lookup "sessionid".toList = some value ∧
    stoull64 value = some n ∧ s.cookieMp.lookup n = some usr

/-! What is done -/

section Deeds
variable {allows : Deed → Int → Prop} {good : Deed → Prop}

theorem respects_perform {deeds : List Deed} (each : ∀ deed ∈ deeds, good deed) :
    (perform deeds).Respects allows good fun _ => True := by
  induction deeds with
  | nil => trivial
  | cons deed later ih =>
    obtain ⟨here, others⟩ := List.forall_mem_cons.mp each
    exact ⟨here, fun _ _ => ih others⟩

theorem actsAs_mail {usr : Str} {calls : List EmailReply.Call}
    (own : ∀ call ∈ calls, Deed.actsAs (.action (.mail call)) = some usr)
    (each : ∀ deed : Deed, deed.actsAs = some usr → good deed) :
    ∀ deed ∈ calls.map fun call => .action (.mail call), good deed := by
  intro deed mem
  obtain ⟨call, there, rfl⟩ := List.mem_map.mp mem
  exact each _ (own call there)

theorem inbox_own {f : EmailReply.Frontend} {req : EmailReply.Request}
    {calls : List EmailReply.Call} (ran : EmailReply.emailInboxHandler f req = some calls) :
    ∀ call ∈ calls, Deed.actsAs (.action (.mail call)) = some req.username := by
  rw [EmailReply.emailInboxHandler] at ran
  split at ran
  · cases ran
    simp [Deed.actsAs]
  · obtain ⟨kind, -, ran⟩ := Option.bind_eq_some_iff.mp ran
    split at ran
    · obtain ⟨recipients, -, rfl⟩ := Option.map_eq_some_iff.mp ran
      simp [Deed.actsAs]
    · split at ran
      · cases ran
        simp [Deed.actsAs]
      · cases ran
        simp

theorem display_own {v : EmailReply.Visit} {handled : Int × List EmailReply.Call}
    (ran : EmailReply.emailDisplayHandler v = some handled) :
    ∀ call ∈ handled.2, Deed.actsAs (.action (.mail call)) = some v.req.username := by
  obtain ⟨index, -, ran⟩ := Option.bind_eq_some_iff.mp ran
  split at ran
  · cases ran
    simp [Deed.actsAs]
  · obtain ⟨sent, -, rfl⟩ := Option.map_eq_some_iff.mp ran
    simp [Deed.actsAs]

section Pages
variable {s : State} {c : Connection} {req : EmailReply.Request}

theorem respects_login (anybody : ∀ deed : Deed, deed.actsAs = none → good deed) :
    (loginPage s c.randoms req).Respects allows good fun _ => True := by
  rw [loginPage]
  split
  · trivial
  split
  · refine respects_ofOption fun params _ => ⟨anybody _ rfl, fun ret _ => ?_⟩
    show Respects allows good (if 0 ≤ ret then _ else _) _
    split
    · exact respects_ofOption fun _ _ => trivial
    · trivial
  · trivial

theorem respects_signup (anybody : ∀ deed : Deed, deed.actsAs = none → good deed) :
    (signupPage req).Respects allows good fun _ => True := by
  rw [signupPage]
  split
  · trivial
  split
  · refine respects_ofOption fun params _ => ⟨anybody _ rfl, fun ret _ => ?_⟩
    show Respects allows good (if 0 ≤ ret then _ else _) _
    split
    · exact respects_perform (List.forall_mem_singleton.mpr (anybody _ rfl))
    · trivial
  · trivial

variable (own : req.username ≠ [] → ∀ deed : Deed, deed.actsAs = some req.username → good deed)
include own

theorem respects_user : (userPage req).Respects allows good fun _ => True := by
  rw [userPage]
  split
  · trivial
  · rename_i user
    split
    · exact respects_ofOption fun params _ =>
        respects_perform (List.forall_mem_singleton.mpr (own user _ rfl))
    · trivial

theorem respects_inbox : (inboxPage s req).Respects allows good fun _ => True := by
  rw [inboxPage]
  split
  · trivial
  · rename_i user
    exact respects_ofOption fun calls ran =>
      respects_perform (actsAs_mail (inbox_own ran) (own user))

theorem respects_display {mails : Str → List Mail} :
    (displayPage s mails req).Respects allows good fun _ => True := by
  rw [displayPage]
  split
  · trivial
  · rename_i user
    refine respects_ofOption fun index _ => respects_bind ((respects_perform
      (List.forall_mem_singleton.mpr (own user _ rfl))).mono fun _ _ => ?_)
    refine respects_ofOption fun handled ran => ?_
    have sent : ∀ call ∈ handled.2.drop 1, Deed.actsAs (.action (.mail call)) = some req.username :=
      fun call mem => display_own ran call (List.mem_of_mem_drop mem)
    exact respects_bind ((respects_perform (actsAs_mail sent (own user))).mono fun _ _ => trivial)

theorem respects_storage (user : req.username ≠ []) :
    (storagePage req).Respects allows good fun _ => True := by
  have display : (perform [.displayFiles req.username req.path]).Respects allows good fun _ => True :=
    respects_perform (List.forall_mem_singleton.mpr (own user _ rfl))
  rw [storagePage]
  split
  · exact display
  split
  · refine respects_ofOption fun asked _ => ?_
    split
    · trivial
    · refine ⟨own user _ rfl, fun ret _ => ?_⟩
      show Respects allows good (if 0 ≤ ret ∧ _ then _ else _) _
      split
      · exact display
      · trivial
  · trivial

/-- A request does nothing as somebody else than its user, and nothing as nobody. -/
theorem respects_reply (anybody : ∀ deed : Deed, deed.actsAs = none → good deed) :
    (reply s c req).Respects allows good fun _ => True := by
  rw [reply]
  split
  · exact respects_login anybody
  split
  · exact respects_bind ((respects_signup anybody).mono fun _ _ => trivial)
  split
  · trivial
  split
  · exact respects_bind ((respects_user own).mono fun _ _ => trivial)
  split
  · exact respects_bind ((respects_inbox own).mono fun _ _ => trivial)
  split
  · split
    · trivial
    · rename_i user
      exact respects_bind ((respects_storage own user).mono fun _ _ => trivial)
  split
  · exact respects_bind ((respects_display own).mono fun _ _ => trivial)
  · trivial

end Pages

/-- Whatever is done as a user is done for a connection from the user. -/
theorem from_of_asks {s : State} {c : Connection} {before : List (Deed × Int)} {deed : Deed}
    {usr : Str} (asked : Asks (handleConnect s c) before deed) (acts : deed.actsAs = some usr) :
    usr ≠ [] ∧ ∃ n, From s c usr n := by
  have respects : (handleConnect s c).Respects (fun _ _ => True) (fun deed =>
      ∀ usr, deed.actsAs = some usr → usr ≠ [] ∧ ∃ n, From s c usr n) fun _ => True := by
    refine respects_ofOption fun read ran => ?_
    split
    · trivial
    · rename_i req
      refine respects_reply (fun user deed own usr acts => ?_) fun deed none usr acts => ?_
      · obtain rfl := Option.some.inj (own.symm.trans acts)
        rcases user_of_read ran with noOne | ⟨value, n, session, number, known⟩
        · exact absurd noOne user
        · exact ⟨user, n, req, value, ran, session, number, known⟩
      · rw [none] at acts
        cases acts
  exact respects.asks asked (fun _ _ => trivial) usr acts

end Deeds

/-! What becomes of the sessions -/

/-- What a connection does to the sessions: nothing, or one is added after a login that was
accepted. -/
inductive Turned (s : State) (randoms : List Nat) (deeds : List (Deed × Int)) :
    State × Option Nat → Prop where
  | kept {s' : State} (same : s'.cookieMp = s.cookieMp) : Turned s randoms deeds (s', none)
  | issued {usr pwd : Str} {ret : Int} {n : Nat} {cookies : UMap Nat Str}
      (login : (.action (.signIn usr pwd), ret) ∈ deeds) (accepted : 0 ≤ ret)
      (created : createCookie randoms s.cookieMp usr = some (n, cookies)) :
      Turned s randoms deeds ({ s with cookieMp := cookies }, some n)

section Turns
variable {s : State} {c : Connection} {deeds : List (Deed × Int)} {r : State × Option Nat}

/-- A page that leaves the state as it is. -/
theorem turned_after {α : Type} {p : Doing α} {randoms : List Nat}
    (spoken : Conversation (p.bind fun _ => .done (s, none)) deeds r) : Turned s randoms deeds r := by
  obtain ⟨first, second, middle, rfl, -, ends⟩ := conversation_bind.mp spoken
  obtain ⟨-, rfl⟩ := conversation_done.mp ends
  exact .kept rfl

theorem turned_login {req : EmailReply.Request} {randoms : List Nat}
    (spoken : Conversation (loginPage s randoms req) deeds r) : Turned s randoms deeds r := by
  rw [loginPage] at spoken
  split at spoken
  · obtain ⟨-, rfl⟩ := conversation_done.mp spoken
    exact .kept rfl
  split at spoken
  · obtain ⟨first, second, params, rfl, -, form⟩ := conversation_bind.mp spoken
    obtain ⟨asked, later, ret, rfl, answered, after⟩ := conversation_bind.mp form
    obtain rfl := conversation_question.mp answered
    split at after
    · rename_i accepted
      obtain ⟨none, last, cookie, rfl, made, ends⟩ := conversation_bind.mp after
      obtain ⟨-, created⟩ := conversation_ofOption.mp made
      obtain ⟨-, rfl⟩ := conversation_done.mp ends
      have login : (.action (.signIn params.1 params.2), ret) ∈
          first ++ ([(.action (.signIn params.1 params.2), ret)] ++ (none ++ last)) := by simp
      exact .issued login accepted created
    · obtain ⟨-, rfl⟩ := conversation_done.mp after
      exact .kept rfl
  · obtain ⟨-, rfl⟩ := conversation_done.mp spoken
    exact .kept rfl

theorem kept_display {req : EmailReply.Request} {mails : Str → List Mail} {s' : State}
    (spoken : Conversation (displayPage s mails req) deeds s') : s'.cookieMp = s.cookieMp := by
  rw [displayPage] at spoken
  split at spoken
  · obtain ⟨-, rfl⟩ := conversation_done.mp spoken
    rfl
  · obtain ⟨-, second, index, -, -, spoken⟩ := conversation_bind.mp spoken
    obtain ⟨-, third, read, -, -, spoken'⟩ := conversation_bind.mp spoken
    obtain ⟨-, fourth, handled, -, -, sent⟩ := conversation_bind.mp spoken'
    obtain ⟨-, fifth, done, -, -, ends⟩ := conversation_bind.mp sent
    obtain ⟨-, rfl⟩ := conversation_done.mp ends
    rfl

theorem turned_of_conversation (spoken : Conversation (handleConnect s c) deeds r) :
    Turned s c.randoms deeds r := by
  obtain ⟨first, second, read, rfl, silent, spoken⟩ := conversation_bind.mp spoken
  obtain ⟨rfl, -⟩ := conversation_ofOption.mp silent
  rw [List.nil_append]
  cases read with
  | none =>
    obtain ⟨-, rfl⟩ := conversation_done.mp spoken
    exact .kept rfl
  | some req =>
    have same : Conversation (reply s c req.toRequest) second r := spoken
    rw [reply] at same
    split at same
    · exact turned_login same
    split at same
    · exact turned_after same
    split at same
    · obtain ⟨-, rfl⟩ := conversation_done.mp same
      exact .kept rfl
    split at same
    · exact turned_after same
    split at same
    · exact turned_after same
    split at same
    · split at same
      · obtain ⟨-, rfl⟩ := conversation_done.mp same
        exact .kept rfl
      · exact turned_after same
    split at same
    · obtain ⟨front, back, s', rfl, shown, ends⟩ := conversation_bind.mp same
      obtain ⟨-, rfl⟩ := conversation_done.mp ends
      exact .kept (kept_display shown)
    · obtain ⟨-, rfl⟩ := conversation_done.mp same
      exact .kept rfl

end Turns

section Cookies
variable {randoms : List Nat} {cookieMp cookies : UMap Nat Str} {usr : Str} {n : Nat}

/-- A new session has a number that no session has. All others end where there were more than a
thousand. -/
theorem createCookie_spec (created : createCookie randoms cookieMp usr = some (n, cookies)) :
    cookies.lookup n = some usr ∧ cookies.keys.length ≤ cookieMp.keys.length + 1 ∧
      cookies.keys.length ≤ 1001 ∧
      (∀ k, k ≠ n → cookies.lookup k = none ∨ cookies.lookup k = cookieMp.lookup k) ∧
      (cookieMp.keys.length ≤ 1000 → cookieMp.lookup n = none ∧
        ∀ k, k ≠ n → cookies.lookup k = cookieMp.lookup k) := by
  obtain ⟨k, found, same⟩ := Option.map_eq_some_iff.mp created
  obtain ⟨rfl, rfl⟩ := Prod.mk.inj same
  have unused := List.find?_some found
  have length : ∀ m : UMap Nat Str, (m.insert k usr).keys.length ≤ m.keys.length + 1 := by
    intro m
    rw [AList.keys_insert, List.length_cons]
    have := List.length_erase_le (a := k) (l := m.keys)
    omega
  have here : ∀ m : UMap Nat Str, (m.insert k usr).lookup k = some usr := fun m => AList.lookup_insert m
  by_cases many : 1000 < cookieMp.keys.length
  · have few := length ∅
    have zero : (∅ : UMap Nat Str).keys.length = 0 := rfl
    simp only [if_pos many] at unused ⊢
    refine ⟨here ∅, by omega, by omega, fun j other => .inl ?_, by omega⟩
    rw [AList.lookup_insert_ne other]
    rfl
  · have few := length cookieMp
    simp only [if_neg many] at unused ⊢
    have others : ∀ j, j ≠ k → (cookieMp.insert k usr).lookup j = cookieMp.lookup j :=
      fun j other => AList.lookup_insert_ne other
    refine ⟨here cookieMp, few, by omega, fun j other => .inr (others j other), fun _ => ?_⟩
    exact ⟨Option.isNone_iff_eq_none.mp unused, others⟩

end Cookies

/-! Whole runs -/

/-- The connection is one in which somebody who gave the password of the user was let in and got
the number. -/
def LogsIn (v : Served) (usr : Str) (n : Nat) : Prop := v.number = some n ∧
  ∃ pwd ret, (.action (.signIn usr pwd), ret) ∈ v.deeds ∧ 0 ≤ ret

theorem turned_served {s last : State} {v : Served}
    (spoken : Conversation (handleConnect s v.connection) v.deeds (last, v.number)) :
    v.number = none ∧ last.cookieMp = s.cookieMp ∨ ∃ usr n, LogsIn v usr n ∧
      createCookie v.connection.randoms s.cookieMp usr = some (n, last.cookieMp) := by
  have turned := turned_of_conversation spoken
  generalize number : v.number = given at turned
  cases turned with
  | kept same => exact .inl ⟨rfl, same⟩
  | issued login accepted created =>
    exact .inr ⟨_, _, ⟨number, _, _, login, accepted⟩, created⟩

/-- Every session that is alive was given out at a login of its user. -/
theorem sessions_issued {past : List Served} {s : State} (served : Serves {} past s) {n : Nat}
    {usr : Str} (alive : s.cookieMp.lookup n = some usr) : ∃ v ∈ past, LogsIn v usr n := by
  induction served generalizing n usr with
  | start => cases alive
  | @next s' last past v before spoken ih =>
    have earlier : s'.cookieMp.lookup n = some usr → ∃ w ∈ past ++ [v], LogsIn w usr n := by
      intro known
      obtain ⟨w, mem, logs⟩ := ih known
      exact ⟨w, List.mem_append_left _ mem, logs⟩
    rcases turned_served spoken with ⟨-, same⟩ | ⟨usr', k, logs, created⟩
    · rw [same] at alive
      exact earlier alive
    · obtain ⟨here, -, -, others, -⟩ := createCookie_spec created
      by_cases own : n = k
      · subst own
        cases here.symm.trans alive
        exact ⟨v, by simp, logs⟩
      · rcases others n own with gone | same
        · rw [gone] at alive
          cases alive
        · exact earlier (same.symm.trans alive)

/-- Whatever the front end does as a user, but for letting in and signing up, it does for a client
whose cookie has a number that was given out at an earlier login of that user, with a password that
was accepted then. -/
theorem acts_for_logged_in {past : List Served} {s : State} (served : Serves {} past s)
    {c : Connection} {before : List (Deed × Int)} {deed : Deed} {usr : Str}
    (asked : Asks (handleConnect s c) before deed) (acts : deed.actsAs = some usr) :
    usr ≠ [] ∧ ∃ n, From s c usr n ∧ ∃ v ∈ past, LogsIn v usr n := by
  obtain ⟨somebody, n, visitor⟩ := from_of_asks asked acts
  obtain ⟨req, value, read, session, number, alive⟩ := visitor
  exact ⟨somebody, n, ⟨req, value, read, session, number, alive⟩, sessions_issued served alive⟩

/-- A client that sends this, where the generator draws the number. -/
def client (number : Nat) (stream : String) : Connection where
  stream := stream.toList
  uninitialised := 0
  allocates _ := true
  randoms := [number]
  mails _ := []

def bobLogsIn : Connection :=
  client 5 "POST /login HTTP/1.1\r\nContent-Length: 23\r\n\r\nusername=bob&password=x"

def bobIsIn : State := { cookieMp := AList.insert 5 "bob".toList ∅ }

/-- What a connection ended with, the sessions entry by entry. -/
structure Shown where
  sessions : List (Nat × Str)
  toBeDeleted : Int
  number : Option Nat
  deeds : List (Deed × Int)
  deriving DecidableEq

def shown (r : (State × Option Nat) × List (Deed × Int)) : Shown :=
  ⟨r.1.1.cookieMp.entries.map fun e => (e.1, e.2), r.1.1.toBeDeleted, r.1.2, r.2⟩

theorem conversation_of_shown {s last : State} {c : Connection} {answers : List Int}
    {number : Option Nat} {deeds : List (Deed × Int)}
    (ran : ((handleConnect s c).converse answers).map shown = some (shown ((last, number), deeds))) :
    Conversation (handleConnect s c) deeds (last, number) := by
  obtain ⟨⟨⟨s', number'⟩, deeds'⟩, spoken, same⟩ := Option.map_eq_some_iff.mp ran
  simp only [shown, Shown.mk.injEq] at same
  obtain ⟨pairs, toBeDeleted, rfl, rfl⟩ := same
  have entries : s'.cookieMp.entries = last.cookieMp.entries := by
    refine List.map_injective_iff.mpr ?_ pairs
    rintro ⟨n, usr⟩ ⟨n', usr'⟩ same
    cases same
    rfl
  obtain ⟨cookieMp, t⟩ := s'
  obtain rfl : t = last.toBeDeleted := toBeDeleted
  obtain rfl : cookieMp = last.cookieMp := AList.ext entries
  exact (conversation_of_converse spoken).1

theorem bob_logged_in : Conversation (handleConnect {} bobLogsIn)
    [(.action (.signIn "bob".toList "x".toList), 1)] (bobIsIn, some 5) := by
  have ran : ((handleConnect {} bobLogsIn).converse [1]).map shown = some (shown ((bobIsIn, some 5),
      [(.action (.signIn "bob".toList "x".toList), 1)])) := by decide +kernel
  exact conversation_of_shown ran

/-- Bob logs in, and looks at his files with the number that he got. -/
theorem bob_acts : ∃ past c, Serves {} past bobIsIn ∧
    Asks (handleConnect bobIsIn c) [] (.displayFiles "bob".toList "/file".toList) ∧
    "bob".toList ≠ [] ∧ ∃ n, From bobIsIn c "bob".toList n ∧ ∃ v ∈ past, LogsIn v "bob".toList n := by
  have served : Serves {} [⟨bobLogsIn, _, some 5⟩] bobIsIn := .next (.start {}) bob_logged_in
  have ran : ((handleConnect bobIsIn
      (client 0 "GET /file HTTP/1.1\r\nCookie: sessionid=5\r\n\r\n")).converse [0]).map shown =
        some (shown ((bobIsIn, none), [(.displayFiles "bob".toList "/file".toList, 0)])) := by
    decide +kernel
  have asked : Asks (handleConnect bobIsIn
      (client 0 "GET /file HTTP/1.1\r\nCookie: sessionid=5\r\n\r\n")) []
        (.displayFiles "bob".toList "/file".toList) :=
    asks_of_conversation (conversation_of_shown ran)
  exact ⟨_, _, served, asked, acts_for_logged_in served asked rfl⟩

/-- The logins among the connections. -/
def logins (past : List Served) : Nat := (past.filter fun v => v.number.isSome).length

/-- A session stays the one of its user as long as no more than a thousand and one sessions were
ever alive together with those that were given out since. -/
theorem session_lasts {past : List Served} {s last : State} (served : Serves s past last) {n : Nat}
    {usr : Str} (alive : s.cookieMp.lookup n = some usr)
    (few : s.cookieMp.keys.length + logins past ≤ 1001) : last.cookieMp.lookup n = some usr := by
  suffices both : last.cookieMp.lookup n = some usr ∧
      last.cookieMp.keys.length ≤ s.cookieMp.keys.length + logins past from both.1
  induction served with
  | start => exact ⟨alive, Nat.le_add_right ..⟩
  | @next s' last past v before spoken ih =>
    rcases turned_served spoken with ⟨none, same⟩ | ⟨usr', k, logs, created⟩
    · have count : logins (past ++ [v]) = logins past := by simp [logins, none]
      rw [count] at few ⊢
      rw [same]
      exact ih few
    · have count : logins (past ++ [v]) = logins past + 1 := by simp [logins, logs.1]
      rw [count] at few ⊢
      obtain ⟨still, size⟩ := ih (by omega)
      obtain ⟨-, more, -, -, kept⟩ := createCookie_spec created
      obtain ⟨unused, others⟩ := kept (by omega)
      have other : n ≠ k := by
        rintro rfl
        rw [unused] at still
        cases still
      exact ⟨(others n other).trans still, by omega⟩

/-- Alice logs in after Bob, whose session stays. -/
theorem bob_stays : ∃ past last, Serves bobIsIn past last ∧ logins past = 1 ∧
    last.cookieMp.lookup 5 = some "bob".toList := by
  let both : State := { cookieMp := AList.insert 6 "alice".toList bobIsIn.cookieMp }
  let alice : Connection := client 6
    "POST /login HTTP/1.1\r\nContent-Length: 25\r\n\r\nusername=alice&password=y"
  have ran : ((handleConnect bobIsIn alice).converse [1]).map shown = some (shown ((both, some 6),
      [(.action (.signIn "alice".toList "y".toList), 1)])) := by decide +kernel
  have served : Serves bobIsIn [⟨alice, _, some 6⟩] both :=
    .next (.start bobIsIn) (conversation_of_shown ran)
  exact ⟨_, _, served, rfl, session_lasts served (by decide) (by decide)⟩

end FrontEndSessions
