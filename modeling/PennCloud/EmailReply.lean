import Mathlib.Data.List.Infix
import PennCloud.Mailbox
import PennCloud.Runs

/-!
# The mail pages of the front end

`email_reply.h` and the part of `reply` that leads to it. One variable of the
program, not of the session, carries the id of an opened mail to the request
that deletes it. The pages themselves are left out; a handler is what it calls
of `email.h` and what becomes of the variable.
-/

namespace EmailReply

open Text Mailbox Runs

structure Request where
  username : Str
  method : Str
  path : Str
  body : Str
  deriving DecidableEq, Repr

/-- A request, and what `get_mails` returns while it is handled. -/
structure Visit where
  req : Request
  mails : List Mail
  deriving DecidableEq, Repr

/-- The calls of `email.h`. -/
inductive Call where
  | getMails (usr : Str)
  | sendMails (usr : Str) (recipients : List Str) (text : Str)
  | deleteMail (usr : Str) (id : Nat)
  deriving DecidableEq, Repr

/-- The variable `to_be_deleted`, and all calls so far. -/
structure Frontend where
  toBeDeleted : Int := 0
  calls : List Call := []
  deriving DecidableEq, Repr

/-- An `int` as a `uint64_t`. -/
def toId (n : Int) : Nat := (n % 2 ^ 64).toNat

def contains (s word : Str) : Bool := decide (word <:+: s)

def FORWARD_SEPERATOR : Str := "\n --------- FORWARD MESSAGE --------- \n".toList

def REPLY_SEPERATOR : Str := "\n --------- REPLY MESSAGE --------- \n".toList

def EMAIL_SUFFIX : Str := "@localhost".toList

/-- The recipients of a field with commas. -/
def recipientList (recipients : Str) : List Str :=
  (split recipients ',').map fun r => r.dropWhile (· = ' ')

/-- The pieces of the body from a place on, up to the two at its end. -/
def content (vec : List Str) (start : Nat) : Str := ((vec.take (vec.length - 2)).drop start).flatten

/-- `vec[7].substr(1)`, `none` where there is no such piece or it is cut out of range. -/
def recipientsField (vec : List Str) : Option Str :=
  vec[7]?.bind fun field => if field = [] then none else some (field.drop 1)

/-- `email_inbox_handler`, for a user who is logged in. -/
def emailInboxHandler (f : Frontend) (req : Request) : Option (List Call) :=
  if req.method = "GET".toList then some [.getMails req.username]
  else
    let vec := split req.body '\r'
    vec[1]?.bind fun kind =>
      if contains kind "name=\"WRIT\"".toList then
        (recipientsField vec).map fun recipients =>
          [.sendMails req.username (recipientList recipients) (content vec 11 ++ "\r\n".toList)]
      else if contains kind "name=\"DELE\"".toList then
        some [.deleteMail req.username (toId f.toBeDeleted)]
      else some []

/-- The number behind the first equals sign of the path, or the whole path is read where there
is none. -/
def emailIndex (path : Str) : Option Int :=
  stoiSigned (if '=' ∈ path then (getLine '=' path).2 else path)

/-- The last mail with the id, or the empty one. -/
def displayedEmail (mails : List Mail) (id : Int) : Mail :=
  ((mails.filter fun m => m.id = toId id).getLast?).getD ⟨0, [], [], []⟩

/-- What follows a forwarded or answered mail. -/
def quoted (separator : Str) (m : Mail) : Str :=
  separator ++ "From: ".toList ++ m.usr ++ "\n Date: ".toList ++ m.time ++ "\n ".toList ++ m.text

/-- The recipients and the text of a mail that is sent from the page of another mail. -/
def composed (vec : List Str) (displayed : Mail) : Option (Str × Str) :=
  vec[1]?.bind fun kind =>
    if contains kind "name=\"WRIT\"".toList then
      (recipientsField vec).map fun recipients => (recipients, content vec 11)
    else if contains kind "name=\"FORW\"".toList then
      (recipientsField vec).map fun recipients =>
        (recipients, content vec 11 ++ quoted FORWARD_SEPERATOR displayed)
    else if contains kind "name=\"REPL\"".toList then
      some (if '@' ∈ displayed.usr then displayed.usr else displayed.usr ++ EMAIL_SUFFIX,
        content vec 7 ++ quoted REPLY_SEPERATOR displayed)
    else some ([], [])

/-- `email_display_handler`: the new value of the variable, and the calls. -/
def emailDisplayHandler (v : Visit) : Option (Int × List Call) :=
  (emailIndex v.req.path).bind fun index =>
    let calls := [.getMails v.req.username]
    if v.req.method = "GET".toList then some (index, calls)
    else
      (composed (split v.req.body '\r') (displayedEmail v.mails index)).map fun sent =>
        (index, calls ++
          [.sendMails v.req.username (recipientList sent.1) (sent.2 ++ "\r\n".toList)])

/-- The request goes to `email_inbox_handler`, and is not sent to the login page. -/
def ToInbox (req : Request) : Prop := req.path = "/email_inbox".toList ∧ req.username ≠ []

/-- The request goes to `email_display_handler`. -/
def ToDisplay (req : Request) : Prop :=
  "/email_display".toList <+: req.path ∧ req.username ≠ []

instance : DecidablePred ToInbox := fun _ => inferInstanceAs (Decidable (_ ∧ _))

instance : DecidablePred ToDisplay := fun _ => inferInstanceAs (Decidable (_ ∧ _))

/-- `reply`. The other pages neither read nor write the variable, and call nothing of `email.h`. -/
def reply (f : Frontend) (v : Visit) : Option Frontend :=
  if ToInbox v.req then
    (emailInboxHandler f v.req).map fun calls => { f with calls := f.calls ++ calls }
  else if ToDisplay v.req then
    (emailDisplayHandler v).map fun handled =>
      { toBeDeleted := handled.1, calls := f.calls ++ handled.2 }
  else some f

/-! ### What a request does to the variable and deletes -/

/-- The id of the mail that the request opens. -/
def openedId (req : Request) : Option Int := if ToDisplay req then emailIndex req.path else none

/-- The request is a DELE post. -/
def Deletes (req : Request) : Prop := ToInbox req ∧ req.method ≠ "GET".toList ∧
  ∃ kind ∈ (split req.body '\r')[1]?, contains kind "name=\"WRIT\"".toList = false ∧
    contains kind "name=\"DELE\"".toList = true

instance : DecidablePred Deletes := fun _ => inferInstanceAs (Decidable (_ ∧ _ ∧ _))

/-- The ids passed to `delete_mail` for a user. -/
def deletions (usr : Str) (calls : List Call) : List Nat :=
  calls.filterMap fun
    | .deleteMail u id => if u = usr then some id else none
    | _ => none

theorem not_inbox_of_display {req : Request} (h : ToDisplay req) : ¬ ToInbox req := by
  rintro ⟨path, -⟩
  have front := h.1
  rw [path] at front
  exact absurd front (by decide)

theorem deletions_inbox {f : Frontend} {req : Request} {calls : List Call} (inbox : ToInbox req)
    (h : emailInboxHandler f req = some calls) (usr : Str) :
    deletions usr calls =
      if Deletes req ∧ req.username = usr then [toId f.toBeDeleted] else [] := by
  unfold emailInboxHandler at h
  split at h
  · rename_i get
    cases h
    rw [if_neg fun deletes => deletes.1.2.1 get]
    rfl
  · rename_i post
    obtain ⟨kind, piece, h⟩ := Option.bind_eq_some_iff.mp h
    split at h
    · rename_i write
      obtain ⟨recipients, -, rfl⟩ := Option.map_eq_some_iff.mp h
      have not : ¬ Deletes req := by
        rintro ⟨-, -, kind', piece', noWrite, -⟩
        obtain rfl : kind = kind' := Option.some.inj (piece.symm.trans piece')
        rw [write] at noWrite
        cases noWrite
      rw [if_neg fun deletes => not deletes.1]
      rfl
    · rename_i noWrite
      split at h
      · rename_i dele
        cases h
        have deletes : Deletes req := ⟨inbox, post, kind, piece, by simpa using noWrite, dele⟩
        by_cases own : req.username = usr
        · simp [deletions, deletes, own]
        · simp [deletions, own]
      · rename_i noDele
        cases h
        have not : ¬ Deletes req := by
          rintro ⟨-, -, kind', piece', -, dele⟩
          obtain rfl : kind = kind' := Option.some.inj (piece.symm.trans piece')
          exact noDele dele
        rw [if_neg fun deletes => not deletes.1]
        rfl

theorem display_some {v : Visit} {handled : Int × List Call}
    (h : emailDisplayHandler v = some handled) :
    emailIndex v.req.path = some handled.1 ∧ ∀ usr, deletions usr handled.2 = [] := by
  unfold emailDisplayHandler at h
  obtain ⟨index, found, h⟩ := Option.bind_eq_some_iff.mp h
  simp only at h
  split at h
  · cases h
    exact ⟨found, fun _ => rfl⟩
  · obtain ⟨sent, -, rfl⟩ := Option.map_eq_some_iff.mp h
    exact ⟨found, fun _ => rfl⟩

theorem deletions_append (usr : Str) (a b : List Call) :
    deletions usr (a ++ b) = deletions usr a ++ deletions usr b := List.filterMap_append

/-- One request: an opened mail is remembered, and a DELE post passes on what is remembered. -/
theorem reply_some {f f' : Frontend} {v : Visit} (h : reply f v = some f') (usr : Str) :
    f'.toBeDeleted = (openedId v.req).getD f.toBeDeleted ∧
      deletions usr f'.calls = deletions usr f.calls ++
        if Deletes v.req ∧ v.req.username = usr then [toId f.toBeDeleted] else [] := by
  unfold reply at h
  split at h
  · rename_i inbox
    obtain ⟨calls, handled, rfl⟩ := Option.map_eq_some_iff.mp h
    have noDisplay : ¬ ToDisplay v.req := fun display => not_inbox_of_display display inbox
    rw [openedId, if_neg noDisplay, deletions_append, deletions_inbox inbox handled]
    exact ⟨rfl, rfl⟩
  · rename_i noInbox
    rw [if_neg fun deletes => noInbox deletes.1.1, List.append_nil]
    split at h
    · rename_i display
      obtain ⟨handled, found, rfl⟩ := Option.map_eq_some_iff.mp h
      obtain ⟨index, none⟩ := display_some found
      rw [openedId, if_pos display, index, deletions_append, none, List.append_nil]
      exact ⟨rfl, rfl⟩
    · rename_i noDisplay
      cases h
      rw [openedId, if_neg noDisplay]
      exact ⟨rfl, rfl⟩

/-! ### Runs -/

/-- The id that was opened last, by whoever it was. -/
def lastOpened (reqs : List Request) : Int := reqs.foldl (fun id req => (openedId req).getD id) 0

/-- The ids that the DELE posts of a user pass on, where `id` is remembered before the requests. -/
def passed (usr : Str) : Int → List Request → List Nat
  | _, [] => []
  | id, req :: reqs =>
    (if Deletes req ∧ req.username = usr then [toId id] else []) ++
      passed usr ((openedId req).getD id) reqs

def own (usr : Str) (reqs : List Request) : List Request := reqs.filter fun req => req.username = usr

/-- Before each DELE post of the user the mail opened last, by anyone, has the id of the mail that
the user opened last. -/
def Undisturbed (usr : Str) (reqs : List Request) : Prop :=
  ∀ before req after, reqs = before ++ req :: after → Deletes req → req.username = usr →
    lastOpened before = lastOpened (own usr before)

theorem deletions_run {visits : List Visit} {f f' : Frontend}
    (ran : run reply f visits = some f') (usr : Str) :
    deletions usr f'.calls =
      deletions usr f.calls ++ passed usr f.toBeDeleted (visits.map Visit.req) := by
  induction visits generalizing f with
  | nil =>
    cases ran
    exact (List.append_nil _).symm
  | cons v visits ih =>
    obtain ⟨next, first, rest⟩ := run_cons_eq_some.mp ran
    obtain ⟨remembered, deleted⟩ := reply_some first usr
    rw [ih rest, remembered, deleted, List.append_assoc]
    rfl

theorem isInt_opened (req : Request) {id : Int} (h : IsInt id) : IsInt ((openedId req).getD id) := by
  cases found : openedId req with
  | none => exact h
  | some index =>
    rw [openedId] at found
    split at found
    · exact isInt_stoiSigned found
    · cases found

theorem toId_inj {m n : Int} (hm : IsInt m) (hn : IsInt n) (h : toId m = toId n) : m = n := by
  simp only [toId, IsInt] at *
  omega

/-- The ids passed on are those of the user's own run just where no one else opened another mail
in between. -/
theorem passed_own_iff (usr : Str) (reqs : List Request) {a b : Int} (ha : IsInt a) (hb : IsInt b) :
    passed usr a reqs = passed usr b (own usr reqs) ↔
      ∀ before req after, reqs = before ++ req :: after → Deletes req → req.username = usr →
        before.foldl (fun id req => (openedId req).getD id) a =
          (own usr before).foldl (fun id req => (openedId req).getD id) b := by
  induction reqs generalizing a b with
  | nil =>
    simp [passed, own]
  | cons req reqs ih =>
    have splits (P : List Request → Request → Prop) :
        (∀ before r after, req :: reqs = before ++ r :: after → P before r) ↔
          P [] req ∧ ∀ before r after, reqs = before ++ r :: after → P (req :: before) r := by
      constructor
      · intro h
        refine ⟨h [] req reqs rfl, fun before r after same => h (req :: before) r after ?_⟩
        rw [same, List.cons_append]
      · rintro ⟨first, later⟩ before r after same
        cases before with
        | nil =>
          obtain ⟨rfl, -⟩ := List.cons.inj same
          exact first
        | cons x before =>
          obtain ⟨rfl, rest⟩ := List.cons.inj same
          exact later before r after rest
    rw [splits fun before r => Deletes r → r.username = usr →
      before.foldl (fun id req => (openedId req).getD id) a =
        (own usr before).foldl (fun id req => (openedId req).getD id) b]
    by_cases mine : req.username = usr
    · have kept : ∀ before, own usr (req :: before) = req :: own usr before := fun before =>
        List.filter_cons_of_pos (by simpa using mine)
      have rest := ih (isInt_opened req ha) (isInt_opened req hb)
      simp only [kept, List.foldl_cons, passed, mine, and_true]
      by_cases deletes : Deletes req
      · simp only [deletes, if_true, List.singleton_append, List.cons.injEq, rest]
        have same : toId a = toId b ↔ a = b := ⟨toId_inj ha hb, congrArg toId⟩
        simp [same, own]
      · simp only [deletes, if_false, List.nil_append, rest]
        simp
    · have gone : ∀ before, own usr (req :: before) = own usr before := fun before =>
        List.filter_cons_of_neg (by simpa using mine)
      have rest := ih (isInt_opened req ha) hb
      simp only [gone, List.foldl_cons, passed, mine, and_false, if_false, List.nil_append, rest]
      simp

/-! ### What a request that throws depends on -/

theorem inbox_isSome (f f' : Frontend) (req : Request) :
    (emailInboxHandler f req).isSome = (emailInboxHandler f' req).isSome := by
  unfold emailInboxHandler
  split
  · rfl
  · dsimp only
    cases (split req.body '\r')[1]? with
    | none => rfl
    | some kind =>
      simp only [Option.bind_some]
      split
      · rfl
      split <;> rfl

theorem composed_isSome (vec : List Str) (m m' : Mail) :
    (composed vec m).isSome = (composed vec m').isSome := by
  unfold composed
  cases vec[1]? with
  | none => rfl
  | some kind =>
    simp only [Option.bind_some]
    split
    · rfl
    split
    · simp only [Option.isSome_map]
    split <;> rfl

/-- Whether a request is handled is a matter of the request alone. -/
theorem reply_isSome (f f' : Frontend) {v v' : Visit} (same : v.req = v'.req) :
    (reply f v).isSome = (reply f' v').isSome := by
  have display : (emailDisplayHandler v).isSome = (emailDisplayHandler v').isSome := by
    unfold emailDisplayHandler
    rw [same]
    cases emailIndex v'.req.path with
    | none => rfl
    | some index =>
      simp only [Option.bind_some]
      split
      · rfl
      · rw [Option.isSome_map, Option.isSome_map]
        exact composed_isSome _ _ _
  unfold reply
  rw [same]
  split
  · rw [Option.isSome_map, Option.isSome_map, inbox_isSome f f']
  split
  · rw [Option.isSome_map, Option.isSome_map, display]
  · rfl

/-- A run can be taken again with fewer requests and other mailboxes. -/
theorem run_of_subset {visits : List Visit} {f f' : Frontend}
    (ran : run reply f visits = some f') {fewer : List Visit} (g : Frontend)
    (among : ∀ v ∈ fewer, v.req ∈ visits.map Visit.req) : ∃ g', run reply g fewer = some g' := by
  have handled : ∀ v ∈ visits, ∀ g : Frontend, (reply g v).isSome := by
    intro v hv g
    obtain ⟨before, after, rfl⟩ := List.append_of_mem hv
    rw [run_append] at ran
    obtain ⟨mid, -, rest⟩ := Option.bind_eq_some_iff.mp ran
    obtain ⟨next, replied, -⟩ := run_cons_eq_some.mp rest
    rw [reply_isSome g mid rfl, replied]
    rfl
  induction fewer generalizing g with
  | nil => exact ⟨g, rfl⟩
  | cons v fewer ih =>
    obtain ⟨first, later⟩ := List.forall_mem_cons.mp among
    obtain ⟨w, hw, same⟩ := List.mem_map.mp first
    obtain ⟨next, replied⟩ :=
      Option.isSome_iff_exists.mp ((reply_isSome g g same).symm.trans (handled w hw g))
    obtain ⟨g', rest⟩ := ih next later
    exact ⟨g', run_cons_eq_some.mpr ⟨next, replied, rest⟩⟩

/-- Take the other users' requests out of a run, whatever `get_mails` then returns: the user's
requests are handled still, each DELE post deletes the mail that the user opened last, and it
deletes the same mail as before if and only if no one else had opened another one in between. -/
theorem deletes_own_iff (usr : Str) (visits : List Visit) (f : Frontend)
    (ran : run reply {} visits = some f) (alone : List Visit)
    (mine : alone.map Visit.req = own usr (visits.map Visit.req)) :
    ∃ g, run reply {} alone = some g ∧
      deletions usr g.calls = passed usr 0 (own usr (visits.map Visit.req)) ∧
      (deletions usr f.calls = deletions usr g.calls ↔ Undisturbed usr (visits.map Visit.req)) := by
  have among : ∀ v ∈ alone, v.req ∈ visits.map Visit.req := by
    intro v hv
    have there : v.req ∈ own usr (visits.map Visit.req) := mine ▸ List.mem_map_of_mem hv
    exact List.mem_of_mem_filter there
  obtain ⟨g, again⟩ := run_of_subset ran {} among
  have deleted : deletions usr g.calls = passed usr 0 (own usr (visits.map Visit.req)) :=
    (deletions_run again usr).trans (by rw [mine]; rfl)
  refine ⟨g, again, deleted, ?_⟩
  rw [deletions_run ran usr, deleted]
  exact passed_own_iff usr _ (by decide) (by decide)

/-- The page of a mail is opened. -/
def opens (usr index : String) : Visit :=
  ⟨⟨usr.toList, "GET".toList, "/email_display?index=".toList ++ index.toList, []⟩, []⟩

/-- The form on the page of a mail that deletes it. -/
def deletes (usr : String) : Visit :=
  ⟨⟨usr.toList, "POST".toList, "/email_inbox".toList, "--\r\nname=\"DELE\"\r\n".toList⟩, []⟩

theorem deletes_own_alone : ∃ f g,
    run reply {} [opens "bob" "7", opens "al" "5", deletes "al"] = some f ∧
    run reply {} [opens "al" "5", deletes "al"] = some g ∧
    (deletions "al".toList f.calls = deletions "al".toList g.calls ↔
      Undisturbed "al".toList
        ([opens "bob" "7", opens "al" "5", deletes "al"].map Visit.req)) := by
  have outcome : (run reply {} [opens "bob" "7", opens "al" "5", deletes "al"]).isSome := by
    decide +kernel
  obtain ⟨f, ran⟩ := Option.isSome_iff_exists.mp outcome
  obtain ⟨g, again, -, same⟩ := deletes_own_iff "al".toList _ f ran
    [opens "al" "5", deletes "al"] (by decide +kernel)
  exact ⟨f, g, ran, again, same⟩

/-- What one user opens decides which mail the other deletes. -/
theorem deletes_steered : ∃ visits f alone g, run reply {} visits = some f ∧
    run reply {} alone = some g ∧
    alone.map Visit.req = own "al".toList (visits.map Visit.req) ∧
    deletions "al".toList f.calls = [7] ∧ deletions "al".toList g.calls = [5] := by
  have first : (run reply {} [opens "al" "5", opens "bob" "7", deletes "al"]).map
      (fun f => deletions "al".toList f.calls) = some [7] := by decide +kernel
  have second : (run reply {} [opens "al" "5", deletes "al"]).map
      (fun f => deletions "al".toList f.calls) = some [5] := by decide +kernel
  obtain ⟨f, ran, seven⟩ := Option.map_eq_some_iff.mp first
  obtain ⟨g, again, five⟩ := Option.map_eq_some_iff.mp second
  exact ⟨_, f, _, g, ran, again, by decide +kernel, seven, five⟩

end EmailReply
