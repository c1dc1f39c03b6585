import PennCloud.Accounts
import PennCloud.FileService

/-!
# What accounts are for

A name belongs to nobody until somebody signs up with it, and to one user from then on. Of a user
the service keeps a password and files. Where the root folder could not be made at the sign-up, the
user has a password and no files, and that stays so.
-/

namespace AccountService

open Text StorageMetadata StorageHandler Dialogue Accounts FileService

/-- The empty text is the password of nobody. -/
abbrev Password := {pwd : Str // pwd ≠ []}

/-- What is kept under a name. -/
inductive Account where
  | nobody
  | bare (pwd : Password)
  | user (pwd : Password) (files : UserFiles)

def Account.pwd : Account → Str
  | .nobody => []
  | .bare pwd | .user pwd _ => pwd

/-- Another password, also where nobody had the name. -/
def Account.withPwd (new : Password) : Account → Account
  | .nobody | .bare _ => .bare new
  | .user _ files => .user new files

/-- How many entries were ever made. -/
def Account.made : Account → Nat
  | .user _ files => files.made
  | _ => 0

/-- What somebody wants of the front end under a name, and which connections open. -/
inductive Visit where
  | signUp (first second : Bool) (pwd : Str)
  | signIn (connects : Bool) (pwd : Str)
  | changePwd (connects : Bool) (oldPwd newPwd : Str)
  | request (env : Env) (fd : Int) (req : StorageServiceReq)

/-- What a visit ends with. -/
inductive Outcome where
  | signedUp (ret : Int) (made : Bool)
  | returned (ret : Int)
  | responded (resp : StorageServiceResp)

/-- The calls of a visit. -/
def visit (usr : Str) : Visit → Service Outcome
  | .signUp first second pwd =>
    (signUpPage first second usr pwd).bind fun r => .done (.signedUp r.1 r.2)
  | .signIn connects pwd => (signIn connects usr pwd).bind fun ret => .done (.returned ret)
  | .changePwd connects oldPwd newPwd =>
    (changePwd connects usr oldPwd newPwd).bind fun ret => .done (.returned ret)
  | .request env fd req => (serve env usr fd req).bind fun resp => .done (.responded resp)

def visitAll (usr : Str) : List Visit → Service (List Outcome)
  | [] => .done []
  | x :: rest =>
    (visit usr x).bind fun outcome => (visitAll usr rest).bind fun later =>
      .done (outcome :: later)

/-- What a storage request of somebody without a root folder ends with. -/
def unserved (usr : Str) : StorageServiceResp :=
  StorageServiceResp.cleared.fail
    ("Failed to initialize storage service for user ".toList ++ usr)

/-- What a visit does to the account, and what it ends with. -/
inductive Visits (usr : Str) : Account → Visit → Outcome → Account → Prop where
  | cutUp {a : Account} {second : Bool} {pwd : Str} :
      Visits usr a (.signUp false second pwd) (.signedUp LINK_ERR false) a
  | taken {a : Account} {second : Bool} {pwd : Str} {ret : Int} (there : a ≠ .nobody)
      (refused : ret < 0) : Visits usr a (.signUp true second pwd) (.signedUp ret false) a
  | joined {pwd : Password} :
      Visits usr .nobody (.signUp true true pwd) (.signedUp 0 true) (.user pwd noFiles)
  | halfJoined {pwd : Password} :
      Visits usr .nobody (.signUp true false pwd) (.signedUp 0 false) (.bare pwd)
  | cutIn {a : Account} {pwd : Str} :
      Visits usr a (.signIn false pwd) (.returned LINK_ERR) a
  | signedIn {a : Account} (there : a ≠ .nobody) :
      Visits usr a (.signIn true a.pwd) (.returned 1) a
  | wrong {a : Account} {pwd : Str} (there : a ≠ .nobody) (other : a.pwd ≠ pwd) :
      Visits usr a (.signIn true pwd) (.returned WRONG_PASS_ERR) a
  /-- Where the backend finds a value though nobody wrote one, it is the empty text. -/
  | stranger {pwd : Str} {ret : Int} (either : ret < 0 ∨ ret = 1 ∧ pwd = []) :
      Visits usr .nobody (.signIn true pwd) (.returned ret) .nobody
  | cutOff {a : Account} {oldPwd newPwd : Str} :
      Visits usr a (.changePwd false oldPwd newPwd) (.returned LINK_ERR) a
  | changed {a : Account} {new : Password} :
      Visits usr a (.changePwd true a.pwd new) (.returned 0) (a.withPwd new)
  | kept {a : Account} {oldPwd newPwd : Str} {ret : Int} (other : a.pwd ≠ oldPwd)
      (refused : ret < 0) : Visits usr a (.changePwd true oldPwd newPwd) (.returned ret) a
  | served {pwd : Password} {fs fs' : UserFiles} {env : Env} {fd : Int} {req : StorageServiceReq}
      {resp : StorageServiceResp} (performs : Performs usr fs req resp fs') :
      Visits usr (.user pwd fs) (.request env fd req) (.responded resp) (.user pwd fs')
  | unserved {a : Account} {env : Env} {fd : Int} {req : StorageServiceReq}
      (none : ∀ pwd files, a ≠ .user pwd files) :
      Visits usr a (.request env fd req) (.responded (unserved usr)) a

/-- One visit after the other. -/
inductive VisitsAll (usr : Str) : Account → List Visit → List Outcome → Account → Prop where
  | nil {a : Account} : VisitsAll usr a [] [] a
  | cons {a a' a'' : Account} {x : Visit} {outcome : Outcome} {rest : List Visit}
      {later : List Outcome} (first : Visits usr a x outcome a')
      (next : VisitsAll usr a' rest later a'') :
      VisitsAll usr a (x :: rest) (outcome :: later) a''

/-- The visits that are spoken of: nobody takes the empty password, and the storage requests are
regular. -/
def Visit.Sound (made : Nat) : Visit → Prop
  | .signUp _ _ pwd => pwd ≠ []
  | .signIn _ _ => True
  | .changePwd _ _ newPwd => newPwd ≠ []
  | .request env _ req => INT_MAX < env.fuel ∧ Regular made req

/-! What becomes of an account -/

/-- The storage requests among the visits. -/
def requests (visits : List Visit) : List StorageServiceReq :=
  visits.filterMap fun x => match x with
    | .request _ _ req => some req
    | _ => none

/-- The answers to storage requests among what visits ended with. -/
def responses (outcomes : List Outcome) : List StorageServiceResp :=
  outcomes.filterMap fun outcome => match outcome with
    | .responded resp => some resp
    | _ => none

/-- Only the current password lets in and can be changed, and the current one is the last one that
was taken over. Nobody signs up. -/
def Admits : Str → List Visit → List Outcome → Prop
  | _, [], [] => True
  | pwd, .signIn true given :: visits, .returned ret :: outcomes =>
    (ret = 1 ↔ given = pwd) ∧ Admits pwd visits outcomes
  | pwd, .changePwd true oldPwd newPwd :: visits, .returned ret :: outcomes =>
    (0 ≤ ret ↔ oldPwd = pwd) ∧ Admits (if oldPwd = pwd then newPwd else pwd) visits outcomes
  | pwd, .signUp _ _ _ :: visits, .signedUp ret made :: outcomes =>
    (ret < 0 ∧ made = false) ∧ Admits pwd visits outcomes
  | pwd, _ :: visits, _ :: outcomes => Admits pwd visits outcomes
  | _, _, _ => False

section History
variable {usr : Str} {pwd : Password} {fs : UserFiles} {a' : Account} {x : Visit} {outcome : Outcome}
  {visits : List Visit} {outcomes : List Outcome}

/-- A name that is free is taken. -/
theorem Visits.joins {own : Str}
    (visited : Visits usr .nobody (.signUp true true own) outcome a') :
    ∃ nonempty, outcome = .signedUp 0 true ∧ a' = .user ⟨own, nonempty⟩ noFiles := by
  cases visited with
  | taken there => exact absurd rfl there
  | @joined pwd => exact ⟨pwd.2, rfl, rfl⟩

/-- A visit keeps the user of the name, and only a storage request changes the files. -/
theorem Visits.keeps (visited : Visits usr (.user pwd fs) x outcome a') : ∃ new fs',
    a' = .user new fs' ∧ (∀ {rest later last}, PerformsAll usr fs' (requests rest) (responses later)
      last → PerformsAll usr fs (requests (x :: rest)) (responses (outcome :: later)) last) ∧
    ∀ {rest later}, Admits new rest later → Admits pwd (x :: rest) (outcome :: later) := by
  cases visited with
  | cutUp => exact ⟨pwd, fs, rfl, id, fun admits => ⟨⟨by decide, rfl⟩, admits⟩⟩
  | taken there refused => exact ⟨pwd, fs, rfl, id, fun admits => ⟨⟨refused, rfl⟩, admits⟩⟩
  | cutIn | cutOff => exact ⟨pwd, fs, rfl, id, id⟩
  | signedIn there => exact ⟨pwd, fs, rfl, id, fun admits => ⟨iff_of_true rfl rfl, admits⟩⟩
  | wrong there other =>
    exact ⟨pwd, fs, rfl, id, fun admits =>
      ⟨iff_of_false (by decide) fun same => other same.symm, admits⟩⟩
  | @changed _ new =>
    have known : (Account.user pwd fs).pwd = pwd := rfl
    refine ⟨new, fs, rfl, id, fun admits => ⟨iff_of_true (Int.le_refl 0) known, ?_⟩⟩
    rw [if_pos known]
    exact admits
  | kept other refused =>
    have differ : ¬ _ = pwd.1 := fun same => other same.symm
    refine ⟨pwd, fs, rfl, id, fun admits => ⟨iff_of_false (by omega) differ, ?_⟩⟩
    rw [if_neg differ]
    exact admits
  | served performs => exact ⟨pwd, _, rfl, fun later => .cons performs later, id⟩
  | unserved none => exact absurd rfl (none pwd fs)

/-- Whatever is visited, a user stays the one of the name, the files are those that the storage
requests make of them, and only the current password counts. -/
theorem VisitsAll.keeps (visited : VisitsAll usr (.user pwd fs) visits outcomes a') :
    ∃ new fs', a' = .user new fs' ∧ PerformsAll usr fs (requests visits) (responses outcomes) fs' ∧
      Admits pwd visits outcomes := by
  induction visits generalizing pwd fs outcomes with
  | nil =>
    cases visited
    exact ⟨pwd, fs, rfl, .nil, trivial⟩
  | cons x visits ih =>
    cases visited with
    | cons first next =>
      obtain ⟨new, fs', rfl, performs, admits⟩ := first.keeps
      obtain ⟨last, fs'', same, later, right⟩ := ih next
      exact ⟨last, fs'', same, performs later, admits right⟩

end History

end AccountService
