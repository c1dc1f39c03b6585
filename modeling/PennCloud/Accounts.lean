import PennCloud.Login
import PennCloud.FreshIds

/-!
# Accounts

`login.h`, and `initialize_usr` of `reply.h`: what the front end asks of the backend where a user
signs up, signs in or changes the password, and what the functions return. Whether the master names
a backend and a connection to it opens is an input.
-/

namespace Accounts

open Text KvInterface StorageHandler Login Dialogue

/-- The key of the password. -/
def kPwd : Str := "pwd".toList

def INVALID_NAME_ERR : Int := -10
def WRONG_PASS_ERR : Int := -9
def LINK_ERR : Int := -1

/-- `KV_State` as the functions of `kv_interface.h` return it. -/
def code : KvState → Int
  | .finished => 0
  | .linkError => -1
  | .userError => -2
  | .keyError => -3
  | .valueError => -4
  | .seqError => -5
  | .logError => -6
  | .recError => -7
  | .syncError => -8

/-- `kv_cput` and its like return the status of the reply. -/
def returned (call : KvCall) : Service Int :=
  (question call).bind fun reply => .done (code reply.status)

def changePwd (connects : Bool) (usr oldPwd newPwd : Str) : Service Int :=
  if !validUsername usr then .done INVALID_NAME_ERR
  else if connects then returned (.cput usr kPwd oldPwd newPwd)
  else .done LINK_ERR

def signUp (connects : Bool) (usr pwd : Str) : Service Int := changePwd connects usr [] pwd

def signIn (connects : Bool) (usr pwd : Str) : Service Int :=
  if !validUsername usr then .done INVALID_NAME_ERR
  else if connects then
    (question (.gets usr kPwd)).bind fun reply =>
      let ret := code reply.status
      if 0 ≤ ret then .done (if reply.value = pwd then 1 else WRONG_PASS_ERR)
      else .done ret
  else .done LINK_ERR

/-- `initialize_usr`: whether the root folder was stored. -/
def initializeUsr (connects : Bool) (usr : Str) : Service Bool :=
  if connects then
    (returned (.puts usr kMetadataFp (SharedMetadata.initialMetadata usr))).bind fun ret =>
      .done (0 ≤ ret)
  else .done false

/-- The calls of `signup_handler`: what `sign_up` returned, and whether the page goes on to the
login. Each function opens a connection of its own. -/
def signUpPage (first second : Bool) (usr pwd : Str) : Service (Int × Bool) :=
  (signUp first usr pwd).bind fun ret =>
    if 0 ≤ ret then (initializeUsr second usr).bind fun made => .done (ret, made)
    else .done (ret, false)

/-! What is returned -/

theorem code_nonneg {status : KvState} : 0 ≤ code status ↔ status = .finished := by
  cases status <;> decide

theorem code_neg {status : KvState} (refused : status ≠ .finished) : code status < 0 := by
  have := code_nonneg.not.mpr refused
  omega

section Calls
variable {usr : Str} (valid : validUsername usr = true)
include valid

theorem changePwd_connected (oldPwd newPwd : Str) :
    changePwd true usr oldPwd newPwd = returned (.cput usr kPwd oldPwd newPwd) := by
  rw [changePwd, valid]
  rfl

theorem changePwd_cut (oldPwd newPwd : Str) :
    changePwd false usr oldPwd newPwd = .done LINK_ERR := by
  rw [changePwd, valid]
  rfl

theorem signIn_connected (pwd : Str) :
    signIn true usr pwd = (question (.gets usr kPwd)).bind fun reply =>
      if 0 ≤ code reply.status then .done (if reply.value = pwd then 1 else WRONG_PASS_ERR)
      else .done (code reply.status) := by
  rw [signIn, valid]
  rfl

theorem signIn_cut (pwd : Str) : signIn false usr pwd = .done LINK_ERR := by
  rw [signIn, valid]
  rfl

end Calls

end Accounts
