import PennCloud.AccountService
import PennCloud.NodeStorage

/-!
# The front end keeps accounts

Each visit does to what is stored under a name what accounts are for. The password is only written
by a conditional write, so a name that has one is not taken again, and its root folder is not made
again.
-/

namespace ServedAccounts

open Text KvInterface KvCache StorageMetadata StorageHandler Login Dialogue FileService StoredFiles
  StorageIsolation StoreView LiveNode NodeStorage ChunkFormat CacheSteps Accounts AccountService
open ChunkOverlay (UserName)
open StorageFailure (metadata_ne_decimal)

/-- The keys of a user that the front end reads and writes, but for the mails. -/
def OfAccount (key : Str) : Prop := OfStorage key ∨ key = kPwd

/-- The store answers amid the calls of others, who leave the account alone. -/
abbrev Among (usr : Str) : Values → KvCall → KvReply → Values → Prop := AmidOthers OfAccount usr

/-- What is stored beside the password. -/
def Files (usr : Str) (v : Values) : Account → Prop
  | .user _ files => Stores usr files v
  | _ => ∀ key, OfStorage key → v usr key = []

/-- The account is what is stored under the name. -/
structure Holds (usr : Str) (a : Account) (v : Values) : Prop where
  pwd : v usr kPwd = a.pwd
  files : Files usr v a

section Keys
variable {usr : Str} {a : Account} {v w : Values}

theorem pwd_not_storage : ¬ OfStorage kPwd := by
  rintro (same | ⟨id, same⟩)
  · exact absurd same (by decide)
  · have mem : 'p' ∈ toDecimal id := by
      rw [← same]
      decide
    exact absurd (isDigit_of_mem_toDecimal mem) (by decide)

theorem Files.same (files : Files usr v a) (same : SameStorage usr v w) : Files usr w a := by
  cases a with
  | nobody | bare =>
    intro key mine
    exact (same key mine).trans (files key mine)
  | user pwd fs => exact Stores.same files same

theorem Holds.same (holds : Holds usr a v) (same : SameAt OfAccount usr v w) : Holds usr a w where
  pwd := (same kPwd (.inr rfl)).trans holds.pwd
  files := holds.files.same fun key mine => same key (.inl mine)

/-- A password is written. -/
theorem Holds.changed (holds : Holds usr a v) (same : SameAt OfAccount usr v w) (new : Password) :
    Holds usr (a.withPwd new) (w.set usr kPwd new) := by
  have files := holds.files.same fun key mine => same key (.inl mine)
  have kept : SameStorage usr w (w.set usr kPwd new) := by
    intro key mine
    refine if_neg fun no => ?_
    exact pwd_not_storage (no.2 ▸ mine)
  have written : (w.set usr kPwd new) usr kPwd = new := if_pos ⟨rfl, rfl⟩
  cases a with
  | nobody | bare => exact ⟨written, Files.same (a := .bare new) files kept⟩
  | user pwd fs => exact ⟨written, Files.same (a := .user new fs) files kept⟩

/-- The root folder of somebody who has none is stored. -/
theorem Holds.initialised (nonempty : usr ≠ []) (letters : ∀ c ∈ usr, pathChar c = true ∧ c ≠ '/')
    {pwd : Password} (holds : Holds usr (.bare pwd) v) (same : SameAt OfAccount usr v w) :
    Holds usr (.user pwd noFiles)
      (w.set usr kMetadataFp (SharedMetadata.initialMetadata usr)) := by
  have after := holds.same same
  constructor
  · refine (if_neg fun no => ?_).trans after.pwd
    exact pwd_not_storage (no.2 ▸ ofStorage_metadata)
  · refine stores_noFiles nonempty letters (if_pos ⟨rfl, rfl⟩) fun id => ?_
    refine (if_neg fun no => ?_).trans (after.files _ (ofStorage_id id))
    exact metadata_ne_decimal id no.2

theorem Account.pwd_eq_nil : a.pwd = [] ↔ a = .nobody := by
  cases a with
  | nobody => exact iff_of_true rfl rfl
  | bare pwd => exact iff_of_false pwd.2 nofun
  | user pwd fs => exact iff_of_false pwd.2 nofun

end Keys

/-! The functions -/

section Functions
variable {usr : Str} {a : Account} {v : Values} {connects : Bool} (valid : validUsername usr = true)
include valid

/-- A password is changed exactly by one who knows the one before. -/
theorem reaches_changePwd (holds : Holds usr a v) (oldPwd : Str) (new : Password) :
    (changePwd true usr oldPwd new).Reaches False (Among usr) v fun w ret =>
      a.pwd = oldPwd ∧ ret = 0 ∧ Holds usr (a.withPwd new) w ∨
        a.pwd ≠ oldPwd ∧ ret < 0 ∧ Holds usr a w := by
  rw [changePwd_connected valid]
  refine reaches_question fun reply w asked => ?_
  obtain ⟨u, same, answers⟩ := asked
  have before : u usr kPwd = a.pwd := (holds.same same).pwd
  cases answers with
  | swapped expected =>
    left
    exact ⟨before.symm.trans expected, rfl, holds.changed same new⟩
  | kept other refused =>
    right
    refine ⟨fun known => other (before.trans known), code_neg refused, holds.same same⟩

theorem reaches_signIn (holds : Holds usr a v) (pwd : Str) :
    (signIn connects usr pwd).Reaches False (Among usr) v fun w ret =>
      Visits usr a (.signIn connects pwd) (.returned ret) a ∧ Holds usr a w := by
  cases connects with
  | false =>
    rw [signIn_cut valid]
    exact ⟨.cutIn, holds⟩
  | true =>
    rw [signIn_connected valid]
    refine reaches_question fun reply w asked => ?_
    obtain ⟨u, same, answers⟩ := asked
    have after := holds.same same
    cases answers with
    | got found =>
      rw [after.pwd] at found ⊢
      by_cases there : a = .nobody
      · subst there
        split
        · refine ⟨.stranger ?_, after⟩
          split
          · rename_i empty
            exact .inr ⟨rfl, empty.symm⟩
          · exact .inl (by decide)
        · rename_i failed
          exact ⟨.stranger (.inl (by omega)), after⟩
      · obtain rfl := found fun empty => there (Account.pwd_eq_nil.mp empty)
        rw [if_pos (code_nonneg.mpr rfl)]
        by_cases right : a.pwd = pwd
        · subst right
          rw [if_pos rfl]
          exact ⟨.signedIn there, after⟩
        · rw [if_neg right]
          exact ⟨.wrong there right, after⟩

/-- Somebody signs up with a name that is free. Nobody else does any more. -/
theorem reaches_signUpPage (letters : ∀ c ∈ usr, pathChar c = true ∧ c ≠ '/') (nonempty : usr ≠ [])
    (holds : Holds usr a v) (first second : Bool) (pwd : Password) :
    (signUpPage first second usr pwd).Reaches False (Among usr) v fun w r =>
      ∃ a', Visits usr a (.signUp first second pwd) (.signedUp r.1 r.2) a' ∧ Holds usr a' w := by
  rw [signUpPage, signUp]
  cases first with
  | false =>
    rw [changePwd_cut valid]
    exact ⟨a, .cutUp, holds⟩
  | true =>
    refine reaches_bind ((reaches_changePwd valid holds [] pwd).mono ?_)
    rintro w ret (⟨free, rfl, holds'⟩ | ⟨known, refused, holds'⟩)
    · obtain rfl := Account.pwd_eq_nil.mp free
      rw [if_pos (Int.le_refl 0)]
      cases second with
      | false => exact ⟨_, .halfJoined, holds'⟩
      | true =>
        refine reaches_question fun reply w' asked => ?_
        obtain ⟨u, same, answers⟩ := asked
        cases answers with
        | put => exact ⟨_, .joined, holds'.initialised nonempty letters same⟩
    · rw [if_neg (by omega)]
      exact ⟨a, .taken (fun free => known (Account.pwd_eq_nil.mpr free)) refused, holds'⟩

end Functions

/-! Storage requests -/

section Requests
variable {usr : Str} {a : Account} {v w : Values} {env : Env}

/-- The two stores are the same, and the password is kept. -/
def Beside (usr pwd : Str) (v w : Values) : Prop := v = w ∧ w usr kPwd = pwd

/-- The calls of a storage service leave the password. -/
theorem pwd_of_answers {call : KvCall} {reply : KvReply} (own : Own usr call)
    (answers : Answers v call reply w) : w usr kPwd = v usr kPwd := by
  obtain ⟨user, mine⟩ := own
  have apart : ∀ key value, OfStorage key → (v.set usr key value) usr kPwd = v usr kPwd := by
    intro key value storage
    refine if_neg ?_
    rintro ⟨-, rfl⟩
    exact pwd_not_storage storage
  cases answers with
  | got | kept => rfl
  | put | swapped | removed =>
    obtain rfl := user
    exact apart _ _ mine

theorem amid_of_among {pwd : Str} {x x' : Values} {call : KvCall} {reply : KvReply}
    (beside : Beside usr pwd v x) (own : Own usr call) (asked : Among usr x call reply x') :
    ∃ w, Amid usr v call reply w ∧ Beside usr pwd w x' := by
  obtain ⟨rfl, known⟩ := beside
  obtain ⟨u, same, answers⟩ := asked
  have kept : x' usr kPwd = pwd := by
    rw [pwd_of_answers own answers, same kPwd (.inr rfl), known]
  exact ⟨x', ⟨u, fun key mine => same key (.inl mine), answers⟩, rfl, kept⟩

/-- Without a root folder nothing is served. -/
theorem reaches_unserved (holds : Holds usr a v) (none : ∀ pwd files, a ≠ .user pwd files) (fd : Int)
    (req : StorageServiceReq) : (serve env usr fd req).Reaches False (Among usr) v fun w resp =>
      resp = unserved usr ∧ Holds usr a w := by
  rw [serve, readMetadata, bind_assoc]
  refine reaches_question fun reply w asked => ?_
  obtain ⟨u, same, answers⟩ := asked
  have after := holds.same same
  have empty : u usr kMetadataFp = [] := by
    have files := after.files
    cases a with
    | nobody | bare => exact files _ ofStorage_metadata
    | user pwd fs => exact absurd rfl (none pwd fs)
  cases answers with
  | @got _ _ status found =>
    rw [empty]
    cases status <;> exact ⟨rfl, after⟩

theorem reaches_answered (holds : Holds usr a v) (enough : INT_MAX < env.fuel) (fd : Int)
    {req : StorageServiceReq} (regular : Regular a.made req) :
    (serve env usr fd req).Reaches False (Among usr) v fun w resp =>
      ∃ a', Visits usr a (.request env fd req) (.responded resp) a' ∧ Holds usr a' w := by
  cases a with
  | nobody | bare =>
    refine (reaches_unserved holds (fun _ _ => nofun) fd req).mono ?_
    rintro w resp ⟨rfl, after⟩
    exact ⟨_, .unserved fun _ _ => nofun, after⟩
  | user pwd fs =>
    have start : Beside usr pwd v v := ⟨rfl, holds.pwd⟩
    refine ((ServedFiles.reaches_serve holds.files enough fd regular).simulate
      (anyway_serve env usr fd req) start amid_of_among).mono ?_
    rintro w resp ⟨_, ⟨rfl, known⟩, fs', performs, stores⟩
    exact ⟨_, .served performs, known, stores⟩

end Requests

/-! Visits -/

/-- Every visit is sound, also where each one of them makes an entry. -/
def AllSound (made : Nat) (visits : List Visit) : Prop :=
  ∀ x ∈ visits, x.Sound (made + visits.length - 1)

section Visits
variable {usr : Str} {a a' : Account} {v : Values} {x : Visit} {outcome : Outcome}
  {visits : List Visit}

theorem visits_made (visits : Visits usr a x outcome a') : a'.made ≤ a.made + 1 := by
  cases visits with
  | joined => exact le_rfl
  | @changed new => cases a <;> exact Nat.le_succ _
  | served performs => exact performs_made performs
  | cutUp | taken | halfJoined | cutIn | signedIn | wrong | stranger | cutOff | kept | unserved =>
    exact Nat.le_succ _

theorem sound_earlier {made made' : Nat} (sound : x.Sound made') (fewer : made ≤ made') :
    x.Sound made := by
  cases x with
  | signUp | signIn | changePwd => exact sound
  | request env fd req => exact ⟨sound.1, regular_earlier sound.2 fewer⟩

theorem AllSound.tail {made made' : Nat} (sound : AllSound made (x :: visits))
    (more : made' ≤ made + 1) : AllSound made' visits := by
  intro y mem
  refine sound_earlier (sound y (List.mem_cons_of_mem _ mem)) ?_
  rw [List.length_cons]
  omega

variable (valid : validUsername usr = true) (letters : ∀ c ∈ usr, pathChar c = true ∧ c ≠ '/')
  (nonempty : usr ≠ [])
include valid letters nonempty

/-- A visit does to what is stored what it is for. -/
theorem reaches_visit (holds : Holds usr a v) (sound : x.Sound a.made) :
    (visit usr x).Reaches False (Among usr) v fun w outcome =>
      ∃ a', Visits usr a x outcome a' ∧ Holds usr a' w := by
  cases x with
  | signUp first second pwd =>
    exact reaches_bind ((reaches_signUpPage valid letters nonempty holds first second
      ⟨pwd, sound⟩).mono fun w r reached => reached)
  | signIn connects pwd =>
    exact reaches_bind ((reaches_signIn valid holds pwd).mono fun w ret reached => ⟨a, reached⟩)
  | request env fd req =>
    exact reaches_bind ((reaches_answered holds sound.1 fd sound.2).mono
      fun w resp reached => reached)
  | changePwd connects oldPwd newPwd =>
    cases connects with
    | false =>
      rw [visit, changePwd_cut valid]
      exact ⟨a, .cutOff, holds⟩
    | true =>
      refine reaches_bind ((reaches_changePwd valid holds oldPwd ⟨newPwd, sound⟩).mono ?_)
      rintro w ret (⟨rfl, rfl, holds'⟩ | ⟨other, refused, holds'⟩)
      · exact ⟨_, @Visits.changed usr a ⟨newPwd, sound⟩, holds'⟩
      · exact ⟨a, .kept other refused, holds'⟩

theorem reaches_visitAll (holds : Holds usr a v) (sound : AllSound a.made visits) :
    (visitAll usr visits).Reaches False (Among usr) v fun w outcomes =>
      ∃ a', VisitsAll usr a visits outcomes a' ∧ Holds usr a' w := by
  induction visits generalizing a v with
  | nil => exact ⟨a, .nil, holds⟩
  | cons x visits ih =>
    have first : x.Sound a.made := sound_earlier (sound x List.mem_cons_self) (by simp)
    refine reaches_bind ((reaches_visit valid letters nonempty holds first).mono ?_)
    rintro w outcome ⟨a', visited, holds'⟩
    refine reaches_bind ((ih holds' (sound.tail (visits_made visited))).mono ?_)
    rintro w' later ⟨a'', next, holds''⟩
    exact ⟨a'', .cons visited next, holds''⟩

/-- Who signs up first under a name owns it: whatever is visited later, nobody signs up with it again,
the files are what the storage requests make of an empty root folder, and only the password that
was taken over last lets in and can be changed. -/
theorem first_owns (holds : Holds usr .nobody v) (pwd : Password) (sound : AllSound 1 visits) :
    (visitAll usr (.signUp true true pwd :: visits)).Reaches False (Among usr) v fun w outcomes =>
      ∃ later new fs', outcomes = .signedUp 0 true :: later ∧ Admits pwd visits later ∧
        PerformsAll usr noFiles (requests visits) (responses later) fs' ∧
        Holds usr (.user new fs') w := by
  have all : AllSound Account.nobody.made (.signUp true true pwd :: visits) := by
    intro x mem
    rcases List.mem_cons.mp mem with rfl | mem
    · exact pwd.2
    · have none : Account.nobody.made = 0 := rfl
      refine sound_earlier (sound x mem) ?_
      rw [List.length_cons, none]
      omega
  refine (reaches_visitAll valid letters nonempty holds all).mono ?_
  rintro w outcomes ⟨a', visited, holds'⟩
  cases visited with
  | cons first next =>
    obtain ⟨own, rfl, rfl⟩ := first.joins
    obtain ⟨new, fs', rfl, performs, admits⟩ := next.keeps
    exact ⟨_, new, fs', rfl, admits, performs, holds'⟩

end Visits

/-- Bob signs in, uploads a file and takes another password. -/
def firstDay : List Visit :=
  [.signIn true "one".toList,
    .request MetadataRoundTrip.deepEnv 3 ⟨.fileUpload, .fileUploadReq "/f".toList "x".toList⟩,
    .changePwd true "one".toList "two".toList]

theorem sound_firstDay {made : Nat} (few : made ≤ 1) : AllSound made firstDay := by
  have enough : INT_MAX < MetadataRoundTrip.deepEnv.fuel := Nat.lt_succ_self _
  have length : firstDay.length = 3 := rfl
  have small : made + firstDay.length - 1 < INT_MAX := by
    rw [length, INT_MAX]
    omega
  intro x mem
  simp only [firstDay, List.mem_cons, List.not_mem_nil, or_false] at mem
  rcases mem with rfl | rfl | rfl
  · exact trivial
  · exact ⟨enough, small, by decide⟩
  · exact (by decide : "two".toList ≠ [])

theorem first_owns_bob : (visitAll "bob".toList (.signUp true true "one".toList :: firstDay)).Reaches
    False (Among "bob".toList) (fun _ _ => []) fun w outcomes => ∃ later new fs',
      outcomes = .signedUp 0 true :: later ∧ Admits "one".toList firstDay later ∧
        PerformsAll "bob".toList noFiles (requests firstDay) (responses later) fs' ∧
        Holds "bob".toList (.user new fs') w :=
  first_owns (by decide) (by decide) (by decide) ⟨rfl, fun _ _ => rfl⟩ ⟨"one".toList, by decide⟩
    (sound_firstDay le_rfl)

/-! On a node -/

/-- A call of the front end under a name, but for the mails. -/
def OwnAccount (usr : Str) (call : KvCall) : Prop :=
  (SharedMetadata.place call).1 = usr ∧ OfAccount (SharedMetadata.place call).2

/-- The account is stored on a live node. -/
structure KeepsAccount (usr : Str) (a : Account) (n : Node) : Prop where
  live : ∃ S, Live n S
  holds : Holds usr a (cur n)

section OnNode
variable {usr : Str} {a : Account} {n : Node} {visits : List Visit}

/-- All calls of a visit are those of its name. -/
theorem anyway_visit (usr : Str) (x : Visit) :
    (visit usr x).Respects (fun _ _ => True) (OwnAccount usr) fun _ => True := by
  have password : OfAccount kPwd := .inr rfl
  have changes : ∀ connects oldPwd newPwd, (changePwd connects usr oldPwd newPwd).Respects
      (fun _ _ => True) (OwnAccount usr) fun _ => True := by
    intro connects oldPwd newPwd
    rw [changePwd]
    split
    · trivial
    · split
      · exact ⟨⟨rfl, password⟩, fun _ _ => trivial⟩
      · trivial
  cases x with
  | signUp first second pwd =>
    refine respects_bind (respects_bind ((changes first [] pwd).mono fun ret _ => ?_))
    split
    · rw [initializeUsr]
      split
      · exact ⟨⟨rfl, .inl ofStorage_metadata⟩, fun _ _ => trivial⟩
      · trivial
    · trivial
  | signIn connects pwd =>
    rw [visit, signIn]
    refine respects_bind ?_
    split
    · trivial
    · split
      · refine ⟨⟨rfl, password⟩, fun reply _ => ?_⟩
        show Respects _ _ (if 0 ≤ code reply.status then _ else _) _
        split
        · trivial
        · trivial
      · trivial
  | changePwd connects oldPwd newPwd =>
    exact respects_bind ((changes connects oldPwd newPwd).mono fun _ _ => trivial)
  | request env fd req =>
    refine respects_bind (((anyway_serve env usr fd req).imp ?_).mono fun _ _ => trivial)
    intro call own
    exact ⟨own.1, .inl own.2⟩

theorem anyway_visitAll (usr : Str) (visits : List Visit) :
    (visitAll usr visits).Respects (fun _ _ => True) (OwnAccount usr) fun _ => True := by
  induction visits with
  | nil => trivial
  | cons x visits ih =>
    refine respects_bind ((anyway_visit usr x).mono fun outcome _ => ?_)
    exact respects_bind (ih.mono fun _ _ => trivial)

theorem plain_account (name : UserName usr) {call : KvCall} (own : OwnAccount usr call) :
    Plain (command call) := by
  obtain ⟨user, mine | password⟩ := own
  · exact plain_command name ⟨user, mine⟩
  · have line : OneLine (SharedMetadata.place call).2 := by
      rw [password]
      decide
    cases call with
    | gets | puts | cput | dele =>
      obtain rfl := user
      exact ⟨name, line⟩

end OnNode

end ServedAccounts
