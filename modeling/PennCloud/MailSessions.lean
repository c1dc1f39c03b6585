import PennCloud.KvInterface
import PennCloud.Mailbox
import PennCloud.Runs

/-!
# Sessions on one mailbox

`MBox::init`, `MBox::write` and `MBox::del`, cut into what happens between two
calls of the store, and any number of such sessions on the mailbox of one user.
`kv_gets` and `kv_cput` are atomic; a link may break, also after a CPUT took
effect. Beside each session stands what it has read so far.
-/

namespace Mailbox

open Text KvInterface

/-- What `kv_gets` hands back. -/
structure Got where
  status : KvState
  value : Str
  deriving DecidableEq, Repr

/-- `init`, with what it returns; `none` where `parse_mails` throws. The mails of an earlier call
are kept, and so is the text when the link is broken. -/
def MBox.init (box : MBox) (fd : Int) (usr : Str) (got : Got) : Option (Bool × MBox) :=
  let text := if got.status = .linkError then box.text else got.value
  let box := { box with currentId := 0, fd := fd, usr := usr, text := text }
  if got.status = .keyError then ({ box with text := [] }).parseMails.map fun box => (true, box)
  else if got.status ≠ .finished then some (false, box)
  else box.parseMails.map fun box => (true, box)

inductive Job where
  | write (mail : Mail)
  | del (id : Nat)
  deriving DecidableEq, Repr

/-- What `write` does before its first text: it chooses the id of the mail. -/
def MBox.begin (box : MBox) : Job → MBox × Job
  | .write mail =>
    let id := (box.currentId + 1) % 2 ^ 64
    ({ box with currentId := id }, .write { mail with id := id })
  | .del id => (box, .del id)

/-- The text that is to replace the mailbox. -/
def MBox.postText (box : MBox) : Job → Str
  | .write mail => box.text ++ mail.toLocalString
  | .del id => (box.mails.filter fun mail => mail.id ≠ id).flatMap Mail.toLocalString

/-- Where a session is: before the `init` of its caller, before a `kv_cput`, before the `init` of
the loop, or at its end. -/
inductive Phase where
  | idle (fd : Int) (usr : Str) (job : Job)
  | put (box : MBox) (job : Job) (post : Str)
  | reload (box : MBox) (job : Job)
  | done (result : Bool) (job : Job)
  deriving DecidableEq, Repr

/-- The callers go on where `init` returns true. -/
def Phase.opened (fd : Int) (usr : Str) (job : Job) (got : Got) : Option Phase :=
  (MBox.init { fd := fd, usr := usr } fd usr got).map fun r =>
    if r.1 then .put (r.2.begin job).1 (r.2.begin job).2 ((r.2.begin job).1.postText (r.2.begin job).2)
    else .done false job

/-- The loop goes on whatever `init` returns: a `bool` is never below zero. -/
def Phase.reloaded (box : MBox) (job : Job) (got : Got) : Option Phase :=
  (box.init box.fd box.usr got).map fun r => .put r.2 job (r.2.postText job)

def Phase.answered (box : MBox) (job : Job) (status : KvState) : Phase :=
  if status = .finished then .done true job
  else if status = .linkError then .done false job
  else .reload box job

/-- What a session has read: first of all, then what it has read anew since, and what its text is
now, if that was read. -/
structure Loads where
  first : Str := []
  superseded : List Str := []
  current : Option Str := none
  deriving DecidableEq, Repr

def Loads.open (got : Got) : Loads := { first := got.value, current := some got.value }

def Loads.reload (l : Loads) (got : Got) : Loads :=
  if got.status = .linkError then l
  else
    { l with
      superseded := l.superseded ++ l.current.toList
      current := if got.status = .finished ∨ got.status = .keyError then some got.value else none }

structure Session where
  phase : Phase
  loads : Loads := {}
  deriving DecidableEq, Repr

structure System (ι : Type) where
  mailbox : Str
  session : ι → Session

/-- How a call of the store ends: a GETS reads the mailbox, finds none, or fails; a CPUT compares
and sets, is refused without effect, or does its work and the link breaks before the answer. -/
inductive Act where
  | read
  | missing
  | failed (status : KvState)
  | cput
  | refused (status : KvState)
  | lost
  deriving DecidableEq, Repr

def gets (mailbox : Str) : Act → Option Got
  | .read => some ⟨.finished, mailbox⟩
  | .missing => if mailbox = [] then some ⟨.keyError, []⟩ else none
  | .failed status => if status = .finished ∨ status = .keyError then none else some ⟨status, []⟩
  | _ => none

def cput (mailbox old new : Str) : Act → Option (KvState × Str)
  | .cput => some (if mailbox = old then (.finished, new) else (.valueError, mailbox))
  | .refused status => if status = .finished then none else some (status, mailbox)
  | .lost => some (.linkError, if mailbox = old then new else mailbox)
  | _ => none

section Step
variable {ι : Type} [DecidableEq ι]

def System.set (s : System ι) (who : ι) (session : Session) : System ι :=
  { s with session := Function.update s.session who session }

/-- One call of one session. -/
def step (s : System ι) (e : ι × Act) : Option (System ι) :=
  match (s.session e.1).phase with
  | .idle fd usr job =>
    (gets s.mailbox e.2).bind fun got =>
      (Phase.opened fd usr job got).map fun phase => s.set e.1 ⟨phase, .open got⟩
  | .put box job post =>
    (cput s.mailbox box.text post e.2).map fun r =>
      { s with mailbox := r.2 }.set e.1 ⟨.answered box job r.1, (s.session e.1).loads⟩
  | .reload box job =>
    (gets s.mailbox e.2).bind fun got =>
      (Phase.reloaded box job got).map fun phase =>
        s.set e.1 ⟨phase, (s.session e.1).loads.reload got⟩
  | .done _ _ => none

end Step

/-! ### Well-formed mailboxes -/

/-- The mails of a mailbox, as `parse_mails` yields them. -/
def mailsOf (text : Str) : List Mail :=
  ((MBox.parseMails { fd := 0, usr := [], text := text }).map MBox.mails).getD []

def idsOf (text : Str) : List Nat := (mailsOf text).map Mail.id

/-- The id that `write` chooses for a mail on this mailbox. -/
def nextId (text : Str) : Nat := ((idsOf text).foldr max 0 + 1) % 2 ^ 64

/-- One clean mail after the other. -/
def WellFormed (text : Str) : Prop := ∃ mails : List Mail,
  (∀ m ∈ mails, Written m ∧ Clean m) ∧ text = mails.flatMap Mail.toLocalString

theorem mailsOf_print {mails : List Mail} (good : ∀ m ∈ mails, Written m ∧ Clean m) :
    mailsOf (mails.flatMap Mail.toLocalString) = mails.map Mail.shown := by
  rw [mailsOf, MBox.parseMails, parseLines_mails (fun m hm => (good m hm).1) fun m hm => (good m hm).2]
  simp [MBox.push, Mail.empty]

theorem address_address (usr : Str) : address (address usr) = address usr := by
  by_cases signed : '@' ∈ usr
  · have same : address usr = usr := if_pos signed
    rw [same, same]
  · have host : address usr = usr ++ "@localhost".toList := if_neg signed
    have last : '@' ∈ usr ++ "@localhost".toList := List.mem_append_right _ (by decide)
    rw [host]
    exact if_pos last

theorem shown_shown (m : Mail) : m.shown.shown = m.shown := by
  rw [Mail.shown, Mail.shown, address_address]

theorem toLocalString_shown (m : Mail) : m.shown.toLocalString = m.toLocalString := by
  simp only [Mail.toLocalString, Mail.shown, address_address]

theorem Written.shown {m : Mail} (h : Written m) : Written m.shown where
  id_lt := h.id_lt
  sender := h.address_ne_nil
  plain := h.address_plain
  time := h.time
  text := h.text

theorem Clean.shown {m : Mail} (clean : Clean m) (written : Written m) : Clean m.shown where
  sender _ := written.recognised clean
  text := clean.text

theorem flatMap_shown (mails : List Mail) :
    (mails.map Mail.shown).flatMap Mail.toLocalString = mails.flatMap Mail.toLocalString := by
  rw [List.flatMap_map]
  exact congrArg (List.flatMap · mails) (funext toLocalString_shown)

/-- The mails of a well-formed mailbox can be printed again. -/
theorem WellFormed.mails {text : Str} (h : WellFormed text) :
    (∀ m ∈ mailsOf text, (Written m ∧ Clean m) ∧ m.shown = m) ∧
      text = (mailsOf text).flatMap Mail.toLocalString := by
  obtain ⟨mails, good, rfl⟩ := h
  rw [mailsOf_print good, flatMap_shown]
  refine ⟨fun m hm => ?_, rfl⟩
  obtain ⟨m', hm', rfl⟩ := List.mem_map.mp hm
  obtain ⟨written, clean⟩ := good m' hm'
  exact ⟨⟨written.shown, clean.shown written⟩, shown_shown m'⟩

theorem wellFormed_print {mails : List Mail} (good : ∀ m ∈ mails, Written m ∧ Clean m) :
    WellFormed (mails.flatMap Mail.toLocalString) := ⟨mails, good, rfl⟩

theorem wellFormed_nil : WellFormed [] := ⟨[], by simp, rfl⟩

theorem WellFormed.append {text : Str} (h : WellFormed text) {m : Mail} (written : Written m)
    (clean : Clean m) : WellFormed (text ++ m.toLocalString) ∧
      mailsOf (text ++ m.toLocalString) = mailsOf text ++ [m.shown] := by
  obtain ⟨mails, good, rfl⟩ := h
  have more : ∀ m' ∈ mails ++ [m], Written m' ∧ Clean m' :=
    List.forall_mem_append.mpr ⟨good, by simpa using ⟨written, clean⟩⟩
  have printed : (mails ++ [m]).flatMap Mail.toLocalString =
      mails.flatMap Mail.toLocalString ++ m.toLocalString := by simp
  rw [← printed, mailsOf_print more, mailsOf_print good, List.map_append]
  exact ⟨wellFormed_print more, rfl⟩

/-- Opening a well-formed mailbox adds its mails to the object. -/
theorem init_wellFormed {text : Str} (h : WellFormed text) (box : MBox) (fd : Int) (usr : Str) :
    box.init fd usr ⟨.finished, text⟩ = some (true,
      ⟨fd, (idsOf text).foldr max 0, usr, text, box.mails ++ mailsOf text⟩) := by
  obtain ⟨good, printed⟩ := h.mails
  have shown : (mailsOf text).map Mail.shown = mailsOf text := by
    rw [List.map_congr_left fun m hm => (good m hm).2, List.map_id']
  have parsed := parseLines_mails (fun m hm => (good m hm).1.1) (fun m hm => (good m hm).1.2)
    ⟨0, [], [], []⟩ ⟨fd, 0, usr, text, box.mails⟩
  rw [← printed, shown] at parsed
  simp only [MBox.init, MBox.parseMails, reduceCtorEq, if_false, ne_eq, not_true_eq_false, parsed]
  simp [MBox.push, Mail.empty, idsOf]

theorem init_missing (box : MBox) (fd : Int) (usr : Str) :
    box.init fd usr ⟨.keyError, []⟩ = box.init fd usr ⟨.finished, []⟩ := by
  simp [MBox.init]

/-! ### What a call does -/

/-- A GETS yields the mailbox, or fails with an empty value. -/
theorem gets_some {mailbox : Str} {act : Act} {got : Got} (h : gets mailbox act = some got) :
    (got.value = mailbox ∧ (got.status = .finished ∨ got.status = .keyError ∧ mailbox = [])) ∨
      (got.value = [] ∧ got.status ≠ .finished ∧ got.status ≠ .keyError) := by
  cases act with
  | read =>
    cases h
    exact .inl ⟨rfl, .inl rfl⟩
  | missing =>
    simp only [gets] at h
    split at h
    · rename_i empty
      cases h
      exact .inl ⟨empty.symm, .inr ⟨rfl, empty⟩⟩
    · cases h
  | failed status =>
    simp only [gets] at h
    split at h
    · cases h
    · rename_i other
      cases h
      exact .inr ⟨rfl, not_or.mp other⟩
  | cput => cases h
  | refused status => cases h
  | lost => cases h

/-- A CPUT that compares equal may take effect, and no other does; only those are finished. -/
theorem cput_some {mailbox old new mailbox' : Str} {act : Act} {status : KvState}
    (h : cput mailbox old new act = some (status, mailbox')) :
    (mailbox = old ∧ mailbox' = new ∧ ((act = .cput ∧ status = .finished) ∨
        (act = .lost ∧ status = .linkError))) ∨
      (mailbox' = mailbox ∧ status ≠ .finished ∧ ((act = .cput ∨ act = .lost) → mailbox ≠ old)) := by
  cases act with
  | cput =>
    simp only [cput, Option.some.injEq] at h
    split at h
    · rename_i same
      cases h
      exact .inl ⟨same, rfl, .inl ⟨rfl, rfl⟩⟩
    · rename_i other
      cases h
      exact .inr ⟨rfl, by decide, fun _ => other⟩
  | refused status' =>
    simp only [cput] at h
    split at h
    · cases h
    · rename_i other
      cases h
      exact .inr ⟨rfl, other, by simp⟩
  | lost =>
    simp only [cput, Option.some.injEq, Prod.mk.injEq] at h
    obtain ⟨rfl, rfl⟩ := h
    split
    · rename_i same
      exact .inl ⟨same, rfl, .inr ⟨rfl, rfl⟩⟩
    · rename_i other
      exact .inr ⟨rfl, by decide, fun _ => other⟩
  | read => cases h
  | missing => cases h
  | failed status => cases h

/-- A mail as the programs hand it to `write`; its id is not chosen yet. -/
def JobOk : Job → Prop
  | .write mail => Written mail ∧ Clean mail
  | .del _ => True

/-- The object holds the mails of all the mailboxes that were read, and the text of the last one
if that was read well. -/
structure BoxOk (box : MBox) (loads : Loads) : Prop where
  mails : box.mails = (loads.superseded ++ loads.current.toList).flatMap mailsOf
  text : box.text = loads.current.getD []
  first : loads.first ∈ loads.superseded ++ loads.current.toList
  wellFormed : ∀ text ∈ loads.superseded ++ loads.current.toList, WellFormed text

/-- A mail that is being written has the id that follows the first mailbox that was read. -/
def IdOk (loads : Loads) : Job → Prop
  | .write mail => mail.id = nextId loads.first
  | .del _ => True

def SessionOk (session : Session) : Prop :=
  match session.phase with
  | .idle _ _ job => JobOk job
  | .put box job post =>
    JobOk job ∧ BoxOk box session.loads ∧ IdOk session.loads job ∧ post = box.postText job
  | .reload box job => JobOk job ∧ BoxOk box session.loads ∧ IdOk session.loads job
  | .done _ job => JobOk job

/-- A GETS that succeeds opens the mailbox. -/
theorem init_read {mailbox : Str} (h : WellFormed mailbox) {act : Act} {got : Got}
    (found : gets mailbox act = some got) (good : got.status = .finished ∨ got.status = .keyError)
    (box : MBox) (fd : Int) (usr : Str) : got.value = mailbox ∧
      box.init fd usr got = some (true,
        ⟨fd, (idsOf mailbox).foldr max 0, usr, mailbox, box.mails ++ mailsOf mailbox⟩) := by
  obtain ⟨status, value⟩ := got
  rcases gets_some found with ⟨rfl, rfl | ⟨rfl, rfl⟩⟩ | ⟨-, noFinish, noKey⟩
  · exact ⟨rfl, init_wellFormed h box fd usr⟩
  · exact ⟨rfl, (init_missing box fd usr).trans (init_wellFormed h box fd usr)⟩
  · exact (good.elim noFinish noKey).elim

/-- A GETS that fails leaves the mails, and the text where the link is broken. -/
theorem init_failed {mailbox : Str} {act : Act} {got : Got} (found : gets mailbox act = some got)
    (bad : ¬ (got.status = .finished ∨ got.status = .keyError)) (box : MBox) (fd : Int) (usr : Str) :
    box.init fd usr got = some (false,
      ⟨fd, 0, usr, if got.status = .linkError then box.text else [], box.mails⟩) := by
  obtain ⟨noFinish, noKey⟩ := not_or.mp bad
  rcases gets_some found with ⟨-, finished | ⟨key, -⟩⟩ | ⟨empty, -, -⟩
  · exact absurd finished noFinish
  · exact absurd key noKey
  · simp only [MBox.init, if_neg noKey, if_pos noFinish, empty]

theorem jobOk_begin {box : MBox} {job : Job} (h : JobOk job) : JobOk (box.begin job).2 := by
  cases job with
  | write mail =>
    obtain ⟨written, clean⟩ := h
    exact ⟨⟨Nat.mod_lt _ (by decide), written.sender, written.plain, written.time, written.text⟩,
      ⟨clean.sender, clean.text⟩⟩
  | del id => trivial

theorem sessionOk_opened {mailbox : Str} (h : WellFormed mailbox) {act : Act} {got : Got}
    (found : gets mailbox act = some got) {fd : Int} {usr : Str} {job : Job} (ok : JobOk job)
    {phase : Phase} (opened : Phase.opened fd usr job got = some phase) :
    SessionOk ⟨phase, .open got⟩ := by
  obtain ⟨r, init, rfl⟩ := Option.map_eq_some_iff.mp opened
  by_cases good : got.status = .finished ∨ got.status = .keyError
  · obtain ⟨value, read⟩ := init_read h found good { fd := fd, usr := usr } fd usr
    obtain rfl := Option.some.inj (init.symm.trans read)
    refine ⟨jobOk_begin ok, ?_, ?_, rfl⟩
    · cases job <;> exact ⟨by simp [MBox.begin, Loads.open, value],
        by simp [MBox.begin, Loads.open, value], by simp [Loads.open],
        by simpa [Loads.open, value] using h⟩
    · cases job with
      | write mail =>
        simp only [IdOk, MBox.begin, Loads.open, value]
        rfl
      | del id => trivial
  · have failed := init_failed found good { fd := fd, usr := usr } fd usr
    obtain rfl := Option.some.inj (init.symm.trans failed)
    exact ok

theorem boxOk_reload {mailbox : Str} (h : WellFormed mailbox) {act : Act} {got : Got}
    (found : gets mailbox act = some got) {box : MBox} {loads : Loads} (ok : BoxOk box loads)
    {r : Bool × MBox} (init : box.init box.fd box.usr got = some r) :
    BoxOk r.2 (loads.reload got) := by
  by_cases good : got.status = .finished ∨ got.status = .keyError
  · obtain ⟨value, read⟩ := init_read h found good box box.fd box.usr
    obtain rfl := Option.some.inj (init.symm.trans read)
    have linked : got.status ≠ .linkError := by
      rintro broken
      rw [broken] at good
      exact absurd good (by decide)
    rw [Loads.reload, if_neg linked, if_pos good, value]
    refine ⟨?_, rfl, List.mem_append_left _ ok.first, ?_⟩
    · simp [ok.mails]
    · simp only [List.forall_mem_append]
      refine ⟨List.forall_mem_append.mp ok.wellFormed, by simpa using h⟩
  · have failed := init_failed found good box box.fd box.usr
    obtain rfl := Option.some.inj (init.symm.trans failed)
    rw [Loads.reload]
    split
    · rename_i broken
      exact ⟨ok.mails, by simpa [broken] using ok.text, ok.first, ok.wellFormed⟩
    · exact ⟨by simpa [good] using ok.mails, by simp, by simpa [good] using ok.first,
        by simpa [good] using ok.wellFormed⟩

theorem sessionOk_reloaded {mailbox : Str} (h : WellFormed mailbox) {act : Act} {got : Got}
    (found : gets mailbox act = some got) {box : MBox} {job : Job} {loads : Loads}
    (ok : SessionOk ⟨.reload box job, loads⟩) {phase : Phase}
    (reloaded : Phase.reloaded box job got = some phase) :
    SessionOk ⟨phase, loads.reload got⟩ := by
  obtain ⟨r, init, rfl⟩ := Option.map_eq_some_iff.mp reloaded
  obtain ⟨jobOk, boxOk, idOk⟩ := ok
  refine ⟨jobOk, boxOk_reload h found boxOk init, ?_, rfl⟩
  have same : (loads.reload got).first = loads.first := by
    rw [Loads.reload]
    split <;> rfl
  cases job with
  | write mail => exact (show mail.id = _ by rw [same]; exact idOk)
  | del id => trivial

/-- What is put is well formed where it takes the place of what was read. -/
theorem wellFormed_post {box : MBox} {job : Job} {loads : Loads} (jobOk : JobOk job)
    (boxOk : BoxOk box loads) (here : WellFormed box.text) : WellFormed (box.postText job) := by
  cases job with
  | write mail => exact (here.append jobOk.1 jobOk.2).1
  | del id =>
    refine wellFormed_print fun m hm => ?_
    rw [boxOk.mails] at hm
    obtain ⟨text, loaded, there⟩ := List.mem_flatMap.mp (List.mem_of_mem_filter hm)
    exact ((boxOk.wellFormed text loaded).mails.1 m there).1

/-! ### Runs -/

section System
variable {ι : Type} [DecidableEq ι]

/-- The mailbox is well formed and so is what the sessions have in hand. -/
structure Sound (s : System ι) : Prop where
  mailbox : WellFormed s.mailbox
  session : ∀ who, SessionOk (s.session who)

/-- The ways a call of a session can go. -/
inductive Stepped (s : System ι) (who : ι) (act : Act) : System ι → Prop where
  | opened {fd : Int} {usr : Str} {job : Job} {got : Got} {phase : Phase}
      (place : (s.session who).phase = .idle fd usr job) (found : gets s.mailbox act = some got)
      (next : Phase.opened fd usr job got = some phase) :
      Stepped s who act (s.set who ⟨phase, .open got⟩)
  | reloaded {box : MBox} {job : Job} {got : Got} {phase : Phase}
      (place : (s.session who).phase = .reload box job) (found : gets s.mailbox act = some got)
      (next : Phase.reloaded box job got = some phase) :
      Stepped s who act (s.set who ⟨phase, (s.session who).loads.reload got⟩)
  | stored {box : MBox} {job : Job} {post : Str} {status : KvState}
      (place : (s.session who).phase = .put box job post) (same : s.mailbox = box.text)
      (answer : act = .cput ∧ status = .finished ∨ act = .lost ∧ status = .linkError) :
      Stepped s who act
        ({ s with mailbox := post }.set who ⟨.answered box job status, (s.session who).loads⟩)
  | kept {box : MBox} {job : Job} {post : Str} {status : KvState}
      (place : (s.session who).phase = .put box job post) (refused : status ≠ .finished)
      (other : act = .cput ∨ act = .lost → s.mailbox ≠ box.text) :
      Stepped s who act (s.set who ⟨.answered box job status, (s.session who).loads⟩)

theorem stepped {s s' : System ι} {who : ι} {act : Act} (h : step s (who, act) = some s') :
    Stepped s who act s' := by
  unfold step at h
  split at h
  · rename_i fd usr job place
    obtain ⟨got, found, h⟩ := Option.bind_eq_some_iff.mp h
    obtain ⟨phase, next, rfl⟩ := Option.map_eq_some_iff.mp h
    exact .opened place found next
  · rename_i box job post place
    obtain ⟨⟨status, mailbox⟩, answered, rfl⟩ := Option.map_eq_some_iff.mp h
    rcases cput_some answered with ⟨same, rfl, answer⟩ | ⟨rfl, refused, other⟩
    · exact .stored place same answer
    · exact .kept place refused other
  · rename_i box job place
    obtain ⟨got, found, h⟩ := Option.bind_eq_some_iff.mp h
    obtain ⟨phase, next, rfl⟩ := Option.map_eq_some_iff.mp h
    exact .reloaded place found next
  · cases h

theorem set_self (s : System ι) (who : ι) (session : Session) :
    (s.set who session).session who = session := Function.update_self ..

theorem set_other (s : System ι) {who other : ι} (h : other ≠ who) (session : Session) :
    (s.set who session).session other = s.session other := Function.update_of_ne h ..

theorem forall_set {s : System ι} {who : ι} {session : Session} {P : ι → Session → Prop}
    (new : P who session) (old : ∀ other, P other (s.session other)) (other : ι) :
    P other ((s.set who session).session other) := by
  by_cases same : other = who
  · subst same
    rw [set_self]
    exact new
  · rw [set_other s same]
    exact old other

theorem sessionOk_answered {box : MBox} {job : Job} {post : Str} {loads : Loads} {status : KvState}
    (ok : SessionOk ⟨.put box job post, loads⟩) : SessionOk ⟨.answered box job status, loads⟩ := by
  obtain ⟨jobOk, boxOk, idOk, -⟩ := ok
  unfold Phase.answered
  split
  · exact jobOk
  split
  · exact jobOk
  · exact ⟨jobOk, boxOk, idOk⟩

omit [DecidableEq ι] in
theorem sessionOk_at {s : System ι} (sound : Sound s) {who : ι} {phase : Phase}
    (place : (s.session who).phase = phase) : SessionOk ⟨phase, (s.session who).loads⟩ :=
  place ▸ sound.session who

theorem sound_step {s s' : System ι} {who : ι} {act : Act} (sound : Sound s)
    (h : step s (who, act) = some s') : Sound s' := by
  cases stepped h with
  | opened place found next =>
    have ok := sessionOk_at sound place
    exact ⟨sound.mailbox, forall_set (P := fun _ => SessionOk)
      (sessionOk_opened sound.mailbox found ok next) sound.session⟩
  | reloaded place found next =>
    have ok := sessionOk_at sound place
    exact ⟨sound.mailbox, forall_set (P := fun _ => SessionOk)
      (sessionOk_reloaded sound.mailbox found ok next) sound.session⟩
  | stored place same answer =>
    have ok := sessionOk_at sound place
    have here : WellFormed _ := wellFormed_post ok.1 ok.2.1 (same ▸ sound.mailbox)
    rw [← ok.2.2.2] at here
    exact ⟨here, forall_set (P := fun _ => SessionOk) (sessionOk_answered ok) sound.session⟩
  | kept place refused other =>
    have ok := sessionOk_at sound place
    exact ⟨sound.mailbox, forall_set (P := fun _ => SessionOk) (sessionOk_answered ok) sound.session⟩

end System

end Mailbox
