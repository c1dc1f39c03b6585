import PennCloud.MailOrder
import PennCloud.NodeStorage

/-!
# Mailboxes on a live node

The sessions on the mailbox of one user make their calls of a primary that serves
other clients and saves checkpoints. A call may be lost before the node has it or
after. What the sessions and the mailbox do is a run on an atomic mailbox, so the
mails are stored and removed in some order, and none is lost.
-/

namespace NodeMail

open Text KvInterface KvCache KvStore Runs NodeDisk StoreView ChunkFormat Acknowledgement LiveNode
  Mailbox
open NodeStorage (command Elsewhere answers_of_reply effectOn_elsewhere)
open StoredFiles (Answers Values)
open ChunkOverlay (UserName)
open CacheSteps (bob)
open StorageHandler (KvCall KvReply)

/-- The key of a mailbox. -/
def kMbox : Str := "mbox".toList

/-- The call that a session makes next. -/
def call : Phase → Option KvCall
  | .idle _ usr _ => some (.gets usr kMbox)
  | .put box _ post => some (.cput box.usr kMbox box.text post)
  | .reload box _ => some (.gets box.usr kMbox)
  | .done _ _ => none

/-- A session when its call has ended. -/
def goOn (session : Session) (got : Got) : Option Session :=
  match session.phase with
  | .idle fd usr job => (Phase.opened fd usr job got).map fun phase => ⟨phase, .open got⟩
  | .put box job _ => some ⟨.answered box job got.status, session.loads⟩
  | .reload box job =>
    (Phase.reloaded box job got).map fun phase => ⟨phase, session.loads.reload got⟩
  | .done _ _ => none

/-- What a call ends with when no answer arrives. -/
def noAnswer : Got := ⟨.linkError, []⟩

/-- A node and the sessions on a mailbox that it keeps. -/
structure System (ι : Type) where
  node : Node
  session : ι → Session

/-- The node handles a command of another client, or the call of a session, whose answer arrives or
not; or the call does not reach the node. -/
inductive Happening (ι : Type) where
  | other (e : Event)
  | answered (who : ι) (env : Surroundings)
  | unanswered (who : ι) (env : Surroundings)
  | broken (who : ι)

section Step
variable {ι : Type} [DecidableEq ι]

def System.moves (s : System ι) (who : ι) (n : Node) (got : Got) : Option (System ι) :=
  (goOn (s.session who) got).map fun session => ⟨n, Function.update s.session who session⟩

def step (s : System ι) : Happening ι → Option (System ι)
  | .other e => (turn s.node e).map fun n => { s with node := n }
  | .answered who env =>
    (call (s.session who).phase).bind fun call =>
      (handleConnect env s.node (command call)).bind fun done =>
        done.reply.bind fun ret => s.moves who done.node ⟨ret.status, ret.value⟩
  | .unanswered who env =>
    (call (s.session who).phase).bind fun call =>
      (turn s.node (env, command call)).bind fun n => s.moves who n noAnswer
  | .broken who => s.moves who s.node noAnswer

/-- The sessions before the mailbox as the node has it. -/
def System.mailbox (usr : Str) (s : System ι) : Mailbox.System ι := ⟨cur s.node usr kMbox, s.session⟩

end Step

/-- The session is one on the mailbox of the user. -/
def Owned (usr : Str) : Phase → Prop
  | .idle _ usr' _ => usr' = usr
  | .put box _ _ => box.usr = usr
  | .reload box _ => box.usr = usr
  | .done _ _ => True

/-- The session is before a CPUT that finds its text in the mailbox. -/
def Finds (mailbox : Str) : Phase → Prop
  | .put box _ _ => mailbox = box.text
  | _ => False

/-- A call that takes effect is not one of a removal that has read other mails before than those
that it removes. -/
def RemovesExactly {ι : Type} (usr : Str) (s : System ι) : Happening ι → Prop
  | .answered who _ => Finds (cur s.node usr kMbox) (s.session who).phase → (s.session who).Exact
  | .unanswered who _ => Finds (cur s.node usr kMbox) (s.session who).phase → (s.session who).Exact
  | _ => True

instance (mailbox : Str) : (phase : Phase) → Decidable (Finds mailbox phase)
  | .idle _ _ _ => .isFalse id
  | .put box _ _ => inferInstanceAs (Decidable (mailbox = box.text))
  | .reload _ _ => .isFalse id
  | .done _ _ => .isFalse id

instance {ι : Type} (usr : Str) (s : System ι) : (h : Happening ι) →
    Decidable (RemovesExactly usr s h)
  | .answered who _ => inferInstanceAs (Decidable (Finds _ (s.session who).phase → _))
  | .unanswered who _ => inferInstanceAs (Decidable (Finds _ (s.session who).phase → _))
  | .other _ => .isTrue trivial
  | .broken _ => .isTrue trivial

/-- Others leave the mailbox alone. -/
def Apart {ι : Type} (usr : Str) : Happening ι → Prop
  | .other e => Elsewhere (· = kMbox) usr e.2
  | _ => True

/-! Whose mailbox a session opens -/

theorem push_usr (box : MBox) (mail : Mail) : (box.push mail).usr = box.usr := by
  rw [MBox.push]
  split
  · rfl
  · rfl

theorem parseLines_usr {mail : Mail} {box box' : MBox} {lines : List Str}
    (h : parseLines mail box lines = some box') : box'.usr = box.usr := by
  fun_induction parseLines mail box lines with
  | case1 mail box =>
    cases h
    exact push_usr box mail
  | case2 => cases h
  | case3 mail box line header idLine rest ih =>
    obtain ⟨id, -, h⟩ := Option.bind_eq_some_iff.mp h
    exact (ih id h).trans (push_usr box mail)
  | case4 mail box line rest header empty ih => exact ih h
  | case5 mail box line rest header full ih => exact ih h

theorem init_usr {box : MBox} {fd : Int} {usr : Str} {got : Got} {r : Bool × MBox}
    (h : box.init fd usr got = some r) : r.2.usr = usr := by
  rw [MBox.init] at h
  dsimp only at h
  split at h
  · obtain ⟨box', parsed, rfl⟩ := Option.map_eq_some_iff.mp h
    exact parseLines_usr parsed
  split at h
  · cases h
    rfl
  · obtain ⟨box', parsed, rfl⟩ := Option.map_eq_some_iff.mp h
    exact parseLines_usr parsed

theorem begin_usr (box : MBox) (job : Job) : (box.begin job).1.usr = box.usr := by
  cases job with
  | write mail => rfl
  | del id => rfl

section Sessions
variable {session session' : Session} {usr : Str} {got : Got}

theorem owned_goOn (owned : Owned usr session.phase) (h : goOn session got = some session') :
    Owned usr session'.phase := by
  rw [goOn] at h
  split at h
  · rename_i fd usr' job place
    rw [place] at owned
    obtain ⟨phase, opened, rfl⟩ := Option.map_eq_some_iff.mp h
    obtain ⟨r, init, rfl⟩ := Option.map_eq_some_iff.mp opened
    obtain rfl : usr' = usr := owned
    show Owned _ (if r.1 then _ else _)
    split
    · exact (begin_usr _ _).trans (init_usr init)
    · trivial
  · rename_i box job post place
    rw [place] at owned
    cases h
    show Owned _ (Phase.answered _ _ _)
    unfold Phase.answered
    split
    · trivial
    split
    · trivial
    · exact owned
  · rename_i box job place
    rw [place] at owned
    obtain ⟨phase, reloaded, rfl⟩ := Option.map_eq_some_iff.mp h
    obtain ⟨r, init, rfl⟩ := Option.map_eq_some_iff.mp reloaded
    exact (init_usr init).trans owned
  · cases h

/-- The calls are calls for the mailbox of the user. -/
theorem call_owned (owned : Owned usr session.phase) {c : KvCall}
    (next : call session.phase = some c) :
    c = .gets usr kMbox ∨ ∃ old new, c = .cput usr kMbox old new := by
  cases place : session.phase with
  | idle fd usr' job =>
    rw [place] at owned next
    obtain rfl : usr' = usr := owned
    cases next
    exact .inl rfl
  | put box job post =>
    rw [place] at owned next
    obtain rfl : box.usr = usr := owned
    cases next
    exact .inr ⟨_, _, rfl⟩
  | reload box job =>
    rw [place] at owned next
    obtain rfl : box.usr = usr := owned
    cases next
    exact .inl rfl
  | done result job =>
    rw [place] at next
    cases next

theorem plain_call (name : UserName usr) (owned : Owned usr session.phase) {c : KvCall}
    (next : call session.phase = some c) : Plain (command c) := by
  have line : OneLine kMbox := by decide
  rcases call_owned owned next with rfl | ⟨old, new, rfl⟩
  · exact ⟨name, line⟩
  · exact ⟨name, line⟩

end Sessions

/-! A call as one on an atomic mailbox -/

/-- A call that ends so is this one on an atomic mailbox, which changes so. -/
inductive Passes (usr : Str) (before : Str) (act : Act) : KvCall → Got → Str → Prop where
  | gets {got : Got} (found : gets before act = some got) :
      Passes usr before act (.gets usr kMbox) got before
  | cput {old new value after : Str} {status : KvState}
      (put : cput before old new act = some (status, after)) :
      Passes usr before act (.cput usr kMbox old new) ⟨status, value⟩ after

section Simulation
variable {ι : Type} [DecidableEq ι] {s : Mailbox.System ι} {who : ι} {session' : Session} {got : Got}
  {c : KvCall} {usr after : Str}

theorem step_passes {act : Act} (next : call (s.session who).phase = some c)
    (passes : Passes usr s.mailbox act c got after)
    (moved : goOn (s.session who) got = some session') :
    Mailbox.step s (who, act) = some ({ s with mailbox := after }.set who session') := by
  rw [goOn] at moved
  split at moved
  · rename_i fd usr' job place
    rw [place] at next
    obtain ⟨phase, opened, rfl⟩ := Option.map_eq_some_iff.mp moved
    cases next
    cases passes with
    | gets found =>
      simp only [Mailbox.step, place, found, Option.bind_some, opened, Option.map_some]
  · rename_i box job post place
    rw [place] at next
    cases next
    cases moved
    cases passes with
    | cput put => simp only [Mailbox.step, place, put, Option.map_some]
  · rename_i box job place
    rw [place] at next
    obtain ⟨phase, reloaded, rfl⟩ := Option.map_eq_some_iff.mp moved
    cases next
    cases passes with
    | gets found =>
      simp only [Mailbox.step, place, found, Option.bind_some, reloaded, Option.map_some]
  · cases moved

end Simulation

section Passing
variable {v w : Values} {usr : Str} {c : KvCall} {reply : KvReply}

/-- The answer of a store. -/
theorem passes_answers (own : c = .gets usr kMbox ∨ ∃ old new, c = .cput usr kMbox old new)
    (answers : Answers v c reply w) :
    ∃ act, Passes usr (v usr kMbox) act c ⟨reply.status, reply.value⟩ (w usr kMbox) := by
  rcases own with rfl | ⟨old, new, rfl⟩
  · cases answers with
    | got found =>
      rename_i status
      by_cases finished : status = .finished
      · have read : gets (v usr kMbox) .read = some ⟨status, v usr kMbox⟩ := by rw [gets, finished]
        exact ⟨_, .gets read⟩
      · have empty : v usr kMbox = [] := by
          by_contra there
          exact finished (found there)
        by_cases missing : status = .keyError
        · have nothing : gets (v usr kMbox) .missing = some ⟨status, v usr kMbox⟩ := by
            rw [gets, if_pos empty, missing, empty]
          exact ⟨_, .gets nothing⟩
        · have failed : gets (v usr kMbox) (.failed status) = some ⟨status, v usr kMbox⟩ := by
            rw [gets, if_neg (not_or.mpr ⟨finished, missing⟩), empty]
          exact ⟨_, .gets failed⟩
  · cases answers with
    | swapped same =>
      have put : cput (v usr kMbox) old new .cput =
          some (.finished, v.set usr kMbox new usr kMbox) := by
        rw [cput, if_pos same, Values.set, if_pos ⟨rfl, rfl⟩]
      exact ⟨_, .cput put⟩
    | kept other refused =>
      rename_i status
      have put : cput (v usr kMbox) old new (.refused status) = some (status, v usr kMbox) :=
        if_neg refused
      exact ⟨_, .cput put⟩

/-- The node did not get the call. -/
theorem passes_broken (own : c = .gets usr kMbox ∨ ∃ old new, c = .cput usr kMbox old new)
    (before : Str) : ∃ act, (act ≠ .cput ∧ act ≠ .lost) ∧ Passes usr before act c noAnswer before := by
  rcases own with rfl | ⟨old, new, rfl⟩
  · have failed : gets before (.failed .linkError) = some noAnswer := rfl
    exact ⟨_, ⟨by simp, by simp⟩, .gets failed⟩
  · have refused : cput before old new (.refused .linkError) = some (.linkError, before) := rfl
    exact ⟨_, ⟨by simp, by simp⟩, .cput refused⟩

/-- The node handled the call, and the answer did not arrive. -/
theorem passes_unanswered (own : c = .gets usr kMbox ∨ ∃ old new, c = .cput usr kMbox old new)
    {before after : Str} (effect : after = effectOn usr kMbox before (command c)) :
    ∃ act, Passes usr before act c noAnswer after := by
  rcases own with rfl | ⟨old, new, rfl⟩
  · have same : effectOn usr kMbox before (command (.gets usr kMbox)) = before := if_pos ⟨rfl, rfl⟩
    rw [effect, same]
    have failed : gets before (.failed .linkError) = some noAnswer := rfl
    exact ⟨_, .gets failed⟩
  · have new' : effectOn usr kMbox before (command (.cput usr kMbox old new)) =
        if before = old then new else before := if_pos ⟨rfl, rfl⟩
    rw [effect, new']
    have put : cput before old new .lost =
        some (.linkError, if before = old then new else before) := rfl
    exact ⟨_, .cput put⟩

end Passing

section Runs
variable {ι : Type} [DecidableEq ι] {usr : Str} {s s' : System ι} {S : Folders}

/-- The calls of the sessions are calls for the mailbox of the user. -/
def AllOwned (usr : Str) (s : System ι) : Prop := ∀ who, Owned usr (s.session who).phase

/-- The steps on a node that is live, as the mailbox sees them. -/
inductive Simulated (usr : Str) (s s' : System ι) (h : Happening ι) : Prop where
  | silent (same : s'.mailbox usr = s.mailbox usr)
  | turn {who : ι} {act : Act}
      (step : Mailbox.step (s.mailbox usr) (who, act) = some (s'.mailbox usr))
      (exact : RemovesExactly usr s h → Mailbox.RemovesExactly (s.mailbox usr) (who, act))

omit [DecidableEq ι] in
/-- A call that takes effect finds its text. -/
theorem exact_of_finds {who : ι} (act : Act)
    (exact : Finds (cur s.node usr kMbox) (s.session who).phase → (s.session who).Exact) :
    Mailbox.RemovesExactly (s.mailbox usr) (who, act) := by
  rintro ⟨box, job, post, place, same, -⟩
  have here : (s.session who).phase = .put box job post := place
  refine exact ?_
  rw [here]
  exact same

omit [DecidableEq ι] in
theorem live_turn {n m : Node} {e : Event} (live : ∃ S, Live n S) (plain : Plain e.2)
    (turned : turn n e = some m) : ∃ S, Live m S := by
  obtain ⟨S, live⟩ := live
  obtain ⟨S', -, live', -⟩ := turn_live live plain turned
  exact ⟨S', live'⟩

/-- A call that ends, and the session that goes on. -/
theorem simulated_moves {h : Happening ι} {n : Node} {who : ι} {act : Act} {c : KvCall} {got : Got}
    (owned : AllOwned usr s) (next : call (s.session who).phase = some c)
    (passes : Passes usr (cur s.node usr kMbox) act c got (cur n usr kMbox))
    (exact : RemovesExactly usr s h → Mailbox.RemovesExactly (s.mailbox usr) (who, act))
    (moved : s.moves who n got = some s') :
    s'.node = n ∧ AllOwned usr s' ∧ Simulated usr s s' h := by
  obtain ⟨session', went, rfl⟩ := Option.map_eq_some_iff.mp moved
  refine ⟨rfl, ?_, .turn (step_passes (s := s.mailbox usr) next passes went) exact⟩
  intro other
  by_cases same : other = who
  · subst same
    change Owned usr (Function.update s.session other session' other).phase
    rw [Function.update_self]
    exact owned_goOn (owned other) went
  · change Owned usr (Function.update s.session who session' other).phase
    rw [Function.update_of_ne same]
    exact owned other

/-- One step on the node is one on the mailbox, or none. -/
theorem simulated {h : Happening ι} (live : ∃ S, Live s.node S) (name : UserName usr)
    (owned : AllOwned usr s) (apart : Apart usr h) (stepped : step s h = some s') :
    (∃ S, Live s'.node S) ∧ AllOwned usr s' ∧ Simulated usr s s' h := by
  have live₀ := live
  obtain ⟨S, here⟩ := live
  cases h with
  | other e =>
    obtain ⟨n, turned, rfl⟩ := Option.map_eq_some_iff.mp stepped
    refine ⟨live_turn live₀ apart.1 turned, owned, .silent ?_⟩
    have elsewhere : Elsewhere (· = kMbox) usr e.2 := apart
    have same : cur n usr kMbox = cur s.node usr kMbox := by
      rw [turn_effect here elsewhere.1 turned name, effectOn_elsewhere elsewhere rfl]
    rw [System.mailbox, System.mailbox, same]
  | answered who env =>
    obtain ⟨c, next, stepped⟩ := Option.bind_eq_some_iff.mp stepped
    obtain ⟨done, ends, stepped⟩ := Option.bind_eq_some_iff.mp stepped
    obtain ⟨ret, replied, moved⟩ := Option.bind_eq_some_iff.mp stepped
    have plain := plain_call name (owned who) next
    have turned : turn s.node (env, command c) = some done.node := by
      rw [turn, ends]
      rfl
    obtain ⟨w, answers, values⟩ := answers_of_reply here plain ends replied
    obtain ⟨act, passes⟩ := passes_answers (call_owned (owned who) next) answers
    rw [values usr kMbox name] at passes
    obtain ⟨node, owned', simulated⟩ :=
      simulated_moves (h := .answered who env) owned next passes (exact_of_finds act) moved
    exact ⟨node ▸ live_turn live₀ plain turned, owned', simulated⟩
  | unanswered who env =>
    obtain ⟨c, next, stepped⟩ := Option.bind_eq_some_iff.mp stepped
    obtain ⟨n, turned, moved⟩ := Option.bind_eq_some_iff.mp stepped
    have plain := plain_call name (owned who) next
    obtain ⟨act, passes⟩ := passes_unanswered (call_owned (owned who) next)
      (turn_effect here plain turned name kMbox)
    obtain ⟨node, owned', simulated⟩ :=
      simulated_moves (h := .unanswered who env) owned next passes (exact_of_finds act) moved
    exact ⟨node ▸ live_turn live₀ plain turned, owned', simulated⟩
  | broken who =>
    obtain ⟨session', went, same⟩ := Option.map_eq_some_iff.mp stepped
    cases next : call (s.session who).phase with
    | none =>
      cases place : (s.session who).phase with
      | idle fd usr' job => rw [place] at next; cases next
      | put box job post => rw [place] at next; cases next
      | reload box job => rw [place] at next; cases next
      | done result job =>
        rw [goOn, place] at went
        cases went
    | some c =>
      obtain ⟨act, silent, passes⟩ :=
        passes_broken (call_owned (owned who) next) (cur s.node usr kMbox)
      have without : Mailbox.RemovesExactly (s.mailbox usr) (who, act) := by
        rintro ⟨-, -, -, -, -, effect⟩
        exact absurd effect (not_or.mpr silent)
      obtain ⟨node, owned', simulated⟩ :=
        simulated_moves (h := .broken who) owned next passes (fun _ => without) stepped
      exact ⟨node ▸ live₀, owned', simulated⟩

/-- A run on the node is a run on the mailbox. -/
theorem simulated_run {happenings : List (Happening ι)} (live : ∃ S, Live s.node S)
    (name : UserName usr) (owned : AllOwned usr s) (apart : ∀ h ∈ happenings, Apart usr h)
    (ran : run step s happenings = some s') :
    (∃ S, Live s'.node S) ∧
      ∃ events, run Mailbox.step (s.mailbox usr) events = some (s'.mailbox usr) ∧
        (Along step (RemovesExactly usr) s happenings →
          Along Mailbox.step Mailbox.RemovesExactly (s.mailbox usr) events) := by
  induction happenings generalizing s with
  | nil =>
    cases ran
    exact ⟨live, [], rfl, fun _ => trivial⟩
  | cons h happenings ih =>
    obtain ⟨t, first, later⟩ := run_cons_eq_some.mp ran
    obtain ⟨here, rest⟩ := List.forall_mem_cons.mp apart
    obtain ⟨live', owned', simulated⟩ := simulated live name owned here first
    obtain ⟨last, events, mails, exact⟩ := ih live' owned' rest later
    refine ⟨last, ?_⟩
    cases simulated with
    | silent same => exact ⟨events, same ▸ mails, fun along => same ▸ exact (along.2 t first)⟩
    | turn step one =>
      refine ⟨_ :: events, run_cons_eq_some.mpr ⟨_, step, mails⟩, fun along => ?_⟩
      exact (along_cons step).mpr ⟨one along.1, exact (along.2 t first)⟩

/-- Sessions on the mailbox of the user before their first call. -/
structure Begins (usr : Str) (s : System ι) : Prop where
  live : ∃ S, Live s.node S
  mailbox : WellFormed (cur s.node usr kMbox)
  session : ∀ who, ∃ fd job, s.session who = ⟨.idle fd usr job, {}⟩ ∧ JobOk job

omit [DecidableEq ι] in
theorem sound_begins (begins : Begins usr s) :
    Sound (s.mailbox usr) ∧ Waiting (s.mailbox usr) ∧ AllOwned usr s := by
  refine ⟨⟨begins.mailbox, fun who => ?_⟩, fun who => ?_, fun who => ?_⟩
  · obtain ⟨fd, job, same, ok⟩ := begins.session who
    change SessionOk (s.session who)
    rw [same]
    exact ok
  · obtain ⟨fd, job, same, -⟩ := begins.session who
    exact ⟨fd, usr, job, same⟩
  · obtain ⟨fd, job, same, -⟩ := begins.session who
    rw [same]
    rfl

/-- Whatever the node answers, who opens a well-formed mailbox gets its mails. -/
theorem opened_on_node {n : Node} (live : Live n S) (name : UserName usr)
    (mailbox : WellFormed (cur n usr kMbox)) {env : Surroundings} {done : Turn} {ret : KvRet}
    (answered : handleConnect env n (command (.gets usr kMbox)) = some done)
    (replied : done.reply = some ret) {fd : Int} {box : MBox}
    (opens : MBox.init { fd := fd, usr := usr } fd usr ⟨ret.status, ret.value⟩ = some (true, box)) :
    box.mails = mailsOf (cur n usr kMbox) := by
  have plain : Plain (command (.gets usr kMbox)) := ⟨name, (by decide : OneLine kMbox)⟩
  obtain ⟨w, answers, -⟩ := answers_of_reply live plain answered replied
  obtain ⟨act, passes⟩ := passes_answers (.inl rfl) answers
  generalize w usr kMbox = after at passes
  cases passes with
  | gets found =>
    by_cases good : ret.status = .finished ∨ ret.status = .keyError
    · obtain ⟨-, read⟩ := init_read mailbox found good { fd := fd, usr := usr } fd usr
      cases opens.symm.trans read
      exact List.nil_append _
    · have failed := init_failed found good { fd := fd, usr := usr } fd usr
      cases opens.symm.trans failed

/-- The mails that were there, and those whose `write` returned true. -/
def Entrusted (s s' : System ι) (usr : Str) (m : Mail) : Prop :=
  m ∈ mailsOf (cur s.node usr kMbox) ∨
    ∃ who mail, (s'.session who).phase = .done true (.write mail) ∧ m = mail.shown

/-- On a live node the sessions on a mailbox take effect in some order, each of them once at most
and those that return true for sure. A mail that was there or was written stays unless a session
removes its id, no mail is made up, and who opens the mailbox gets the mails that are there. Where
no removal that takes effect has read other mails before than those it removes, the mails are what
the writings and removals make of the first ones in that order. -/
theorem mails_on_node {happenings : List (Happening ι)} (begins : Begins usr s)
    (name : UserName usr) (apart : ∀ h ∈ happenings, Apart usr h)
    (ran : run step s happenings = some s') : ∃ order,
      InOrder (mailsOf (cur s.node usr kMbox)) (s'.mailbox usr) order ∧
      (Along step (RemovesExactly usr) s happenings →
        mailsOf (cur s'.node usr kMbox) =
          order.foldl (fun mails who => (s'.session who).effect mails)
            (mailsOf (cur s.node usr kMbox))) ∧
      (∀ m, Entrusted s s' usr m → (∀ who, (s'.session who).phase.job ≠ .del m.id) →
        m ∈ mailsOf (cur s'.node usr kMbox)) ∧
      (∀ m ∈ mailsOf (cur s'.node usr kMbox),
        Made (mailsOf (cur s.node usr kMbox)) (s'.mailbox usr) order m) ∧
      ∀ env done ret fd box, handleConnect env s'.node (command (.gets usr kMbox)) = some done →
        done.reply = some ret →
        MBox.init { fd := fd, usr := usr } fd usr ⟨ret.status, ret.value⟩ = some (true, box) →
        box.mails = mailsOf (cur s'.node usr kMbox) := by
  obtain ⟨sound, waiting, owned⟩ := sound_begins begins
  obtain ⟨⟨S, live⟩, events, mails, exact⟩ := simulated_run begins.live name owned apart ran
  obtain ⟨sound', order, inOrder, genuine, result⟩ :=
    inOrder_run sound (inOrder_start waiting) (genuine_start waiting) mails
  refine ⟨order, inOrder, fun along => result (exact along) rfl, ?_, genuine.mailbox, ?_⟩
  · intro m entrusted unremoved
    have made : Made (mailsOf (cur s.node usr kMbox)) (s'.mailbox usr) order m := by
      rcases entrusted with there | ⟨who, mail, returned, same⟩
      · exact .inl there
      · refine .inr ⟨who, inOrder.returned who _ returned, mail, ?_, same⟩
        exact congrArg Phase.job returned
    exact inOrder.kept m made fun who _ => unremoved who
  · intro env done ret fd box answered replied opens
    exact opened_on_node live name sound'.mailbox answered replied opens

end Runs

/-- Two writers and a removal before bob's empty mailbox on a small node. -/
def threeSessions : System (Fin 3) :=
  ⟨servingNode, fun who => ⟨.idle 3 bob (if who = 2 then .del 1 else .write greeting), {}⟩⟩

/-- The mail that is to be removed is stored. The removal has to read the mailbox again, as the
second mail arrives before its CPUT. -/
def contended : List (Happening (Fin 3)) :=
  [.answered 0 surroundings, .answered 0 surroundings, .answered 1 surroundings,
    .answered 2 surroundings, .answered 1 surroundings, .answered 2 surroundings,
    .answered 2 surroundings, .answered 2 surroundings]

/-- The mail of the second writer. -/
def secondMail : Mail := { greeting with id := 2 }

theorem mails_of_contended : ∃ (t : System (Fin 3)) (order : List (Fin 3)),
    run step threeSessions contended = some t ∧
    (t.session 2).phase = .done true (.del 1) ∧
    secondMail.shown ∈ mailsOf (cur t.node bob kMbox) ∧
    mailsOf (cur t.node bob kMbox) =
      order.foldl (fun mails who => (t.session who).effect mails) [] := by
  obtain ⟨S, live⟩ := live_started started_servingNode
  have outcome : (run step threeSessions contended).map (fun t =>
      decide ((t.session 0).phase = .done true (.write greeting) ∧
        (t.session 1).phase = .done true (.write secondMail) ∧
        (t.session 2).phase = .done true (.del 1))) = some true := by decide +kernel
  obtain ⟨t, ran, holds⟩ := Option.map_eq_some_iff.mp outcome
  obtain ⟨first, second, removed⟩ := of_decide_eq_true holds
  have empty : cur threeSessions.node bob kMbox = [] := cur_servingNode kMbox
  have begins : Begins bob threeSessions := by
    refine ⟨⟨S, live⟩, empty ▸ wellFormed_nil, fun who => ⟨3, _, rfl, ?_⟩⟩
    split
    · trivial
    · exact ⟨written_greeting, clean_greeting⟩
  have apart : ∀ h ∈ contended, Apart bob h := by
    simp [contended, Apart]
  obtain ⟨order, -, result, kept, -⟩ := mails_on_node begins userName_bob apart ran
  refine ⟨t, order, ran, removed, kept _ (.inr ⟨1, secondMail, second, rfl⟩) fun who => ?_, ?_⟩
  · match who with
    | 0 =>
      rw [first]
      nofun
    | 1 =>
      rw [second]
      nofun
    | 2 =>
      rw [removed]
      nofun
  · rw [empty, mailsOf_nil] at result
    exact result (by decide +kernel)

end NodeMail
