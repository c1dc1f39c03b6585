import Mathlib.Data.Bool.Basic
import Mathlib.Logic.Function.Basic
import PennCloud.Dialogue
import PennCloud.Runs

/-!
# Two dialogues with one service

Two dialogues ask a service with a state, in any order of their questions. What each
of them asked is a conversation of its own, and all answers together are those of the
service one after the other.
-/

namespace Interleaving

open Dialogue Runs

variable {σ Query Answer Result : Type} {answer : σ → Query → Answer × σ}

/-- The service gives the answer and goes on to the state. -/
def gives (answer : σ → Query → Answer × σ) (s : σ) (query : Query) (a : Answer) (s' : σ) : Prop :=
  answer s query = (a, s')

/-- The dialogue on its own: its result and the state it leaves. -/
def alone (answer : σ → Query → Answer × σ) (s : σ) :
    Dialogue Query Answer Result → Option (Result × σ)
  | .done result => some (result, s)
  | .stuck => none
  | .ask query next => alone answer (answer s query).2 (next (answer s query).1)

/-- What the dialogue reaches with the service, it reaches on its own. -/
theorem alone_of_reaches {p : Dialogue Query Answer Result} {s : σ} {post : σ → Result → Prop}
    (reaches : p.Reaches False (gives answer) s post) :
    ∃ result s', alone answer s p = some (result, s') ∧ post s' result := by
  induction p generalizing s with
  | done result => exact ⟨result, s, rfl, reaches⟩
  | stuck => exact reaches.elim
  | ask query next ih => exact ih _ (reaches _ _ rfl)

/-! The entries of two parties -/

section Entries
variable {α : Type}

/-- The entries of a party. -/
def entriesOf (log : List (Bool × α)) (who : Bool) : List α :=
  (log.filter fun e => e.1 = who).map Prod.snd

theorem entriesOf_append (log later : List (Bool × α)) (who : Bool) :
    entriesOf (log ++ later) who = entriesOf log who ++ entriesOf later who := by
  rw [entriesOf, List.filter_append, List.map_append]
  rfl

theorem entriesOf_cons_own (who : Bool) (a : α) (log : List (Bool × α)) :
    entriesOf ((who, a) :: log) who = a :: entriesOf log who := by
  simp [entriesOf]

theorem entriesOf_cons_other (who : Bool) (a : α) (log : List (Bool × α)) :
    entriesOf ((who, a) :: log) (!who) = entriesOf log !who := by
  simp [entriesOf]

theorem entriesOf_own {log : List (Bool × α)} {who : Bool} (own : ∀ e ∈ log, e.1 = who) :
    entriesOf log who = log.map Prod.snd := by
  rw [entriesOf, List.filter_eq_self.mpr fun e mem => decide_eq_true (own e mem)]

theorem entriesOf_other {log : List (Bool × α)} {who : Bool} (own : ∀ e ∈ log, e.1 = who) :
    entriesOf log (!who) = [] := by
  rw [entriesOf, List.map_eq_nil_iff, List.filter_eq_nil_iff]
  intro e mem same
  have := own e mem
  simp_all

theorem own_of_entriesOf {log : List (Bool × α)} {who : Bool} (none : entriesOf log (!who) = []) :
    ∀ e ∈ log, e.1 = who := by
  intro e mem
  have other := List.filter_eq_nil_iff.mp (List.map_eq_nil_iff.mp none) e mem
  simpa using other

/-- Before the first entry of a party there are those of the other. -/
theorem exists_first {log : List (Bool × α)} {who : Bool} {a : α} {rest : List α}
    (entries : entriesOf log who = a :: rest) :
    ∃ before after, log = before ++ (who, a) :: after ∧ ∀ e ∈ before, e.1 = !who := by
  obtain ⟨e, later, found, rfl, -⟩ := List.map_eq_cons_iff.mp entries
  obtain ⟨before, after, rfl, others, own, -⟩ := List.filter_eq_cons_iff.mp found
  obtain rfl := of_decide_eq_true own
  refine ⟨before, after, rfl, fun e mem => Bool.eq_not.mpr fun same => ?_⟩
  exact others e mem (decide_eq_true same)

/-- The entries of one party, up to the first of the other. -/
theorem exists_block (who : Bool) (log : List (Bool × α)) : ∃ block rest, log = block ++ rest ∧
    (∀ e ∈ block, e.1 = who) ∧ ∀ e later, rest = e :: later → e.1 = !who := by
  induction log with
  | nil => exact ⟨[], [], rfl, List.forall_mem_nil _, fun e later no => nomatch no⟩
  | cons e log ih =>
    by_cases own : e.1 = who
    · obtain ⟨block, rest, rfl, all, next⟩ := ih
      exact ⟨e :: block, rest, rfl, List.forall_mem_cons.mpr ⟨own, all⟩, next⟩
    · refine ⟨[], e :: log, rfl, List.forall_mem_nil _, fun e' later same => ?_⟩
      cases same
      exact Bool.eq_not.mpr own

/-- Where both parties have entries, those of one come first, then some of the other. -/
theorem exists_blocks {log : List (Bool × α)} (both : ∀ who, entriesOf log who ≠ []) :
    ∃ who one two rest, log = one ++ (two ++ rest) ∧ one ≠ [] ∧ two ≠ [] ∧
      (∀ e ∈ one, e.1 = who) ∧ (∀ e ∈ two, e.1 = !who) ∧
      ∀ e later, rest = e :: later → e.1 = who := by
  cases log with
  | nil => exact absurd rfl (both true)
  | cons e log =>
    obtain ⟨one, rest, split, own, next⟩ := exists_block e.1 log
    obtain ⟨two, rest, rfl, own', next'⟩ := exists_block (!e.1) rest
    refine ⟨e.1, e :: one, two, rest, by rw [split, List.cons_append], List.cons_ne_nil _ _, ?_,
      List.forall_mem_cons.mpr ⟨rfl, own⟩, own', fun e' later same => ?_⟩
    · rintro rfl
      cases rest with
      | nil =>
        refine both (!e.1) (entriesOf_other (List.forall_mem_cons.mpr ⟨rfl, ?_⟩))
        rw [split, List.append_nil, List.append_nil]
        exact own
      | cons e' later =>
        have other := (next e' later rfl).symm.trans (next' e' later rfl)
        simp at other
    · rw [next' e' later same, Bool.not_not]

end Entries

/-! Sessions -/

structure Session (σ Query Answer Result : Type) where
  state : σ
  party : Bool → Dialogue Query Answer Result
  log : List (Bool × Query × Answer)

def Session.start (s : σ) (party : Bool → Dialogue Query Answer Result) :
    Session σ Query Answer Result := ⟨s, party, []⟩

/-- One of the dialogues asks its next question. -/
def step (answer : σ → Query → Answer × σ) (s : Session σ Query Answer Result) (who : Bool) :
    Option (Session σ Query Answer Result) :=
  match s.party who with
  | .ask query next =>
    let r := answer s.state query
    some ⟨r.2, Function.update s.party who (next r.1), s.log ++ [(who, query, r.1)]⟩
  | _ => none

/-- The questions of a party and the answers to them. -/
def transcript (s : Session σ Query Answer Result) (who : Bool) : List (Query × Answer) :=
  entriesOf s.log who

section Step
variable {s t : Session σ Query Answer Result} {who : Bool}

/-- What a step does. -/
theorem step_some (h : step answer s who = some t) : ∃ query next,
    s.party who = .ask query next ∧ t.state = (answer s.state query).2 ∧
      t.party who = next (answer s.state query).1 ∧ t.party (!who) = s.party (!who) ∧
      t.log = s.log ++ [(who, query, (answer s.state query).1)] := by
  unfold step at h
  split at h
  · rename_i query next party
    cases h
    refine ⟨query, next, party, rfl, Function.update_self _ _ _, ?_, rfl⟩
    exact Function.update_of_ne (by simp) _ _
  · cases h

/-- The party that steps has asked one more question. -/
theorem transcript_step {query : Query} {a : Answer} (log : t.log = s.log ++ [(who, query, a)])
    (party : Bool) :
    transcript t party = transcript s party ++ if party = who then [(query, a)] else [] := by
  have own : ∀ e ∈ [(who, query, a)], e.1 = who := by
    intro e mem
    rw [List.mem_singleton.mp mem]
  rw [transcript, log, entriesOf_append, transcript]
  refine congrArg _ ?_
  by_cases self : party = who
  · subst self
    rw [if_pos rfl, entriesOf_own own]
    rfl
  · obtain rfl : party = !who := Bool.eq_not.mpr self
    rw [if_neg self, entriesOf_other own]

theorem conversation_step {party : Bool} {rest : List (Query × Answer)} {result : Result}
    (h : step answer s who = some t) (ran : Conversation (t.party party) rest result) :
    ∃ asked, transcript t party = transcript s party ++ asked ∧
      Conversation (s.party party) (asked ++ rest) result := by
  obtain ⟨query, next, asks, -, answered, other, log⟩ := step_some h
  refine ⟨_, transcript_step log party, ?_⟩
  by_cases self : party = who
  · subst self
    rw [asks, if_pos rfl]
    rw [answered] at ran
    exact .ask ran
  · obtain rfl : party = !who := Bool.eq_not.mpr self
    rw [other] at ran
    rwa [if_neg self]

/-- What a party asked up to its end is a conversation of its dialogue. -/
theorem conversation_of_run {p : Bool → Dialogue Query Answer Result} {start : σ}
    {schedule : List Bool} (ran : run (step answer) (Session.start start p) schedule = some s)
    {party : Bool} {result : Result} (ended : s.party party = .done result) :
    Conversation (p party) (transcript s party) result := by
  have preserved : ∀ (s : Session σ Query Answer Result) who t,
      (∀ rest, Conversation (s.party party) rest result →
        Conversation (p party) (transcript s party ++ rest) result) →
      step answer s who = some t → ∀ rest, Conversation (t.party party) rest result →
        Conversation (p party) (transcript t party ++ rest) result := by
    intro s who t before stepped rest after
    obtain ⟨asked, log, h⟩ := conversation_step stepped after
    rw [log, List.append_assoc]
    exact before _ h
  have kept := run_invariant preserved (fun rest h => h) ran
  have all := kept [] (by rw [ended]; exact .done result)
  rwa [List.append_nil] at all

/-- All questions together are answered one after the other. -/
theorem course_of_run {p : Bool → Dialogue Query Answer Result} {start : σ} {schedule : List Bool}
    (ran : run (step answer) (Session.start start p) schedule = some s) :
    Course (gives answer) start (s.log.map Prod.snd) s.state := by
  have preserved : ∀ (s : Session σ Query Answer Result) who t,
      Course (gives answer) start (s.log.map Prod.snd) s.state → step answer s who = some t →
        Course (gives answer) start (t.log.map Prod.snd) t.state := by
    intro s who t before stepped
    obtain ⟨query, next, -, state, -, -, log⟩ := step_some stepped
    rw [log, List.map_append, state]
    exact course_append.mpr ⟨_, before, .ask rfl (.done _)⟩
  exact run_invariant preserved (.done start) ran

end Step

end Interleaving
