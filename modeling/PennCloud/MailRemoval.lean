import PennCloud.MailSessions

/-!
# Removing a mail under contention

`MBox::del` among other sessions on the mailbox. When its CPUT fails the mailbox
is opened again in the same object, which still holds the mails of the earlier
readings. What it stores in the end is right just where those were all mails
that it removes.
-/

namespace Mailbox

open Text KvInterface Runs

section Removal
variable {ι : Type} [DecidableEq ι]

/-- Writers of clean mails and removers before a well-formed mailbox with distinct ids. -/
structure Starts (s : System ι) : Prop where
  mailbox : WellFormed s.mailbox
  distinct : (idsOf s.mailbox).Nodup
  session : ∀ who, ∃ fd usr job, s.session who = ⟨.idle fd usr job, {}⟩ ∧ JobOk job

def without (id : Nat) (mails : List Mail) : List Mail := mails.filter fun mail => mail.id ≠ id

omit [DecidableEq ι] in
theorem sound_start {s : System ι} (start : Starts s) : Sound s where
  mailbox := start.mailbox
  session who := by
    obtain ⟨fd, usr, job, same, ok⟩ := start.session who
    rw [same]
    exact ok

theorem sound_run {s s' : System ι} (sound : Sound s) {events : List (ι × Act)}
    (ran : run step s events = some s') : Sound s' :=
  run_invariant (fun _ _ _ before h => sound_step before h) sound ran

theorem toLocalString_ne_nil (m : Mail) : m.toLocalString ≠ [] := by
  intro empty
  have length := congrArg List.length empty
  simp [Mail.toLocalString] at length

theorem print_eq_nil {mails : List Mail} : mails.flatMap Mail.toLocalString = [] ↔ mails = [] := by
  constructor
  · intro empty
    cases mails with
    | nil => rfl
    | cons m mails =>
      rw [List.flatMap_cons] at empty
      exact absurd (List.append_eq_nil_iff.mp empty).1 (toLocalString_ne_nil m)
  · rintro rfl
    rfl

theorem mailsOf_nil : mailsOf [] = [] := by decide +kernel

/-- The object holds the mails of the readings before, and then those of its text. -/
theorem mails_of_boxOk {box : MBox} {loads : Loads} (ok : BoxOk box loads) :
    box.mails = loads.superseded.flatMap mailsOf ++ mailsOf box.text := by
  rw [ok.mails, List.flatMap_append, ok.text]
  cases loads.current with
  | none => simp [mailsOf_nil]
  | some text => simp

theorem without_append (id : Nat) (before after : List Mail) :
    without id (before ++ after) = without id before ++ without id after := List.filter_append ..

theorem without_eq_nil {id : Nat} {mails : List Mail} :
    without id mails = [] ↔ ∀ m ∈ mails, m.id = id := by
  simp [without]

theorem without_print_iff (id : Nat) (before here : List Mail) :
    (without id (before ++ here)).flatMap Mail.toLocalString =
        (without id here).flatMap Mail.toLocalString ↔ ∀ m ∈ before, m.id = id := by
  rw [without_append, List.flatMap_append, List.append_left_eq_self, print_eq_nil, without_eq_nil]

/-- A CPUT that returns finished found its text in the mailbox. -/
theorem replaced {s s' : System ι} {who : ι} {box : MBox} {job : Job} {post : Str}
    (place : (s.session who).phase = .put box job post) (h : step s (who, .cput) = some s')
    (done : (s'.session who).phase = .done true job) : s.mailbox = box.text ∧ s'.mailbox = post := by
  simp only [step, place, cput, Option.map_some, Option.some.injEq] at h
  by_cases same : s.mailbox = box.text
  · rw [if_pos same] at h
    rw [← h]
    exact ⟨same, rfl⟩
  · rw [if_neg same] at h
    rw [← h, set_self] at done
    cases done

/-- In every run of any number of sessions, when `del` returns true: it has stored the mailbox that
its CPUT replaced without the mails of the id, if and only if all mails that it had read before
were mails of the id. -/
theorem del_exact_iff (start s s' : System ι) (starts : Starts start) (events : List (ι × Act))
    (ran : run step start events = some s) (who : ι) (id : Nat) (box : MBox) (post : Str)
    (place : (s.session who).phase = .put box (.del id) post)
    (stepped : step s (who, .cput) = some s')
    (returned : (s'.session who).phase = .done true (.del id)) :
    s'.mailbox = (without id (mailsOf s.mailbox)).flatMap Mail.toLocalString ↔
      ∀ text ∈ (s.session who).loads.superseded, ∀ m ∈ mailsOf text, m.id = id := by
  have sound := sound_run (sound_start starts) ran
  obtain ⟨-, boxOk, -, rfl⟩ := sessionOk_at sound place
  obtain ⟨same, stored⟩ := replaced place stepped returned
  have put : s'.mailbox =
      (without id ((s.session who).loads.superseded.flatMap mailsOf ++ mailsOf s.mailbox)).flatMap
        Mail.toLocalString := by
    rw [stored, same, ← mails_of_boxOk boxOk]
    rfl
  rw [put, without_print_iff]
  simp only [List.mem_flatMap, forall_exists_index, and_imp]
  exact ⟨fun all text mem m hm => all m text mem hm, fun all m text mem hm => all text mem m hm⟩

end Removal

/-- One session removes the first mail, and another one writes a mail. -/
def removing : System Bool :=
  ⟨greeting.toLocalString, fun who =>
    ⟨.idle 3 "al".toList (if who then .del 2 else .write greeting), {}⟩⟩

theorem starts_removing : Starts removing where
  mailbox := ⟨[greeting], by simpa using ⟨written_greeting, clean_greeting⟩, by simp [removing]⟩
  distinct := by decide +kernel
  session who := ⟨3, "al".toList, _, rfl, by
    cases who
    · exact ⟨written_greeting, clean_greeting⟩
    · trivial⟩

/-- One session removes the first of two mails. -/
def clearing : System Bool :=
  ⟨[greeting, answer].flatMap Mail.toLocalString, fun who =>
    ⟨.idle 3 "al".toList (if who then .del 1 else .write greeting), {}⟩⟩

theorem starts_clearing : Starts clearing where
  mailbox := ⟨[greeting, answer], by
    simpa using ⟨⟨written_greeting, clean_greeting⟩, written_answer, clean_answer⟩, rfl⟩
  distinct := by decide +kernel
  session who := ⟨3, "al".toList, _, rfl, by
    cases who
    · exact ⟨written_greeting, clean_greeting⟩
    · trivial⟩

/-- The object after one reading of that mailbox. -/
def opened : MBox :=
  ⟨3, 2, "al".toList, [greeting, answer].flatMap Mail.toLocalString, [greeting.shown, answer.shown]⟩

theorem del_exact_alone : ∃ s s', run step clearing [(true, .read)] = some s ∧
    step s (true, .cput) = some s' ∧ idsOf s.mailbox = [1, 2] ∧
    s'.mailbox = (without 1 (mailsOf s.mailbox)).flatMap Mail.toLocalString := by
  have outcome : ((run step clearing [(true, .read)]).bind fun s =>
      (step s (true, .cput)).map fun s' => ((s.session true).phase,
        (s.session true).loads.superseded, (s'.session true).phase, idsOf s.mailbox)) =
      some (.put opened (.del 1) answer.toLocalString, [], .done true (.del 1), [1, 2]) := by
    decide +kernel
  obtain ⟨s, ran, next⟩ := Option.bind_eq_some_iff.mp outcome
  obtain ⟨s', stepped, holds⟩ := Option.map_eq_some_iff.mp next
  simp only [Prod.mk.injEq] at holds
  obtain ⟨place, loads, returned, ids⟩ := holds
  refine ⟨s, s', ran, stepped, ids, ?_⟩
  exact (del_exact_iff clearing s s' starts_clearing _ ran true 1 opened answer.toLocalString
    place stepped returned).mpr (by simp [loads])

/-- A mail that arrives between the reading and the CPUT is removed, and the other one doubled. -/
theorem del_doubles : ∃ (start : System Bool) (events : List (Bool × Act)) (s s' : System Bool),
    Starts start ∧ run step start events = some s ∧ step s (true, .cput) = some s' ∧
      (s'.session true).phase = .done true (.del 2) ∧ idsOf s.mailbox = [1, 2] ∧
      idsOf s'.mailbox = [1, 1] ∧
      s'.mailbox ≠ (without 2 (mailsOf s.mailbox)).flatMap Mail.toLocalString := by
  have outcome : ((run step removing [(true, .read), (false, .read), (false, .cput), (true, .cput),
      (true, .read)]).bind fun s => (step s (true, .cput)).map fun s' =>
        ((s'.session true).phase, idsOf s.mailbox, idsOf s'.mailbox,
          decide (s'.mailbox = (without 2 (mailsOf s.mailbox)).flatMap Mail.toLocalString))) =
      some (.done true (.del 2), [1, 2], [1, 1], false) := by decide +kernel
  obtain ⟨s, ran, next⟩ := Option.bind_eq_some_iff.mp outcome
  obtain ⟨s', stepped, holds⟩ := Option.map_eq_some_iff.mp next
  simp only [Prod.mk.injEq, decide_eq_false_iff_not] at holds
  obtain ⟨returned, before, after, differs⟩ := holds
  exact ⟨removing, _, s, s', starts_removing, ran, stepped, returned, before, after, differs⟩

end Mailbox
