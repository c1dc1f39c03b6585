import PennCloud.MailSessions
import PennCloud.Numbering

/-!
# Concurrent deliveries

Any number of `MBox::write` calls on one mailbox. A mail keeps the id that was
chosen when its session first read the mailbox, also when the CPUT fails and the
mailbox is read again. The ids stay distinct, and no mail is lost, just where no
CPUT of one session takes effect between the first read and the CPUT of another.
-/

namespace Mailbox

open Text KvInterface Runs Numbering

section Delivery
variable {ι : Type} [DecidableEq ι]

def Phase.job : Phase → Job
  | .idle _ _ job => job
  | .put _ job _ => job
  | .reload _ job => job
  | .done _ job => job

/-- The session is on its way between its first read and its end. -/
def Phase.busy : Phase → Bool
  | .put _ _ _ => true
  | .reload _ _ => true
  | _ => false

/-- The ids of a mailbox with these mails are followed by this one. -/
def following (mails : List Mail) : Nat := ((mails.map Mail.id).foldr max 0 + 1) % 2 ^ 64

/-- Writers of clean mails before a well-formed mailbox with distinct ids. -/
structure Deliveries (s : System ι) : Prop where
  mailbox : WellFormed s.mailbox
  distinct : (idsOf s.mailbox).Nodup
  session : ∀ who, ∃ fd usr mail, s.session who = ⟨.idle fd usr (.write mail), {}⟩ ∧
    Written mail ∧ Clean mail

/-- The next call of the session is a CPUT that finds its text in the mailbox, and takes effect
whether or not the answer arrives. -/
def TakesEffect (s : System ι) (who : ι) (act : Act) : Prop :=
  ∃ box job post, (s.session who).phase = .put box job post ∧ s.mailbox = box.text ∧
    (act = .cput ∨ act = .lost)

instance (s : System ι) (who : ι) (act : Act) : Decidable (TakesEffect s who act) :=
  match h : (s.session who).phase with
  | .put box job post => decidable_of_iff (s.mailbox = box.text ∧ (act = .cput ∨ act = .lost))
    ⟨fun ok => ⟨box, job, post, h, ok⟩, fun ⟨_, _, _, h', ok⟩ => by
      cases h.symm.trans h'
      exact ok⟩
  | .idle _ _ _ => isFalse fun ⟨_, _, _, h', _⟩ => nomatch h.symm.trans h'
  | .reload _ _ => isFalse fun ⟨_, _, _, h', _⟩ => nomatch h.symm.trans h'
  | .done _ _ => isFalse fun ⟨_, _, _, h', _⟩ => nomatch h.symm.trans h'

/-- A CPUT that takes effect finds the mailbox that its session read first, in which the next id
is free. -/
def UpToDate (s : System ι) (e : ι × Act) : Prop := TakesEffect s e.1 e.2 →
  s.mailbox = (s.session e.1).loads.first ∧ nextId s.mailbox ∉ idsOf s.mailbox

instance (s : System ι) (e : ι × Act) : Decidable (UpToDate s e) :=
  inferInstanceAs (Decidable (_ → _))

/-- The ids are distinct, and every mail whose `write` returned true occurs exactly once. -/
def Kept (s : System ι) : Prop := (idsOf s.mailbox).Nodup ∧
  ∀ who mail, (s.session who).phase = .done true (.write mail) →
    (mailsOf s.mailbox).count mail.shown = 1

/-- What every run of writers keeps. -/
structure Writing (s : System ι) : Prop where
  sound : Sound s
  writes : ∀ who, ∃ mail, (s.session who).phase.job = .write mail

/-- What a run of writers keeps as long as they are up to date. -/
structure Fair (s : System ι) : Prop where
  distinct : (idsOf s.mailbox).Nodup
  behind : ∀ who, (s.session who).phase.busy = true →
    Behind Mail.id following (mailsOf (s.session who).loads.first) (mailsOf s.mailbox)
  stored : ∀ who mail, (s.session who).phase = .done true (.write mail) →
    mail.shown ∈ mailsOf s.mailbox

omit [DecidableEq ι] in
theorem writing_start {s : System ι} (start : Deliveries s) : Writing s where
  sound := ⟨start.mailbox, fun who => by
    obtain ⟨fd, usr, mail, same, ok⟩ := start.session who
    rw [same]
    exact ok⟩
  writes who := by
    obtain ⟨fd, usr, mail, same, -⟩ := start.session who
    exact ⟨mail, by rw [same]; rfl⟩

omit [DecidableEq ι] in
theorem fair_start {s : System ι} (start : Deliveries s) : Fair s where
  distinct := start.distinct
  behind who busy := by
    obtain ⟨fd, usr, mail, same, -⟩ := start.session who
    rw [same] at busy
    cases busy
  stored who mail done := by
    obtain ⟨fd, usr, mail', same, -⟩ := start.session who
    rw [same] at done
    cases done

theorem job_answered (box : MBox) (job : Job) (status : KvState) :
    (Phase.answered box job status).job = job := by
  unfold Phase.answered
  split
  · rfl
  split <;> rfl

/-- The session is still one of a writer. -/
theorem writing_step {s s' : System ι} {e : ι × Act} (writing : Writing s)
    (h : step s e = some s') : Writing s' := by
  obtain ⟨who, act⟩ := e
  refine ⟨sound_step writing.sound h, ?_⟩
  obtain ⟨mail, own⟩ := writing.writes who
  let P : ι → Session → Prop := fun _ session => ∃ mail, session.phase.job = .write mail
  cases stepped h with
  | opened place found next =>
    rw [place] at own
    obtain rfl : _ = Job.write mail := own
    obtain ⟨r, -, rfl⟩ := Option.map_eq_some_iff.mp next
    refine forall_set (P := P) ?_ writing.writes
    change ∃ mail', Phase.job (if r.1 then _ else _) = _
    split
    · exact ⟨_, rfl⟩
    · exact ⟨mail, rfl⟩
  | reloaded place found next =>
    rw [place] at own
    obtain ⟨r, -, rfl⟩ := Option.map_eq_some_iff.mp next
    exact forall_set (P := P) ⟨mail, own⟩ writing.writes
  | stored place same answer =>
    rw [place] at own
    exact forall_set (P := P) ⟨mail, (job_answered _ _ _).trans own⟩ writing.writes
  | kept place refused other =>
    rw [place] at own
    exact forall_set (P := P) ⟨mail, (job_answered _ _ _).trans own⟩ writing.writes

omit [DecidableEq ι] in
/-- A CPUT of a writer that takes effect appends its mail. -/
theorem appended {s : System ι} (writing : Writing s) {who : ι} {box : MBox} {job : Job}
    {post : Str} (place : (s.session who).phase = .put box job post)
    (same : s.mailbox = box.text) : ∃ mail, job = .write mail ∧
      mailsOf post = mailsOf s.mailbox ++ [mail.shown] ∧
      mail.shown.id = following (mailsOf (s.session who).loads.first) := by
  obtain ⟨mail, own⟩ := writing.writes who
  rw [place] at own
  obtain rfl : job = .write mail := own
  obtain ⟨⟨written, clean⟩, -, idOk, rfl⟩ := sessionOk_at writing.sound place
  refine ⟨mail, rfl, ?_, idOk⟩
  rw [MBox.postText, ← same]
  exact (writing.sound.mailbox.append written clean).2

/-- A session that only reads, or whose CPUT has no effect. -/
theorem fair_set {s : System ι} (fair : Fair s) {who : ι} {session : Session}
    (behind : session.phase.busy = true →
      Behind Mail.id following (mailsOf session.loads.first) (mailsOf s.mailbox))
    (unfinished : ∀ mail, session.phase ≠ .done true (.write mail)) :
    Fair (s.set who session) where
  distinct := fair.distinct
  behind := forall_set (P := fun _ session => session.phase.busy = true →
    Behind Mail.id following (mailsOf session.loads.first) (mailsOf s.mailbox)) behind fair.behind
  stored := forall_set (P := fun _ session => ∀ mail, session.phase = .done true (.write mail) →
    mail.shown ∈ mailsOf s.mailbox) (fun mail done => absurd done (unfinished mail)) fair.stored

theorem first_reload (loads : Loads) (got : Got) : (loads.reload got).first = loads.first := by
  rw [Loads.reload]
  split <;> rfl

theorem busy_answered {box : MBox} {job : Job} {status : KvState} (refused : status ≠ .finished)
    (mail : Mail) : Phase.answered box job status ≠ .done true (.write mail) := by
  unfold Phase.answered
  rw [if_neg refused]
  split <;> simp

theorem fair_stored {s : System ι} (writing : Writing s) (fair : Fair s) {who : ι} {box : MBox}
    {job : Job} {post : Str} {status : KvState} (place : (s.session who).phase = .put box job post)
    (same : s.mailbox = box.text) (ended : status = .finished ∨ status = .linkError)
    (first : s.mailbox = (s.session who).loads.first) (free : nextId s.mailbox ∉ idsOf s.mailbox) :
    Fair ({ s with mailbox := post }.set who ⟨.answered box job status, (s.session who).loads⟩) := by
  obtain ⟨mail, rfl, mails, id⟩ := appended writing place same
  have behind := fair.behind who (by rw [place]; rfl)
  have numbered : mail.shown.id = following (mailsOf s.mailbox) := by rw [id, first]
  refine ⟨?_, ?_, ?_⟩
  · change ((mailsOf post).map Mail.id).Nodup
    rw [mails]
    exact (nodup_append_iff behind id fair.distinct).mpr ⟨by rw [first], free⟩
  · refine forall_set (P := fun _ session => session.phase.busy = true →
      Behind Mail.id following (mailsOf session.loads.first) (mailsOf post)) ?_ ?_
    · intro busy
      rcases ended with rfl | rfl <;> cases busy
    · intro other busy
      rw [mails]
      exact (fair.behind other busy).append numbered
  · refine forall_set (P := fun _ session => ∀ m, session.phase = .done true (.write m) →
      m.shown ∈ mailsOf post) ?_ ?_
    · intro m done
      rw [mails]
      rcases ended with rfl | rfl
      · cases done
        exact List.mem_append_right _ (List.mem_singleton_self _)
      · cases done
    · intro other m done
      rw [mails]
      exact List.mem_append_left _ (fair.stored other m done)

theorem fair_step {s s' : System ι} {e : ι × Act} (writing : Writing s) (fair : Fair s)
    (upToDate : UpToDate s e) (h : step s e = some s') : Fair s' := by
  obtain ⟨who, act⟩ := e
  cases stepped h with
  | opened place found next =>
    rename_i fd usr job got phase
    obtain ⟨r, init, rfl⟩ := Option.map_eq_some_iff.mp next
    by_cases good : got.status = .finished ∨ got.status = .keyError
    · obtain ⟨value, -⟩ := init_read writing.sound.mailbox found good { fd := fd, usr := usr } fd usr
      refine fair_set fair (fun _ => ?_) fun mail => ?_
      · rw [Loads.open, value]
        exact behind_self _
      · split <;> simp
    · have failed := init_failed found good { fd := fd, usr := usr } fd usr
      obtain rfl := Option.some.inj (init.symm.trans failed)
      refine fair_set fair (fun busy => ?_) (by simp)
      cases busy
  | reloaded place found next =>
    obtain ⟨r, -, rfl⟩ := Option.map_eq_some_iff.mp next
    refine fair_set fair (fun _ => ?_) (by simp)
    rw [first_reload]
    exact fair.behind who (by rw [place]; rfl)
  | stored place same answer =>
    obtain ⟨first, free⟩ := upToDate ⟨_, _, _, place, same, answer.imp And.left And.left⟩
    exact fair_stored writing fair place same (answer.imp And.right And.right) first free
  | kept place refused other =>
    exact fair_set fair (fun _ => fair.behind who (by rw [place]; rfl)) (busy_answered refused)

/-- Two mails with one id stay in the mailbox. -/
theorem clash_step {s s' : System ι} {e : ι × Act} (writing : Writing s)
    (clash : ¬ (idsOf s.mailbox).Nodup) (h : step s e = some s') : ¬ (idsOf s'.mailbox).Nodup := by
  obtain ⟨who, act⟩ := e
  cases stepped h with
  | opened place found next => exact clash
  | reloaded place found next => exact clash
  | stored place same answer =>
    rename_i box job post status
    obtain ⟨mail, -, mails, -⟩ := appended writing place same
    change ¬ ((mailsOf post).map Mail.id).Nodup
    rw [mails]
    exact not_nodup_append clash
  | kept place refused other => exact clash

/-- A session that is not up to date gives its mail an id that another mail has. -/
theorem clash_of_stale {s s' : System ι} {e : ι × Act} (writing : Writing s) (fair : Fair s)
    (stale : ¬ UpToDate s e) (h : step s e = some s') : ¬ (idsOf s'.mailbox).Nodup := by
  obtain ⟨who, act⟩ := e
  obtain ⟨⟨box, job, post, place, same, effect⟩, apart⟩ := Classical.not_imp.mp stale
  obtain ⟨mail, rfl, mails, id⟩ := appended writing place same
  have stored : s'.mailbox = post := by
    simp only [step, place] at h
    rcases effect with rfl | rfl
    · simp only [cput, if_pos same, Option.map_some, Option.some.injEq] at h
      rw [← h]
      rfl
    · simp only [cput, if_pos same, Option.map_some, Option.some.injEq] at h
      rw [← h]
      rfl
  have behind := fair.behind who (by rw [place]; rfl)
  rw [stored]
  change ¬ ((mailsOf post).map Mail.id).Nodup
  rw [mails, nodup_append_iff behind id fair.distinct]
  rintro ⟨first, free⟩
  refine apart ⟨?_, free⟩
  obtain ⟨-, boxOk, -⟩ := sessionOk_at writing.sound place
  rw [writing.sound.mailbox.mails.2, (boxOk.wellFormed _ boxOk.first).mails.2, first]

omit [DecidableEq ι] in
theorem kept_of_fair {s : System ι} (fair : Fair s) : Kept s := by
  refine ⟨fair.distinct, fun who mail done => ?_⟩
  exact List.count_eq_one_of_mem (List.Nodup.of_map _ fair.distinct) (fair.stored who mail done)

theorem clash_run {events : List (ι × Act)} {s s' : System ι} (writing : Writing s)
    (clash : ¬ (idsOf s.mailbox).Nodup) (ran : run step s events = some s') :
    ¬ (idsOf s'.mailbox).Nodup := by
  have both : Writing s' ∧ ¬ (idsOf s'.mailbox).Nodup :=
    run_invariant (P := fun s => Writing s ∧ ¬ (idsOf s.mailbox).Nodup)
      (fun s e t before h => ⟨writing_step before.1 h, clash_step before.1 before.2 h⟩)
      ⟨writing, clash⟩ ran
  exact both.2

theorem kept_run_iff {events : List (ι × Act)} {s s' : System ι} (writing : Writing s)
    (fair : Fair s) (ran : run step s events = some s') :
    Kept s' ↔ Along step UpToDate s events := by
  induction events generalizing s with
  | nil =>
    cases ran
    exact ⟨fun _ => trivial, fun _ => kept_of_fair fair⟩
  | cons e events ih =>
    obtain ⟨t, first, rest⟩ := run_cons_eq_some.mp ran
    have next := writing_step writing first
    by_cases upToDate : UpToDate s e
    · rw [ih next (fair_step writing fair upToDate first) rest]
      constructor
      · intro later
        refine ⟨upToDate, fun t' same => ?_⟩
        rwa [← Option.some.inj (first.symm.trans same)]
      · rintro ⟨-, later⟩
        exact later t first
    · have clash := clash_run next (clash_of_stale writing fair upToDate first) rest
      exact ⟨fun kept => absurd kept.1 clash, fun along => absurd along.1 upToDate⟩

/-- In every run of any number of writers the ids are distinct and every mail whose `write`
returned true is there once, if and only if each CPUT that took effect found the mailbox as its
session had read it first, with the next id free. -/
theorem deliveries_kept_iff (start s : System ι) (deliveries : Deliveries start)
    (events : List (ι × Act)) (ran : run step start events = some s) :
    Kept s ↔ Along step UpToDate start events :=
  kept_run_iff (writing_start deliveries) (fair_start deliveries) ran

end Delivery

/-- Two writers before an empty mailbox. -/
def twoWriters : System Bool := ⟨[], fun _ => ⟨.idle 3 "al".toList (.write greeting), {}⟩⟩

theorem deliveries_twoWriters : Deliveries twoWriters where
  mailbox := wellFormed_nil
  distinct := by decide
  session _ := ⟨3, "al".toList, greeting, rfl, written_greeting, clean_greeting⟩

theorem deliveries_kept_twice : ∃ s,
    run step twoWriters [(true, .read), (true, .cput), (false, .read), (false, .cput)] = some s ∧
      idsOf s.mailbox = [1, 2] ∧ Kept s := by
  have outcome : (run step twoWriters
      [(true, .read), (true, .cput), (false, .read), (false, .cput)]).map
      (fun s => idsOf s.mailbox) = some [1, 2] := by decide +kernel
  obtain ⟨s, ran, ids⟩ := Option.map_eq_some_iff.mp outcome
  exact ⟨s, ran, ids, (deliveries_kept_iff twoWriters s deliveries_twoWriters _ ran).mpr
    (by decide +kernel)⟩

/-- The second writer reads the mailbox again and keeps its id. -/
theorem deliveries_clash : ∃ (start : System Bool) (events : List (Bool × Act)) (s : System Bool),
    Deliveries start ∧ run step start events = some s ∧ idsOf s.mailbox = [1, 1] ∧
      (∀ who, (s.session who).phase = .done true (.write greeting)) ∧ ¬ Kept s := by
  have outcome : (run step twoWriters [(true, .read), (false, .read), (true, .cput),
      (false, .cput), (false, .read), (false, .cput)]).map (fun s => (idsOf s.mailbox == [1, 1],
        (s.session true).phase, (s.session false).phase)) =
      some (true, .done true (.write greeting), .done true (.write greeting)) := by decide +kernel
  obtain ⟨s, ran, holds⟩ := Option.map_eq_some_iff.mp outcome
  simp only [Prod.mk.injEq, beq_iff_eq] at holds
  obtain ⟨ids, first, second⟩ := holds
  refine ⟨twoWriters, _, s, deliveries_twoWriters, ran, ids, fun who => by cases who <;> assumption,
    fun kept => ?_⟩
  have distinct := kept.1
  rw [ids] at distinct
  exact absurd distinct (by decide)

end Mailbox
