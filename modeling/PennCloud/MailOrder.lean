import PennCloud.MailDelivery
import PennCloud.MailRemoval

/-!
# The order in which mails are stored and removed

Each session takes effect once at most. A mail stays in the mailbox until a session
removes its id, whatever other sessions do, and no mail is made up. Where no removal
puts back other mails than those it removes, the mailbox is what the sessions that
took effect make of it, one after the other.
-/

namespace Mailbox

open Text KvInterface Runs

/-- What the session is for: its mail is written, or the mails of its id are removed. -/
def Session.effect (session : Session) (mails : List Mail) : List Mail :=
  match session.phase.job with
  | .write mail => mails ++ [mail.shown]
  | .del id => without id mails

/-- What the CPUT of the session leaves of the mails. A removal also stores what it has read before
the mailbox that it replaces. -/
def Session.leaves (session : Session) (mails : List Mail) : List Mail :=
  match session.phase.job with
  | .write mail => mails ++ [mail.shown]
  | .del id => without id (session.loads.superseded.flatMap mailsOf ++ mails)

/-- A removal has read no mails before but those that it removes. -/
def Session.Exact (session : Session) : Prop :=
  match session.phase.job with
  | .write _ => True
  | .del id => ∀ text ∈ session.loads.superseded, ∀ m ∈ mailsOf text, m.id = id

instance (session : Session) : Decidable session.Exact :=
  match h : session.phase.job with
  | .write _ => isTrue (by rw [Session.Exact, h]; trivial)
  | .del id =>
    decidable_of_iff (∀ text ∈ session.loads.superseded, ∀ m ∈ mailsOf text, m.id = id)
      (by rw [Session.Exact, h])

theorem leaves_eq_effect {session : Session} (exact : session.Exact) (mails : List Mail) :
    session.leaves mails = session.effect mails := by
  rw [Session.Exact] at exact
  rw [Session.leaves, Session.effect]
  split
  · rfl
  · rename_i id job
    rw [job] at exact
    have nothing : without id (session.loads.superseded.flatMap mailsOf) = [] := by
      refine without_eq_nil.mpr fun m mem => ?_
      obtain ⟨text, again, there⟩ := List.mem_flatMap.mp mem
      exact exact text again m there
    rw [without_append, nothing, List.nil_append]

def Phase.ended : Phase → Bool
  | .done _ _ => true
  | _ => false

section Order
variable {ι : Type} [DecidableEq ι] {s s' : System ι} {who : ι} {session : Session}
  {mails : List Mail} {order : List ι} {m : Mail}

/-- The mail was there, or one of the sessions wrote it. -/
def Made (mails : List Mail) (s : System ι) (order : List ι) (m : Mail) : Prop :=
  m ∈ mails ∨ ∃ who ∈ order, ∃ mail, (s.session who).phase.job = .write mail ∧ m = mail.shown

/-- The sessions in the list took effect on the mails, and no other did; a mail whose id none of
them removes is there. -/
structure InOrder (mails : List Mail) (s : System ι) (order : List ι) : Prop where
  once : order.Nodup
  ended : ∀ who ∈ order, (s.session who).phase.ended = true
  returned : ∀ who job, (s.session who).phase = .done true job → who ∈ order
  kept : ∀ m, Made mails s order m → (∀ who ∈ order, (s.session who).phase.job ≠ .del m.id) →
    m ∈ mailsOf s.mailbox

/-- The mailbox is what the sessions make of the mails in this order. -/
def Result (mails : List Mail) (s : System ι) (order : List ι) : Prop :=
  mailsOf s.mailbox = order.foldl (fun mails who => (s.session who).effect mails) mails

/-- A removal that takes effect is exact. -/
def RemovesExactly (s : System ι) (e : ι × Act) : Prop :=
  TakesEffect s e.1 e.2 → (s.session e.1).Exact

/-- No session has done anything yet. -/
def Waiting (s : System ι) : Prop := ∀ who, ∃ fd usr job, s.session who = ⟨.idle fd usr job, {}⟩

omit [DecidableEq ι] in
theorem inOrder_start (waiting : Waiting s) : InOrder (mailsOf s.mailbox) s [] where
  once := List.nodup_nil
  ended := nofun
  returned who job done := by
    obtain ⟨fd, usr, job', same⟩ := waiting who
    rw [same] at done
    cases done
  kept m made _ := by
    rcases made with there | ⟨who, mem, -⟩
    · exact there
    · cases mem

theorem set_before (before : who ∉ order) {other : ι} (mem : other ∈ order) :
    (s.set who session).session other = s.session other :=
  set_other s (fun same => before (same.subst mem)) session

theorem made_set (before : who ∉ order) :
    Made mails (s.set who session) order m ↔ Made mails s order m := by
  refine or_congr_right (exists_congr fun other => and_congr_right fun mem => ?_)
  rw [set_before before mem]

/-- A session that takes its turn does not change what those before it did. -/
theorem foldl_set (before : who ∉ order) (mails : List Mail) :
    order.foldl (fun mails who' => ((s.set who session).session who').effect mails) mails =
      order.foldl (fun mails who' => (s.session who').effect mails) mails := by
  refine List.foldl_ext _ _ _ fun mails other mem => ?_
  rw [set_before before mem]

/-- A turn without effect. -/
theorem InOrder.set (inOrder : InOrder mails s order) (before : who ∉ order)
    (unreturned : ∀ job, session.phase ≠ .done true job) : InOrder mails (s.set who session) order := by
  constructor
  · exact inOrder.once
  · intro other mem
    rw [set_before before mem]
    exact inOrder.ended other mem
  · intro other job done
    by_cases same : other = who
    · subst same
      rw [set_self] at done
      exact absurd done (unreturned job)
    · rw [set_other s same] at done
      exact inOrder.returned other job done
  · intro m made unremoved
    refine inOrder.kept m ((made_set before).mp made) fun other mem => ?_
    have still := unremoved other mem
    rw [set_before before mem] at still
    exact still

theorem Result.set (result : Result mails s order) (before : who ∉ order) :
    Result mails (s.set who session) order := by
  rw [Result, foldl_set before]
  exact result

theorem mem_leaves_of_mem (mem : m ∈ mails) (unremoved : session.phase.job ≠ .del m.id) :
    m ∈ session.leaves mails := by
  rw [Session.leaves]
  split
  · exact List.mem_append_left _ mem
  · rename_i id job
    refine List.mem_filter.mpr ⟨List.mem_append_right _ mem, ?_⟩
    rw [decide_eq_true_eq]
    intro same
    exact unremoved (same ▸ job)

theorem mem_leaves_self {mail : Mail} (job : session.phase.job = .write mail) :
    mail.shown ∈ session.leaves mails := by
  rw [Session.leaves, job]
  exact List.mem_append_right _ (List.mem_singleton_self _)

/-- A turn with effect is the last so far. -/
theorem InOrder.append (inOrder : InOrder mails s order) (before : who ∉ order)
    (ends : session.phase.ended = true) {post : Str}
    (stored : mailsOf post = session.leaves (mailsOf s.mailbox)) :
    InOrder mails ({ s with mailbox := post }.set who session) (order ++ [who]) := by
  constructor
  · exact List.nodup_append.mpr ⟨inOrder.once, List.nodup_singleton who, by
      intro other mem last same only
      obtain rfl := List.mem_singleton.mp same
      exact before (only ▸ mem)⟩
  · intro other mem
    by_cases same : other = who
    · subst same
      rw [set_self]
      exact ends
    · rw [set_other _ same]
      rcases List.mem_append.mp mem with early | last
      · exact inOrder.ended other early
      · exact absurd (List.mem_singleton.mp last) same
  · intro other job done
    by_cases same : other = who
    · subst same
      exact List.mem_append_right _ (List.mem_singleton_self _)
    · rw [set_other _ same] at done
      exact List.mem_append_left _ (inOrder.returned other job done)
  · intro m made unremoved
    change m ∈ mailsOf post
    rw [stored]
    obtain ⟨early, last⟩ := List.forall_mem_append.mp unremoved
    have here := last who (List.mem_singleton_self who)
    rw [set_self] at here
    have still : ∀ other ∈ order, (s.session other).phase.job ≠ .del m.id := by
      intro other mem
      have kept := early other mem
      rw [set_before before mem] at kept
      exact kept
    rcases made with there | ⟨other, mem, mail, job, same⟩
    · exact mem_leaves_of_mem (inOrder.kept m (.inl there) still) here
    · rcases List.mem_append.mp mem with mem | mem
      · rw [set_before before mem] at job
        exact mem_leaves_of_mem (inOrder.kept m (.inr ⟨other, mem, mail, job, same⟩) still) here
      · obtain rfl := List.mem_singleton.mp mem
        rw [set_self] at job
        rw [same]
        exact mem_leaves_self job

theorem Result.append (result : Result mails s order) (before : who ∉ order) {post : Str}
    (stored : mailsOf post = session.effect (mailsOf s.mailbox)) :
    Result mails ({ s with mailbox := post }.set who session) (order ++ [who]) := by
  rw [Result, List.foldl_append, foldl_set before, List.foldl_cons, List.foldl_nil, set_self]
  change mailsOf post = _
  rw [stored, result]

theorem ended_answered (box : MBox) (job : Job) {status : KvState}
    (answer : status = .finished ∨ status = .linkError) :
    (Phase.answered box job status).ended = true := by
  rcases answer with rfl | rfl
  · rfl
  · rfl

omit [DecidableEq ι] in
/-- The text that a session puts holds the mails that it is to leave. -/
theorem mailsOf_post (sound : Sound s) {box : MBox} {job : Job} {post : Str}
    (place : (s.session who).phase = .put box job post) (same : s.mailbox = box.text)
    (status : KvState) : mailsOf post = Session.leaves ⟨.answered box job status, (s.session who).loads⟩
      (mailsOf s.mailbox) := by
  obtain ⟨jobOk, boxOk, -, rfl⟩ := sessionOk_at sound place
  rw [Session.leaves, job_answered, same]
  cases job with
  | write mail => exact ((same ▸ sound.mailbox).append jobOk.1 jobOk.2).2
  | del id =>
    have good : ∀ m ∈ without id box.mails, (Written m ∧ Clean m) ∧ m.shown = m := by
      intro m mem
      have held := List.mem_of_mem_filter mem
      rw [boxOk.mails] at held
      obtain ⟨text, loaded, there⟩ := List.mem_flatMap.mp held
      exact (boxOk.wellFormed text loaded).mails.1 m there
    have printed := mailsOf_print fun m mem => (good m mem).1
    rw [List.map_congr_left fun m mem => (good m mem).2, List.map_id'] at printed
    change mailsOf ((without id box.mails).flatMap Mail.toLocalString) = without id _
    rw [printed, mails_of_boxOk boxOk]

/-! What the mailbox holds -/

/-- No mail is made up, neither in the mailbox nor in what a session has read. -/
structure Genuine (mails : List Mail) (s : System ι) (order : List ι) : Prop where
  mailbox : ∀ m ∈ mailsOf s.mailbox, Made mails s order m
  read : ∀ who, ∀ text ∈ (s.session who).loads.superseded ++ (s.session who).loads.current.toList,
    ∀ m ∈ mailsOf text, Made mails s order m

omit [DecidableEq ι] in
theorem genuine_start (waiting : Waiting s) : Genuine (mailsOf s.mailbox) s [] where
  mailbox m mem := .inl mem
  read who text mem := by
    obtain ⟨fd, usr, job, same⟩ := waiting who
    rw [same] at mem
    cases mem

/-- A turn without effect, after which the session has read genuine mails. -/
theorem Genuine.set (genuine : Genuine mails s order) (before : who ∉ order)
    (read : ∀ text ∈ session.loads.superseded ++ session.loads.current.toList, ∀ m ∈ mailsOf text,
      Made mails s order m) : Genuine mails (s.set who session) order := by
  constructor
  · intro m mem
    exact (made_set before).mpr (genuine.mailbox m mem)
  · intro other text mem m there
    refine (made_set before).mpr ?_
    by_cases same : other = who
    · subst same
      rw [set_self] at mem
      exact read text mem m there
    · rw [set_other s same] at mem
      exact genuine.read other text mem m there

theorem Made.append {post : Str} (made : Made mails s order m) (before : who ∉ order) :
    Made mails ({ s with mailbox := post }.set who session) (order ++ [who]) m := by
  have made' : Made mails (s.set who session) order m := (made_set before).mpr made
  rcases made' with there | ⟨other, mem, written⟩
  · exact .inl there
  · exact .inr ⟨other, List.mem_append_left _ mem, written⟩

/-- What is stored was there, was read before, or is the mail of the session. -/
theorem mem_leaves (mem : m ∈ session.leaves mails) :
    m ∈ mails ∨ (∃ text ∈ session.loads.superseded, m ∈ mailsOf text) ∨
      ∃ mail, session.phase.job = .write mail ∧ m = mail.shown := by
  rw [Session.leaves] at mem
  split at mem
  · rename_i mail job
    rcases List.mem_append.mp mem with there | new
    · exact .inl there
    · exact .inr (.inr ⟨mail, job, List.mem_singleton.mp new⟩)
  · rcases List.mem_append.mp (List.mem_of_mem_filter mem) with again | there
    · exact .inr (.inl (List.mem_flatMap.mp again))
    · exact .inl there

/-- A turn with effect. -/
theorem Genuine.append (genuine : Genuine mails s order) (before : who ∉ order) {post : Str}
    (loads : session.loads = (s.session who).loads)
    (stored : mailsOf post = session.leaves (mailsOf s.mailbox)) :
    Genuine mails ({ s with mailbox := post }.set who session) (order ++ [who]) := by
  constructor
  · intro m mem
    change m ∈ mailsOf post at mem
    rw [stored] at mem
    rcases mem_leaves mem with there | ⟨text, again, there⟩ | ⟨mail, job, new⟩
    · exact (genuine.mailbox m there).append before
    · rw [loads] at again
      exact (genuine.read who text (List.mem_append_left _ again) m there).append before
    · refine .inr ⟨who, List.mem_append_right _ (List.mem_singleton_self who), mail, ?_, new⟩
      rw [set_self]
      exact job
  · intro other text mem m there
    refine Made.append ?_ before
    by_cases same : other = who
    · subst same
      rw [set_self, loads] at mem
      exact genuine.read other text mem m there
    · rw [set_other _ same] at mem
      exact genuine.read other text mem m there

/-- What a session has read after one more GETS. -/
theorem read_reload {mailbox text : Str} {act : Act} {got : Got} {loads : Loads}
    (found : gets mailbox act = some got)
    (mem : text ∈ (loads.reload got).superseded ++ (loads.reload got).current.toList) :
    text = mailbox ∨ text ∈ loads.superseded ++ loads.current.toList := by
  rw [Loads.reload] at mem
  split at mem
  · exact .inr mem
  · rcases List.mem_append.mp mem with old | new
    · exact .inr old
    · split at new
      · rename_i good
        have value := (gets_some found).resolve_right fun bad => good.elim bad.2.1 bad.2.2
        rw [value.1] at new
        exact .inl (List.mem_singleton.mp new)
      · cases new

/-- Where GETS fails the session has read nothing, and otherwise the mailbox. -/
theorem read_open {mailbox text : Str} {act : Act} {got : Got} (found : gets mailbox act = some got)
    (mem : text ∈ (Loads.open got).superseded ++ (Loads.open got).current.toList) :
    text = mailbox ∨ text = [] := by
  obtain rfl := List.mem_singleton.mp mem
  rcases gets_some found with ⟨value, -⟩ | ⟨value, -⟩
  · exact .inl value
  · exact .inr value

omit [DecidableEq ι] in
theorem running_of {phase : Phase} (place : (s.session who).phase = phase)
    (running : phase.ended = false) : (s.session who).phase.ended = false := place ▸ running

omit [DecidableEq ι] in
theorem InOrder.not_mem (inOrder : InOrder mails s order)
    (running : (s.session who).phase.ended = false) : who ∉ order := by
  intro mem
  rw [inOrder.ended who mem] at running
  cases running

omit [DecidableEq ι] in
/-- A removal that takes effect on the mailbox is exact where its answer leaves it exact. -/
theorem exact_answered {act : Act} (exact : RemovesExactly s (who, act)) {box : MBox} {job : Job}
    {post : Str} (place : (s.session who).phase = .put box job post) (same : s.mailbox = box.text)
    (answer : act = .cput ∨ act = .lost) (status : KvState) :
    Session.Exact ⟨.answered box job status, (s.session who).loads⟩ := by
  have before := exact ⟨box, job, post, place, same, answer⟩
  rw [Session.Exact, place] at before
  rw [Session.Exact, job_answered]
  exact before

/-- One turn of one session. -/
theorem inOrder_step {act : Act} (sound : Sound s) (inOrder : InOrder mails s order)
    (genuine : Genuine mails s order) (h : step s (who, act) = some s') :
    ∃ order', InOrder mails s' order' ∧ Genuine mails s' order' ∧
      (RemovesExactly s (who, act) → Result mails s order → Result mails s' order') := by
  cases stepped h with
  | opened place found next =>
    have before := inOrder.not_mem (running_of place rfl)
    obtain ⟨r, -, rfl⟩ := Option.map_eq_some_iff.mp next
    refine ⟨order, inOrder.set before fun job done => ?_, genuine.set before fun text mem m there => ?_,
      fun _ result => result.set before⟩
    · dsimp only at done
      split at done
      · cases done
      · cases done
    · rcases read_open found mem with rfl | rfl
      · exact genuine.mailbox m there
      · rw [mailsOf_nil] at there
        cases there
  | reloaded place found next =>
    have before := inOrder.not_mem (running_of place rfl)
    obtain ⟨r, -, rfl⟩ := Option.map_eq_some_iff.mp next
    refine ⟨order, inOrder.set before (fun job done => ?_), genuine.set before fun text mem m there => ?_,
      fun _ result => result.set before⟩
    · cases done
    · rcases read_reload found mem with rfl | old
      · exact genuine.mailbox m there
      · exact genuine.read who text old m there
  | stored place same answer =>
    rename_i box job post status
    have before := inOrder.not_mem (running_of place rfl)
    have ends := ended_answered box job (answer.imp And.right And.right)
    have left := mailsOf_post sound place same status
    refine ⟨order ++ [who], inOrder.append before ends left, genuine.append before rfl left,
      fun exact result => result.append before ?_⟩
    rw [left, leaves_eq_effect]
    exact exact_answered exact place same (answer.imp And.left And.left) status
  | kept place refused other =>
    have before := inOrder.not_mem (running_of place rfl)
    refine ⟨order, inOrder.set before (fun job done => ?_), genuine.set before (genuine.read who),
      fun _ result => result.set before⟩
    unfold Phase.answered at done
    rw [if_neg refused] at done
    split at done
    · cases done
    · cases done

/-- In every run the sessions take effect in some order, which leads to the mailbox where the
removals are exact. -/
theorem inOrder_run {events : List (ι × Act)} (sound : Sound s) (inOrder : InOrder mails s order)
    (genuine : Genuine mails s order) (ran : run step s events = some s') :
    Sound s' ∧ ∃ order', InOrder mails s' order' ∧ Genuine mails s' order' ∧
      (Along step RemovesExactly s events → Result mails s order → Result mails s' order') := by
  induction events generalizing s order with
  | nil =>
    cases ran
    exact ⟨sound, order, inOrder, genuine, fun _ result => result⟩
  | cons e events ih =>
    obtain ⟨t, first, rest⟩ := run_cons_eq_some.mp ran
    obtain ⟨who, act⟩ := e
    obtain ⟨order₁, inOrder₁, genuine₁, result₁⟩ := inOrder_step sound inOrder genuine first
    obtain ⟨sound', order', inOrder', genuine', result'⟩ :=
      ih (sound_step sound first) inOrder₁ genuine₁ rest
    refine ⟨sound', order', inOrder', genuine', fun along result => ?_⟩
    exact result' (along.2 t first) (result₁ along.1 result)

end Order

end Mailbox
