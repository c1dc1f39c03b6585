import PennCloud.Mailbox
import Mathlib.Data.List.Induction

/-!
# SMTP sessions

`smtp_worker` of `smtp.cpp`, one line of the session after the other. One mail
object serves all transactions of a session and is cleared between them, all but
its recipients.
-/

namespace Smtp

open Text Pattern Mailbox

/-- The mail of the SMTP server, which also has its recipients. -/
structure Letter extends Mail where
  recipients : List Str := []
  deriving DecidableEq, Repr

/-- `clear`, which leaves the recipients. -/
def Letter.clear (m : Letter) : Letter := { m with toMail := m.toMail.clear }

inductive State where
  | Init
  | From
  | To
  | Data
  deriving DecidableEq, Repr

structure Worker where
  state : State := .Init
  mail : Letter := { id := 0, usr := [], time := [], text := [] }
  deriving DecidableEq, Repr

/-- What a line finds: the time, which recipients have a backend that can be reached and a mailbox
that can be opened, and the id that `MBox::write` chooses in it. -/
structure Surroundings where
  now : Str
  reach : Str → Bool
  newId : Str → Nat

/-- `MAIL FROM:<.+@.+>` -/
def fromRegex : List Item :=
  litIcase "MAIL FROM:<".toList ++ ([.run 1 dot] ++ (litIcase "@".toList ++ ([.run 1 dot] ++
    litIcase ">".toList)))

/-- `RCPT TO:<.+@.+>` -/
def toRegex : List Item :=
  litIcase "RCPT TO:<".toList ++ ([.run 1 dot] ++ (litIcase "@".toList ++ ([.run 1 dot] ++
    litIcase ">".toList)))

/-- `RCPT TO:<.+@localhost>` -/
def localRegex : List Item :=
  litIcase "RCPT TO:<".toList ++ ([.run 1 dot] ++ litIcase "@localhost>".toList)

def senderOf (line : Str) : Str := (line.drop 11).take (line.length - 12)

def recipientOf (line : Str) : Str := (line.drop 9).take (line.length - 20)

/-- The mails written to the mailboxes at the final dot. -/
def deliver (env : Surroundings) (m : Letter) : List (Str × Mail) :=
  (m.recipients.filter env.reach).map fun recipient =>
    (recipient, { m.toMail with id := env.newId recipient })

/-- What becomes of a line: the session goes on, with the code that was sent and the mails that
were delivered, or the connection is closed, or an exception ends the program. -/
inductive Turn where
  | go (w : Worker) (code : Option Nat) (delivered : Option (List (Str × Mail)))
  | close (code : Nat)
  | throws

def dataLine (env : Surroundings) (w : Worker) (line : Str) : Turn :=
  if line = ".".toList then
    let mail := { w.mail with time := env.now }
    .go { state := .Init, mail := mail.clear } (some 250) (some (deliver env mail))
  else .go { w with mail := { w.mail with text := w.mail.text ++ (line ++ ['\n']) } } none none

/-- The body of the loop of `smtp_worker`. A `HELO` without a fifth character is cut out of range. -/
def smtpTurn (env : Surroundings) (w : Worker) (line : Str) : Turn :=
  if w.state = .Data then dataLine env w line
  else
    let command := line.take 4
    if command = "HELO".toList then
      if 5 ≤ line.length then .go w (some 250) none else .throws
    else if command = "MAIL".toList then
      if w.state ≠ .Init then .go w (some 503) none
      else if (matchWhole fromRegex line).isSome then
        .go { state := .From, mail := { w.mail with usr := senderOf line } } (some 250) none
      else .go w (some 501) none
    else if command = "RCPT".toList then
      if w.state ≠ .From ∧ w.state ≠ .To then .go w (some 503) none
      else if (matchWhole toRegex line).isSome then
        if (matchWhole localRegex line).isSome then
          .go { state := .To,
                mail := { w.mail with recipients := w.mail.recipients ++ [recipientOf line] } }
            (some 250) none
        else .go w (some 550) none
      else .go w (some 501) none
    else if command = "DATA".toList then
      if w.state ≠ .To then .go w (some 503) none
      else .go { w with state := .Data } (some 354) none
    else if command = "QUIT".toList then .close 221
    else if command = "RSET".toList then .go { state := .Init, mail := w.mail.clear } (some 250) none
    else if command = "NOOP".toList then .go w (some 250) none
    else .go w (some 500) none

/-- A line of the session, the code that answered it and the mails it delivered. -/
structure Exchange where
  line : Str
  code : Option Nat
  delivered : Option (List (Str × Mail)) := none
  deriving DecidableEq

/-- The session, up to the end of its lines or of its connection. -/
def work : Worker → List (Str × Surroundings) → List Exchange
  | _, [] => []
  | w, (line, env) :: rest =>
    match smtpTurn env w line with
    | .go w code delivered => ⟨line, code, delivered⟩ :: work w rest
    | .close code => [⟨line, some code, none⟩]
    | .throws => []

/-! ### Transactions -/

def AcceptedMail (x : Exchange) : Prop := x.code = some 250 ∧ x.line.take 4 = "MAIL".toList

def AcceptedRcpt (x : Exchange) : Prop := x.code = some 250 ∧ x.line.take 4 = "RCPT".toList

instance : DecidablePred AcceptedMail := fun _ => inferInstanceAs (Decidable (_ ∧ _))

instance : DecidablePred AcceptedRcpt := fun _ => inferInstanceAs (Decidable (_ ∧ _))

/-- What a client has given since its last accepted MAIL. -/
structure Transaction where
  sender : Str := []
  recipients : List Str := []
  lines : List Str := []
  deriving DecidableEq

/-- Only the lines after a DATA go without a code. -/
def Transaction.after (t : Transaction) (x : Exchange) : Transaction :=
  if x.code = none then { t with lines := t.lines ++ [x.line] }
  else if x.code = some 354 then { t with lines := [] }
  else if AcceptedMail x then { sender := senderOf x.line }
  else if AcceptedRcpt x then { t with recipients := t.recipients ++ [recipientOf x.line] }
  else t

def transaction (trace : List Exchange) : Transaction := trace.foldl Transaction.after {}

/-- The recipients of the whole session. -/
def acceptedRecipients (trace : List Exchange) : List Str :=
  (trace.filter fun x => AcceptedRcpt x).map fun x => recipientOf x.line

/-- The mails are those of the transaction that the trace has come to. -/
def Isolated (trace : List Exchange) (mails : List (Str × Mail)) : Prop :=
  (∀ mailbox, mailbox ∈ mails.map Prod.fst ↔ mailbox ∈ (transaction trace).recipients) ∧
    ∀ m ∈ mails, m.2.usr = (transaction trace).sender ∧
      m.2.text = (transaction trace).lines.flatMap fun line => line ++ ['\n']

/-- Every recipient that the session has named is one of the transaction. -/
def NothingLeft (trace : List Exchange) : Prop :=
  ∀ recipient ∈ acceptedRecipients trace, recipient ∈ (transaction trace).recipients

instance (trace : List Exchange) : Decidable (NothingLeft trace) :=
  inferInstanceAs (Decidable (∀ recipient ∈ _, _))

theorem transaction_concat (trace : List Exchange) (x : Exchange) :
    transaction (trace ++ [x]) = (transaction trace).after x := by
  rw [transaction, List.foldl_append]
  rfl

theorem acceptedRecipients_concat (trace : List Exchange) (x : Exchange) :
    acceptedRecipients (trace ++ [x]) =
      acceptedRecipients trace ++ if AcceptedRcpt x then [recipientOf x.line] else [] := by
  rw [acceptedRecipients, List.filter_append, List.map_append]
  by_cases accepted : AcceptedRcpt x <;> simp [acceptedRecipients, accepted]

/-- The recipients of the transaction are among those of the session. -/
theorem recipients_subset (trace : List Exchange) :
    (transaction trace).recipients ⊆ acceptedRecipients trace := by
  induction trace using List.reverseRecOn with
  | nil => exact List.nil_subset _
  | append_singleton trace x ih =>
    rw [transaction_concat, acceptedRecipients_concat, Transaction.after]
    split
    · exact List.Subset.trans ih (List.subset_append_left _ _)
    split
    · exact List.Subset.trans ih (List.subset_append_left _ _)
    split
    · exact List.nil_subset _
    split
    · exact List.append_subset.mpr ⟨List.Subset.trans ih (List.subset_append_left _ _),
        List.subset_append_right _ _⟩
    · rw [List.append_nil]
      exact ih

/-! ### What a line does -/

/-- The ways a session goes on. -/
inductive Went (env : Surroundings) (w : Worker) (line : Str) :
    Worker → Option Nat → Option (List (Str × Mail)) → Prop where
  | dot (state : w.state = .Data) (dot : line = ".".toList) :
      Went env w line ⟨.Init, { w.mail with time := env.now }.clear⟩ (some 250)
        (some (deliver env { w.mail with time := env.now }))
  | text (state : w.state = .Data) :
      Went env w line { w with mail := { w.mail with text := w.mail.text ++ (line ++ ['\n']) } }
        none none
  | mail (state : w.state = .Init) (command : line.take 4 = "MAIL".toList) :
      Went env w line ⟨.From, { w.mail with usr := senderOf line }⟩ (some 250) none
  | rcpt (state : w.state = .From ∨ w.state = .To) (command : line.take 4 = "RCPT".toList) :
      Went env w line
        ⟨.To, { w.mail with recipients := w.mail.recipients ++ [recipientOf line] }⟩ (some 250) none
  | data (state : w.state = .To) : Went env w line { w with state := .Data } (some 354) none
  | rset (state : w.state ≠ .Data) (command : line.take 4 = "RSET".toList) :
      Went env w line ⟨.Init, w.mail.clear⟩ (some 250) none
  | kept (code : Nat) (state : w.state ≠ .Data) (other : code ≠ 354)
      (refused : code = 250 → line.take 4 ≠ "MAIL".toList ∧ line.take 4 ≠ "RCPT".toList) :
      Went env w line w (some code) none

theorem went_of_turn {env : Surroundings} {w w' : Worker} {line : Str} {code : Option Nat}
    {delivered : Option (List (Str × Mail))} (h : smtpTurn env w line = .go w' code delivered) :
    Went env w line w' code delivered := by
  unfold smtpTurn at h
  split at h
  · rename_i state
    unfold dataLine at h
    split at h
    · cases h
      exact .dot state ‹_›
    · cases h
      exact .text state
  · rename_i state
    have refuse : ∀ {other : Nat}, other ≠ 250 → other ≠ 354 →
        Turn.go w (some other) none = .go w' code delivered → Went env w line w' code delivered := by
      intro other no no' same
      cases same
      exact .kept other state no' fun yes => absurd yes no
    simp only at h
    split at h
    · rename_i helo
      split at h
      · cases h
        exact .kept 250 state (by decide) fun _ => by rw [helo]; decide
      · cases h
    split at h
    · rename_i command
      split at h
      · exact refuse (by decide) (by decide) h
      · rename_i init
        split at h
        · cases h
          exact .mail (not_not.mp init) command
        · exact refuse (by decide) (by decide) h
    split at h
    · rename_i command
      split at h
      · exact refuse (by decide) (by decide) h
      · rename_i ready
        split at h
        · split at h
          · cases h
            have given : w.state = .From ∨ w.state = .To := by
              by_contra other
              exact ready (not_or.mp other)
            exact .rcpt given command
          · exact refuse (by decide) (by decide) h
        · exact refuse (by decide) (by decide) h
    split at h
    · split at h
      · exact refuse (by decide) (by decide) h
      · rename_i ready
        cases h
        exact .data (not_not.mp ready)
    split at h
    · cases h
    split at h
    · rename_i command
      cases h
      exact .rset state command
    split at h
    · rename_i noMail noRcpt _ _ _ _
      cases h
      exact .kept 250 state (by decide) fun _ => ⟨noMail, noRcpt⟩
    · exact refuse (by decide) (by decide) h

/-! ### The invariant of a session -/

/-- The mail object after a trace: it has the recipients of the whole session, and the sender and
the text of the transaction. -/
structure Tracks (trace : List Exchange) (w : Worker) : Prop where
  recipients : w.mail.recipients = acceptedRecipients trace
  sender : w.state ≠ .Init → w.mail.usr = (transaction trace).sender
  idle : w.state ≠ .Data → w.mail.text = []
  body : w.state = .Data →
    w.mail.text = (transaction trace).lines.flatMap fun line => line ++ ['\n']

theorem tracks_start : Tracks [] {} where
  recipients := rfl
  sender _ := rfl
  idle _ := rfl
  body _ := rfl

/-- A line with a code that is no accepted command of a transaction. -/
theorem tracks_other {trace : List Exchange} {x : Exchange} {w : Worker} (code : x.code ≠ none)
    (noData : x.code ≠ some 354) (noMail : ¬ AcceptedMail x) (noRcpt : ¬ AcceptedRcpt x)
    (tracks : Tracks trace w) : Tracks (trace ++ [x]) w := by
  have same : transaction (trace ++ [x]) = transaction trace := by
    rw [transaction_concat, Transaction.after, if_neg code, if_neg noData, if_neg noMail,
      if_neg noRcpt]
  have none : acceptedRecipients (trace ++ [x]) = acceptedRecipients trace := by
    rw [acceptedRecipients_concat, if_neg noRcpt, List.append_nil]
  exact ⟨none ▸ tracks.recipients, same ▸ tracks.sender, tracks.idle, same ▸ tracks.body⟩

/-- The mail is cleared between transactions. -/
theorem tracks_clear {trace : List Exchange} {m : Letter}
    (recipients : m.recipients = acceptedRecipients trace) : Tracks trace ⟨.Init, m.clear⟩ where
  recipients := recipients
  sender other := absurd rfl other
  idle _ := rfl
  body state := nomatch state

theorem tracks_went {env : Surroundings} {trace : List Exchange} {w w' : Worker} {line : Str}
    {code : Option Nat} {delivered : Option (List (Str × Mail))} (tracks : Tracks trace w)
    (went : Went env w line w' code delivered) :
    Tracks (trace ++ [⟨line, code, delivered⟩]) w' := by
  have named (word : Str) (x : Exchange) (other : word ≠ "RCPT".toList)
      (command : x.line.take 4 = word) : ¬ AcceptedRcpt x :=
    fun accepted => other (command.symm.trans accepted.2)
  have started (word : Str) (x : Exchange) (other : word ≠ "MAIL".toList)
      (command : x.line.take 4 = word) : ¬ AcceptedMail x :=
    fun accepted => other (command.symm.trans accepted.2)
  cases went with
  | dot state dot =>
    have command : line.take 4 = ".".toList := by rw [dot]; decide
    refine tracks_other (by simp) (by simp) (started _ _ (by decide) command)
      (named _ _ (by decide) command) (tracks_clear tracks.recipients)
  | text state =>
    have later : transaction (trace ++ [⟨line, none, none⟩]) =
        { transaction trace with lines := (transaction trace).lines ++ [line] } := by
      rw [transaction_concat]
      exact if_pos rfl
    have noRcpt : ¬ AcceptedRcpt ⟨line, none, none⟩ := fun accepted => nomatch accepted.1
    refine ⟨?_, fun other => ?_, fun other => absurd state other, fun _ => ?_⟩
    · rw [acceptedRecipients_concat, if_neg noRcpt, List.append_nil]
      exact tracks.recipients
    · rw [later]
      exact tracks.sender other
    · rw [later, List.flatMap_append, ← tracks.body state]
      simp
  | mail state command =>
    have accepted : AcceptedMail ⟨line, some 250, none⟩ := ⟨rfl, command⟩
    have later : transaction (trace ++ [⟨line, some 250, none⟩]) = { sender := senderOf line } := by
      rw [transaction_concat, Transaction.after, if_neg (by simp), if_neg (by simp), if_pos accepted]
    refine ⟨?_, fun _ => ?_, fun _ => ?_, fun other => nomatch other⟩
    · rw [acceptedRecipients_concat, if_neg (named _ _ (by decide) command), List.append_nil]
      exact tracks.recipients
    · rw [later]
    · exact tracks.idle (by rw [state]; decide)
  | rcpt state command =>
    have accepted : AcceptedRcpt ⟨line, some 250, none⟩ := ⟨rfl, command⟩
    have later : transaction (trace ++ [⟨line, some 250, none⟩]) = { transaction trace with
        recipients := (transaction trace).recipients ++ [recipientOf line] } := by
      rw [transaction_concat, Transaction.after, if_neg (by simp), if_neg (by simp),
        if_neg (started _ _ (by decide) command), if_pos accepted]
    refine ⟨?_, fun _ => ?_, fun _ => ?_, fun other => nomatch other⟩
    · rw [acceptedRecipients_concat, if_pos accepted, ← tracks.recipients]
    · rw [later]
      exact tracks.sender (by rcases state with h | h <;> rw [h] <;> decide)
    · exact tracks.idle (by rcases state with h | h <;> rw [h] <;> decide)
  | data state =>
    have later : transaction (trace ++ [⟨line, some 354, none⟩]) =
        { transaction trace with lines := [] } := by
      rw [transaction_concat, Transaction.after, if_neg (by simp), if_pos rfl]
    have noRcpt : ¬ AcceptedRcpt ⟨line, some 354, none⟩ := fun accepted => nomatch accepted.1
    refine ⟨?_, fun _ => ?_, fun other => absurd rfl other, fun _ => ?_⟩
    · rw [acceptedRecipients_concat, if_neg noRcpt, List.append_nil]
      exact tracks.recipients
    · rw [later]
      exact tracks.sender (by rw [state]; decide)
    · rw [later]
      exact tracks.idle (by rw [state]; decide)
  | rset state command =>
    exact tracks_other (by simp) (by simp) (started _ _ (by decide) command)
      (named _ _ (by decide) command) (tracks_clear tracks.recipients)
  | kept code state other refused =>
    refine tracks_other (by simp) (by simpa using other) ?_ ?_ tracks
    · exact fun accepted => (refused (Option.some.inj accepted.1)).1 accepted.2
    · exact fun accepted => (refused (Option.some.inj accepted.1)).2 accepted.2

/-! ### Deliveries -/

theorem deliver_all {env : Surroundings} (reach : ∀ r, env.reach r = true) (m : Letter) :
    deliver env m = m.recipients.map fun recipient =>
      (recipient, { m.toMail with id := env.newId recipient }) := by
  rw [deliver, List.filter_eq_self.mpr fun r _ => reach r]

/-- What is delivered goes to all recipients of the session, with the sender and the text of the
transaction. -/
theorem delivered_of_tracks {env : Surroundings} (reach : ∀ r, env.reach r = true)
    {trace : List Exchange} {w w' : Worker} {line : Str} {code : Option Nat}
    {mails : List (Str × Mail)} (tracks : Tracks trace w)
    (went : Went env w line w' code (some mails)) :
    mails.map Prod.fst = acceptedRecipients trace ∧
      ∀ m ∈ mails, m.2.usr = (transaction trace).sender ∧
        m.2.text = (transaction trace).lines.flatMap fun line => line ++ ['\n'] := by
  cases went with
  | dot state dot =>
    rw [deliver_all reach, ← tracks.recipients]
    refine ⟨by simp [Function.comp_def], fun m hm => ?_⟩
    obtain ⟨recipient, -, rfl⟩ := List.mem_map.mp hm
    exact ⟨tracks.sender (by rw [state]; decide), tracks.body state⟩

theorem isolated_of_work {w : Worker} {input : List (Str × Surroundings)}
    (reach : ∀ x ∈ input, ∀ r, x.2.reach r = true) {trace before after : List Exchange}
    {x : Exchange} {mails : List (Str × Mail)} (tracks : Tracks trace w)
    (session : work w input = before ++ x :: after) (delivered : x.delivered = some mails) :
    Isolated (trace ++ before) mails ↔ NothingLeft (trace ++ before) := by
  induction input generalizing w trace before with
  | nil => exact absurd session.symm (by simp [work])
  | cons first input ih =>
    obtain ⟨line, env⟩ := first
    obtain ⟨here, later⟩ := List.forall_mem_cons.mp reach
    rw [work] at session
    split at session
    · rename_i w' code delivered' turn
      have went := went_of_turn turn
      cases before with
      | nil =>
        obtain ⟨rfl, -⟩ := List.cons.inj session
        obtain rfl : delivered' = some mails := delivered
        obtain ⟨mailboxes, content⟩ := delivered_of_tracks here tracks went
        rw [List.append_nil, Isolated, mailboxes]
        constructor
        · intro isolated r hr
          exact (isolated.1 r).mp hr
        · intro none
          exact ⟨fun r => ⟨none r, fun hr => recipients_subset trace hr⟩, content⟩
      | cons y before =>
        obtain ⟨rfl, rest⟩ := List.cons.inj session
        have same := ih later (tracks_went tracks went) rest
        rwa [List.append_assoc] at same
    · cases before with
      | nil =>
        obtain ⟨rfl, -⟩ := List.cons.inj session
        cases delivered
      | cons y before =>
        have none := (List.cons.inj session).2
        exact absurd none.symm (by simp)
    · exact absurd session.symm (by simp)

/-- In every session, each time mails are delivered: they are those of the transaction if and only
if the session has named no recipient before that the transaction does not name. -/
theorem transaction_isolated_iff (input : List (Str × Surroundings))
    (reach : ∀ x ∈ input, ∀ r, x.2.reach r = true) (before after : List Exchange) (x : Exchange)
    (mails : List (Str × Mail)) (session : work {} input = before ++ x :: after)
    (delivered : x.delivered = some mails) : Isolated before mails ↔ NothingLeft before :=
  isolated_of_work reach tracks_start session delivered

/-- Every backend can be reached at noon, and every mailbox is empty. -/
def noonEverywhere : Surroundings := ⟨noon, fun _ => true, fun _ => 1⟩

def lines (session : List String) : List (Str × Surroundings) :=
  session.map fun line => (line.toList, noonEverywhere)

theorem reach_lines (session : List String) : ∀ x ∈ lines session, ∀ r, x.2.reach r = true := by
  intro x hx r
  obtain ⟨line, -, rfl⟩ := List.mem_map.mp hx
  rfl

/-- The commands of two transactions, the first one given up. -/
def resumed : List String :=
  ["MAIL FROM:<eve@x>", "RCPT TO:<bob@localhost>", "RSET", "MAIL FROM:<eve@x>",
    "RCPT TO:<al@localhost>", "DATA", "hi", "."]

def letter : Mail := ⟨1, "eve@x".toList, noon, "hi\n".toList⟩

/-- Two mails of one session, the second one to one more mailbox. -/
def twice : List String :=
  ["MAIL FROM:<eve@x>", "RCPT TO:<al@localhost>", "DATA", "hi", ".", "MAIL FROM:<bob@x>",
    "RCPT TO:<al@localhost>", "RCPT TO:<bob@localhost>", "DATA", "ho", "."]

def second : Mail := ⟨1, "bob@x".toList, noon, "ho\n".toList⟩

theorem transaction_isolated_second : Isolated ((work {} (lines twice)).take 10)
    [("al".toList, second), ("al".toList, second), ("bob".toList, second)] :=
  (transaction_isolated_iff (lines twice) (reach_lines _) _ []
    ⟨".".toList, some 250,
      some [("al".toList, second), ("al".toList, second), ("bob".toList, second)]⟩ _
    (by decide +kernel) rfl).mpr (by decide +kernel)

/-- The recipient that was given before a RSET gets the mail too. -/
theorem transaction_not_isolated : ∃ input before x mails, (∀ x ∈ input, ∀ r, x.2.reach r = true) ∧
    work {} input = before ++ [x] ∧ x.delivered = some mails ∧ ¬ Isolated before mails := by
  refine ⟨lines resumed, (work {} (lines resumed)).take 7,
    ⟨".".toList, some 250, some [("bob".toList, letter), ("al".toList, letter)]⟩,
    [("bob".toList, letter), ("al".toList, letter)], reach_lines _, by decide +kernel, rfl, ?_⟩
  intro isolated
  exact absurd ((isolated.1 "bob".toList).mp (by decide)) (by decide +kernel)

end Smtp
