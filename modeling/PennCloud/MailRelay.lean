import PennCloud.LineReader
import PennCloud.Smtp

/-!
# Mail relay

`send_remote_mail` of `relay.h` sends a mail to the SMTP server of another
domain, which may be one of this repository. The text of the mail goes out as
it is and the server takes it line by line up to a dot, so it arrives just when
no line of it is a dot and both ends agree on where its lines end.
-/

namespace MailRelay

open Text Pattern Mailbox Smtp TcpOperation LineReader PairDelimiter

def DOMAIN : Str := "pku.edu.cn".toList

/-- `to_remote_string` -/
def toRemoteString (m : Mail) : Str := opening ++ address m.usr ++ closing ++ m.time ++ m.text

def localhost : Str := "localhost".toList

def mailCommand (m : Mail) : Str :=
  "MAIL FROM:<".toList ++ (m.usr ++ ("@".toList ++ (DOMAIN ++ ">".toList)))

def rcptCommand (receiver domain : Str) : Str :=
  "RCPT TO:<".toList ++ (receiver ++ ("@".toList ++ (domain ++ ">".toList)))

def dataCommand : Str := "DATA".toList

def finalDot : Str := ".".toList

def crlf : Str := ['\r', '\n']

/-- The `commands` of `send_remote_mail`. -/
def commands (receiver domain : Str) (m : Mail) : List Str :=
  [mailCommand m ++ crlf, rcptCommand receiver domain ++ crlf, dataCommand ++ crlf,
    toRemoteString m ++ (crlf ++ (finalDot ++ crlf))]

/-- A string as the bytes that are written, and bytes as the string they are read into. -/
def bytes (s : Str) : Bytes := s.map Char.toUInt8

def chars (b : Bytes) : Str := b.map Char.ofUInt8

/-- All characters are bytes. -/
def Bytewise (s : Str) : Prop := ∀ c ∈ s, c.toNat < 256

def Unbroken (s : Str) : Prop := '\r' ∉ s ∧ '\n' ∉ s

instance : DecidablePred Bytewise := fun _ => inferInstanceAs (Decidable (∀ c ∈ _, _))

instance : DecidablePred Unbroken := fun _ => inferInstanceAs (Decidable (_ ∧ _))

/-- The lines that calls of `do_read` return, one after the other. -/
inductive LinesRead (k : Kernel) : Reader → List Bytes → Reader → Prop where
  | nil (r : Reader) : LinesRead k r [] r
  | cons {fuel : Nat} {r r' r'' : Reader} {line : Bytes} {lines : List Bytes}
      (first : doRead k fuel r = some (true, line, r')) (later : LinesRead k r' lines r'') :
      LinesRead k r (line :: lines) r''

/-- The commands as lines, those of the body among them. -/
def session (receiver : Str) (m : Mail) (body : List Str) : List Str :=
  [mailCommand m, rcptCommand receiver localhost, dataCommand] ++ body ++ [finalDot]

/-- The server reads all that was sent, answers each command, takes the lines of the body without
a code and delivers at the final dot; what it delivers has the text that was sent. -/
def Survives (k : Kernel) (receiver : Str) (m : Mail) : Prop :=
  ∃ lines body calls,
    LinesRead k ⟨bytes (commands receiver localhost m).flatten, 0⟩ lines ⟨[], calls⟩ ∧
      lines.map chars = session receiver m body ∧
      ∀ input : List (Str × Surroundings), input.map Prod.fst = session receiver m body →
        ∃ mails, work {} input =
          [⟨mailCommand m, some 250, none⟩, ⟨rcptCommand receiver localhost, some 250, none⟩,
            ⟨dataCommand, some 354, none⟩] ++ (body.map fun line => ⟨line, none, none⟩) ++
            [⟨finalDot, some 250, some mails⟩] ∧
          ∀ sent ∈ mails, sent.2.text = turned '\r' '\n' (toRemoteString m) ++ ['\n']

/-! ### Bytes and lines -/

theorem chars_bytes {s : Str} (bytewise : Bytewise s) : chars (bytes s) = s := by
  rw [chars, bytes, List.map_map]
  refine (List.map_congr_left fun c mem => ?_).trans (List.map_id s)
  have small : c.val.toNat % 256 = c.val.toNat := Nat.mod_eq_of_lt (bytewise c mem)
  refine Char.ext (UInt32.toNat_inj.mp ?_)
  exact small

theorem char_injective : Function.Injective Char.ofUInt8 := by
  intro c d same
  have value : c.toUInt32.toNat = d.toUInt32.toNat := congrArg (fun x : Char => x.val.toNat) same
  exact UInt8.toNat_inj.mp value

theorem scan_chars (gr : Bool) (b : Bytes) :
    scan '\r' '\n' gr (chars b) =
      (scan CR LF gr b).map fun cut => (chars cut.1, chars cut.2) := 
  scan_map (a := CR) (b := LF) char_injective gr b

theorem LinesRead.scanned {k : Closing} {r r' : Reader} {lines : List Bytes}
    (read : LinesRead k.toKernel r lines r') :
    Scanned '\r' '\n' (chars r.waiting) (lines.map chars) (chars r'.waiting) := by
  induction read with
  | nil => exact .nil _
  | cons first _ ih =>
    have found := (doRead_eq_true_iff k _ _ _).mp ⟨_, _, first⟩
    refine .cons ?_ ih
    rw [scan_chars, found]
    rfl

theorem linesRead_of_scanned (k : Closing) {s rest : Str} {texts : List Str}
    (scanned : Scanned '\r' '\n' s texts rest) (r : Reader) (waiting : chars r.waiting = s) :
    ∃ lines r', LinesRead k.toKernel r lines r' ∧ lines.map chars = texts ∧
      chars r'.waiting = rest := by
  induction scanned generalizing r with
  | nil => exact ⟨[], r, .nil r, rfl, waiting⟩
  | cons found _ ih =>
    rw [← waiting, scan_chars] at found
    obtain ⟨cut, was, same⟩ := Option.map_eq_some_iff.mp found
    obtain ⟨fuel, calls, ran⟩ := (doRead_eq_true_iff k r cut.1 cut.2).mpr was
    obtain ⟨lines, r', later, texts, rest⟩ := ih ⟨cut.2, calls⟩ (Prod.mk.inj same).2
    refine ⟨cut.1 :: lines, r', .cons ran later, ?_, rest⟩
    rw [List.map_cons, texts, (Prod.mk.inj same).1]

/-! ### The commands -/

theorem dot_of_unbroken {s : Str} (unbroken : Unbroken s) : ∀ c ∈ s, dot c = true := by
  intro c mem
  have noLf : c ≠ '\n' := fun same => unbroken.2 (same ▸ mem)
  have noCr : c ≠ '\r' := fun same => unbroken.1 (same ▸ mem)
  simp [dot, noLf, noCr]

theorem mailCommand_matches {m : Mail} (unbroken : Unbroken m.usr) (some : m.usr ≠ []) :
    Matches fromRegex (mailCommand m) := by
  refine matches_append.mpr ⟨_, _, rfl, matches_word _, matches_append.mpr ⟨m.usr, _, rfl,
    matches_run.mpr ⟨some, dot_of_unbroken unbroken⟩, matches_append.mpr ⟨_, _, rfl,
    matches_word _, matches_append.mpr ⟨DOMAIN, _, rfl, matches_run.mpr ⟨?_, ?_⟩,
    matches_word _⟩⟩⟩⟩
  · decide
  · decide

theorem rcptCommand_matches {receiver : Str} (unbroken : Unbroken receiver) (some : receiver ≠ []) :
    Matches toRegex (rcptCommand receiver localhost) := by
  refine matches_append.mpr ⟨_, _, rfl, matches_word _, matches_append.mpr ⟨receiver, _, rfl,
    matches_run.mpr ⟨some, dot_of_unbroken unbroken⟩, matches_append.mpr ⟨_, _, rfl,
    matches_word _, matches_append.mpr ⟨localhost, _, rfl, matches_run.mpr ⟨?_, ?_⟩,
    matches_word _⟩⟩⟩⟩
  · decide
  · decide

theorem rcptCommand_local {receiver : Str} (unbroken : Unbroken receiver) (some : receiver ≠ []) :
    Matches localRegex (rcptCommand receiver localhost) := by
  refine matches_append.mpr ⟨_, _, rfl, matches_word _, matches_append.mpr ⟨receiver, _, rfl,
    matches_run.mpr ⟨some, dot_of_unbroken unbroken⟩, matches_litIcase.mpr ?_⟩⟩
  decide

theorem recipientOf_between {front back : Str} (nine : front.length = 9) (eleven : back.length = 11)
    (receiver : Str) : recipientOf (front ++ (receiver ++ back)) = receiver := by
  have length : (front ++ (receiver ++ back)).length - 20 = receiver.length := by
    rw [List.length_append, List.length_append, nine, eleven]
    omega
  rw [recipientOf, length, List.drop_left' nine, List.take_left]

theorem recipientOf_rcptCommand (receiver : Str) :
    recipientOf (rcptCommand receiver localhost) = receiver :=
  recipientOf_between rfl (show ("@".toList ++ (localhost ++ ">".toList)).length = 11 from rfl) _

/-- The letter of a session of one mail when its text begins. -/
def begun (receiver : Str) (m : Mail) : Letter :=
  { id := 0, usr := senderOf (mailCommand m), time := [], text := [], recipients := [receiver] }

theorem turn_mail (env : Surroundings) {m : Mail} (sender : Unbroken m.usr) (some : m.usr ≠ []) :
    smtpTurn env {} (mailCommand m) =
      .go ⟨.From, { ({} : Worker).mail with usr := senderOf (mailCommand m) }⟩ (.some 250) none := by
  have command : (mailCommand m).take 4 = "MAIL".toList := rfl
  rw [smtpTurn, if_neg (by decide)]
  simp only [command]
  rw [if_neg (by decide), if_pos trivial, if_neg (not_not.mpr rfl),
    if_pos (matchWhole_isSome.mpr (mailCommand_matches sender some))]

theorem turn_rcpt (env : Surroundings) (letter : Letter) {receiver : Str}
    (unbroken : Unbroken receiver) (some : receiver ≠ []) :
    smtpTurn env ⟨.From, letter⟩ (rcptCommand receiver localhost) =
      .go ⟨.To, { letter with recipients := letter.recipients ++ [receiver] }⟩ (.some 250) none := by
  have command : (rcptCommand receiver localhost).take 4 = "RCPT".toList := rfl
  rw [smtpTurn, if_neg (show State.From ≠ .Data by decide)]
  simp only [command]
  rw [if_neg (by decide), if_neg (by decide), if_pos trivial, if_neg (fun no => no.1 rfl),
    if_pos (matchWhole_isSome.mpr (rcptCommand_matches unbroken some)),
    if_pos (matchWhole_isSome.mpr (rcptCommand_local unbroken some)), recipientOf_rcptCommand]

theorem turn_data (env : Surroundings) (letter : Letter) :
    smtpTurn env ⟨.To, letter⟩ dataCommand = .go ⟨.Data, letter⟩ (some 354) none := rfl

/-- The first three lines of a session, from a worker that has just begun. -/
theorem work_opening {receiver : Str} {m : Mail} (sender : Unbroken m.usr) (some : m.usr ≠ [])
    (unbroken : Unbroken receiver) (named : receiver ≠ []) (e₁ e₂ e₃ : Surroundings)
    (rest : List (Str × Surroundings)) :
    work {} ((mailCommand m, e₁) :: (rcptCommand receiver localhost, e₂) ::
        (dataCommand, e₃) :: rest) =
      ⟨mailCommand m, .some 250, none⟩ :: ⟨rcptCommand receiver localhost, .some 250, none⟩ ::
        ⟨dataCommand, .some 354, none⟩ :: work ⟨.Data, begun receiver m⟩ rest := by
  rw [work, turn_mail e₁ sender some]
  simp only []
  rw [work, turn_rcpt e₂ _ unbroken named]
  simp only []
  rw [work, turn_data]
  rfl

/-- The worker after lines of text. -/
def taken (w : Worker) (text : Str) : Worker :=
  { w with mail := { w.mail with text := w.mail.text ++ text } }

theorem turn_text (env : Surroundings) {w : Worker} (state : w.state = .Data) {line : Str}
    (other : line ≠ finalDot) : smtpTurn env w line = .go (taken w (line ++ ['\n'])) none none :=
  (if_pos state).trans (if_neg other)

theorem turn_finalDot (env : Surroundings) {w : Worker} (state : w.state = .Data) :
    smtpTurn env w finalDot = .go ⟨.Init, { w.mail with time := env.now }.clear⟩ (some 250)
      (some (deliver env { w.mail with time := env.now })) :=
  (if_pos state).trans (if_pos rfl)

/-- The lines of a body are taken as text. -/
theorem work_body {w : Worker} (state : w.state = .Data) {input : List (Str × Surroundings)}
    (plain : ∀ x ∈ input, x.1 ≠ finalDot) (rest : List (Str × Surroundings)) :
    work w (input ++ rest) = (input.map fun x => ⟨x.1, none, none⟩) ++
      work (taken w (input.flatMap fun x => x.1 ++ ['\n'])) rest := by
  induction input generalizing w with
  | nil =>
    rw [List.flatMap_nil, taken, List.append_nil]
    rfl
  | cons x input ih =>
    obtain ⟨other, later⟩ := List.forall_mem_cons.mp plain
    have next := ih (w := taken w (x.1 ++ ['\n'])) state later
    rw [List.cons_append, work, turn_text x.2 state other]
    simp only []
    rw [next, List.flatMap_cons, taken, taken, taken, List.append_assoc]
    rfl

theorem work_finalDot {w : Worker} (state : w.state = .Data) (env : Surroundings) :
    work w [(finalDot, env)] =
      [⟨finalDot, some 250, some (deliver env { w.mail with time := env.now })⟩] := by
  rw [work, turn_finalDot env state]
  rfl

/-- A line that gets no code while a body is taken is not the final dot. -/
theorem plain_of_work {w : Worker} (state : w.state = .Data) {input : List (Str × Surroundings)}
    {rest : List (Str × Surroundings)} {after : List Exchange}
    (trace : work w (input ++ rest) = (input.map fun x => ⟨x.1, none, none⟩) ++ after) :
    ∀ x ∈ input, x.1 ≠ finalDot := by
  induction input generalizing w with
  | nil => exact List.forall_mem_nil _
  | cons x input ih =>
    have other : x.1 ≠ finalDot := by
      intro dot
      rw [List.cons_append, work, dot, turn_finalDot x.2 state] at trace
      have code := congrArg Exchange.code (List.cons.inj trace).1
      cases code
    rw [List.cons_append, work, turn_text x.2 state other] at trace
    have later := ih (w := taken w (x.1 ++ ['\n'])) state (List.cons.inj trace).2
    exact List.forall_mem_cons.mpr ⟨other, later⟩

/-! ### The relay -/

/-- Every line of the text ends where both ends take it to end, and none is a dot. -/
def Framed (s : Str) : Prop :=
  ∀ line ∈ pieces '\r' '\n' s, Paired '\r' line ∧ line ≠ finalDot

instance : DecidablePred Framed := fun _ => inferInstanceAs (Decidable (∀ line ∈ _, _))

theorem commands_flatten (receiver : Str) (m : Mail) :
    (commands receiver localhost m).flatten =
      mailCommand m ++ '\r' :: '\n' :: (rcptCommand receiver localhost ++ '\r' :: '\n' ::
        (dataCommand ++ '\r' :: '\n' :: (toRemoteString m ++ '\r' :: '\n' ::
          (finalDot ++ ['\r', '\n'])))) := by
  simp [commands, crlf]

theorem bytewise_append {s t : Str} : Bytewise (s ++ t) ↔ Bytewise s ∧ Bytewise t :=
  List.forall_mem_append

theorem bytewise_commands {receiver : Str} {m : Mail}
    (bytewise : Bytewise (receiver ++ (m.usr ++ (m.time ++ m.text)))) :
    Bytewise (commands receiver localhost m).flatten := by
  obtain ⟨receives, rest⟩ := bytewise_append.mp bytewise
  obtain ⟨sender, rest⟩ := bytewise_append.mp rest
  obtain ⟨time, text⟩ := bytewise_append.mp rest
  have named : Bytewise (address m.usr) := by
    rw [address]
    split
    · exact sender
    · exact bytewise_append.mpr ⟨sender, by decide⟩
  have front : Bytewise (mailCommand m) :=
    bytewise_append.mpr ⟨by decide, bytewise_append.mpr ⟨sender, by decide⟩⟩
  have second : Bytewise (rcptCommand receiver localhost) :=
    bytewise_append.mpr ⟨by decide, bytewise_append.mpr ⟨receives, by decide⟩⟩
  have body : Bytewise (toRemoteString m) := bytewise_append.mpr ⟨bytewise_append.mpr
    ⟨bytewise_append.mpr ⟨bytewise_append.mpr ⟨by decide, named⟩, by decide⟩, time⟩, text⟩
  intro c mem
  obtain ⟨command, sent, mem⟩ := List.mem_flatten.mp mem
  have all : ∀ command ∈ commands receiver localhost m, Bytewise command := by
    refine List.forall_mem_cons.mpr ⟨bytewise_append.mpr ⟨front, by decide⟩,
      List.forall_mem_cons.mpr ⟨bytewise_append.mpr ⟨second, by decide⟩,
      List.forall_mem_cons.mpr ⟨by decide, List.forall_mem_singleton.mpr ?_⟩⟩⟩
    exact bytewise_append.mpr ⟨body, by decide⟩
  exact all command sent c mem

/-- A command without a CR is read as one line. -/
theorem scanned_command {command : Str} (plain : '\r' ∉ command) (t : Str) :
    Scanned '\r' '\n' (command ++ '\r' :: '\n' :: t) [command] t := by
  have single := pieces_of_not_mem (b := '\n') plain
  rw [← single]
  refine scanned_pieces (by decide) ?_ t
  rw [single]
  exact List.forall_mem_singleton.mpr (paired_of_not_mem plain)

theorem scanned_after_command {command t rest : Str} {read : List Str} (plain : '\r' ∉ command)
    (scanned : Scanned '\r' '\n' (command ++ '\r' :: '\n' :: t) (command :: read) rest) :
    Scanned '\r' '\n' t read rest := by
  cases scanned with
  | cons found later =>
    cases scanned_command plain t with
    | cons found' later' =>
      cases later'
      cases found.symm.trans found'
      exact later

theorem mailCommand_plain {m : Mail} (unbroken : Unbroken m.usr) : '\r' ∉ mailCommand m := by
  intro mem
  rcases List.mem_append.mp mem with front | mem
  · exact absurd front (by decide)
  · rcases List.mem_append.mp mem with usr | back
    · exact unbroken.1 usr
    · exact absurd back (by decide)

theorem rcptCommand_plain {receiver : Str} (unbroken : Unbroken receiver) :
    '\r' ∉ rcptCommand receiver localhost := by
  intro mem
  rcases List.mem_append.mp mem with front | mem
  · exact absurd front (by decide)
  · rcases List.mem_append.mp mem with usr | back
    · exact unbroken.1 usr
    · exact absurd back (by decide)

/-- The commands before the text are read as three lines. -/
theorem scanned_opening {receiver : Str} {m : Mail} (sender : Unbroken m.usr)
    (unbroken : Unbroken receiver) {read : List Str} (rest : Str)
    (scanned : Scanned '\r' '\n' (toRemoteString m ++ '\r' :: '\n' :: (finalDot ++ ['\r', '\n']))
      read rest) :
    Scanned '\r' '\n' (commands receiver localhost m).flatten
      ([mailCommand m, rcptCommand receiver localhost, dataCommand] ++ read) rest := by
  rw [commands_flatten]
  have data : '\r' ∉ dataCommand := by decide
  exact (scanned_command (mailCommand_plain sender) _).append
    ((scanned_command (rcptCommand_plain unbroken) _).append
      ((scanned_command data _).append scanned))

/-- The body of a mail with framed lines, and the dot after it. -/
theorem scanned_body {m : Mail} (framed : Framed (toRemoteString m)) :
    Scanned '\r' '\n' (toRemoteString m ++ '\r' :: '\n' :: (finalDot ++ ['\r', '\n']))
      (pieces '\r' '\n' (toRemoteString m) ++ [finalDot]) [] := by
  have dot : '\r' ∉ finalDot := by decide
  have paired : ∀ line ∈ pieces '\r' '\n' (toRemoteString m), Paired '\r' line :=
    fun line mem => (framed line mem).1
  exact (scanned_pieces (by decide) paired _).append (scanned_command dot [])

/-- What a session of one mail answers and delivers. -/
theorem work_session {receiver : Str} {m : Mail} (sender : Unbroken m.usr) (some : m.usr ≠ [])
    (unbroken : Unbroken receiver) (named : receiver ≠ []) {body : List Str}
    (plain : ∀ line ∈ body, line ≠ finalDot) {input : List (Str × Surroundings)}
    (meets : input.map Prod.fst = session receiver m body) :
    ∃ env, (finalDot, env) ∈ input ∧ work {} input =
      [⟨mailCommand m, .some 250, none⟩, ⟨rcptCommand receiver localhost, .some 250, none⟩,
        ⟨dataCommand, .some 354, none⟩] ++ (body.map fun line => ⟨line, none, none⟩) ++
        [⟨finalDot, .some 250, .some (deliver env { begun receiver m with
          time := env.now, text := body.flatMap fun line => line ++ ['\n'] })⟩] := by
  obtain ⟨front, last, rfl, opened, ended⟩ := List.map_eq_append_iff.mp meets
  obtain ⟨start, middle, rfl, three, rfl⟩ := List.map_eq_append_iff.mp opened
  obtain ⟨⟨_, e₁⟩, _, rfl, rfl, two⟩ := List.map_eq_cons_iff.mp three
  obtain ⟨⟨_, e₂⟩, _, rfl, rfl, one⟩ := List.map_eq_cons_iff.mp two
  obtain ⟨⟨_, e₃⟩, _, rfl, rfl, zero⟩ := List.map_eq_cons_iff.mp one
  obtain rfl := List.map_eq_nil_iff.mp zero
  obtain ⟨⟨_, env⟩, _, rfl, rfl, rest⟩ := List.map_eq_cons_iff.mp ended
  obtain rfl := List.map_eq_nil_iff.mp rest
  refine ⟨env, List.mem_append_right _ List.mem_cons_self, ?_⟩
  have others : ∀ x ∈ middle, x.1 ≠ finalDot :=
    fun x mem => plain x.1 (List.mem_map_of_mem mem)
  have lines := work_body (w := ⟨.Data, begun receiver m⟩) rfl others [(finalDot, env)]
  rw [work_finalDot rfl] at lines
  rw [List.append_assoc, List.append_assoc]
  refine (work_opening sender some unbroken named e₁ e₂ e₃
    (middle ++ [(finalDot, env)])).trans ?_
  rw [lines, List.map_map, List.flatMap_map]
  rfl

theorem survives_of_framed (k : Closing) {receiver : Str} {m : Mail} (sender : Unbroken m.usr)
    (unbroken : Unbroken receiver)
    (bytewise : Bytewise (receiver ++ (m.usr ++ (m.time ++ m.text)))) (some : m.usr ≠ [])
    (named : receiver ≠ []) (framed : Framed (toRemoteString m)) :
    Survives k.toKernel receiver m := by
  have scanned := scanned_opening sender unbroken [] (scanned_body framed)
  obtain ⟨lines, ⟨waiting, calls⟩, read, same, rest⟩ :=
    linesRead_of_scanned k scanned ⟨_, 0⟩ (chars_bytes (bytewise_commands bytewise))
  obtain rfl := List.map_eq_nil_iff.mp rest
  refine ⟨lines, pieces '\r' '\n' (toRemoteString m), calls, read, ?_, ?_⟩
  · rw [same, session, List.append_assoc]
  · intro input meets
    obtain ⟨env, -, ran⟩ := work_session sender some unbroken named
      (fun line mem => (framed line mem).2) meets
    refine ⟨_, ran, ?_⟩
    intro sent mem
    obtain ⟨recipient, -, rfl⟩ := List.mem_map.mp mem
    exact (turned_append (toRemoteString m)).symm

theorem turn_mail_refused (env : Surroundings) {m : Mail} (empty : m.usr = []) :
    smtpTurn env {} (mailCommand m) = .go {} (some 501) none := by
  have same : mailCommand m = mailCommand ⟨0, [], [], []⟩ :=
    congrArg (fun usr => mailCommand ⟨0, usr, [], []⟩) empty
  have refused : (matchWhole fromRegex (mailCommand ⟨0, [], [], []⟩)).isSome = false := by
    decide +kernel
  have command : (mailCommand m).take 4 = "MAIL".toList := rfl
  rw [smtpTurn, if_neg (by decide)]
  simp only [command]
  rw [if_neg (by decide), if_pos trivial, if_neg (not_not.mpr rfl), same, refused,
    if_neg Bool.false_ne_true]

theorem turn_rcpt_refused (env : Surroundings) (letter : Letter) :
    smtpTurn env ⟨.From, letter⟩ (rcptCommand [] localhost) =
      .go ⟨.From, letter⟩ (some 501) none := by
  have refused : (matchWhole toRegex (rcptCommand [] localhost)).isSome = false := by
    decide +kernel
  have command : (rcptCommand [] localhost).take 4 = "RCPT".toList := rfl
  rw [smtpTurn, if_neg (show State.From ≠ .Data by decide)]
  simp only [command]
  rw [if_neg (by decide), if_neg (by decide), if_pos trivial, if_neg (fun no => no.1 rfl), refused,
    if_neg Bool.false_ne_true]

theorem named_of_answered {env : Surroundings} {m : Mail} {rest : List (Str × Surroundings)}
    {after : List Exchange}
    (trace : work {} ((mailCommand m, env) :: rest) = ⟨mailCommand m, some 250, none⟩ :: after) :
    m.usr ≠ [] := by
  intro empty
  rw [work, turn_mail_refused env empty] at trace
  have code := congrArg Exchange.code (List.cons.inj trace).1
  cases code

theorem receiver_of_answered {env : Surroundings} {letter : Letter} {receiver : Str}
    {rest : List (Str × Surroundings)} {after : List Exchange}
    (trace : work ⟨.From, letter⟩ ((rcptCommand receiver localhost, env) :: rest) =
      ⟨rcptCommand receiver localhost, some 250, none⟩ :: after) : receiver ≠ [] := by
  rintro rfl
  rw [work, turn_rcpt_refused] at trace
  have code := congrArg Exchange.code (List.cons.inj trace).1
  cases code

/-- The input that a session meets at noon. -/
def atNoon (lines : List Str) : List (Str × Surroundings) := lines.map fun line => (line, noonEverywhere)

theorem atNoon_lines (lines : List Str) : (atNoon lines).map Prod.fst = lines := by
  rw [atNoon, List.map_map]
  exact List.map_id lines

theorem atNoon_session (receiver : Str) (m : Mail) (body : List Str) :
    atNoon (session receiver m body) = (mailCommand m, noonEverywhere) ::
      (rcptCommand receiver localhost, noonEverywhere) :: (dataCommand, noonEverywhere) ::
        (atNoon body ++ [(finalDot, noonEverywhere)]) := by
  rw [session, List.append_assoc, atNoon, List.map_append, List.map_append]
  rfl

/-- Where a session is answered as a mail that survives, its sender and its receiver have a name
and the lines of its body are no dots. -/
theorem plain_of_session {receiver : Str} {m : Mail} (sender : Unbroken m.usr)
    (unbroken : Unbroken receiver) {body : List Str} {last : List Exchange}
    (trace : work {} (atNoon (session receiver m body)) =
      [⟨mailCommand m, some 250, none⟩, ⟨rcptCommand receiver localhost, some 250, none⟩,
        ⟨dataCommand, some 354, none⟩] ++ (body.map fun line => ⟨line, none, none⟩) ++ last) :
    m.usr ≠ [] ∧ receiver ≠ [] ∧ ∀ line ∈ body, line ≠ finalDot := by
  rw [atNoon_session, List.append_assoc] at trace
  have named : m.usr ≠ [] := named_of_answered trace
  have opened := trace
  rw [work, turn_mail noonEverywhere sender named] at opened
  have receives : receiver ≠ [] := receiver_of_answered (List.cons.inj opened).2
  rw [work_opening sender named unbroken receives] at trace
  have taken := (List.cons.inj (List.cons.inj (List.cons.inj trace).2).2).2
  refine ⟨named, receives, fun line mem => ?_⟩
  have lines : (body.map fun line => (⟨line, none, none⟩ : Exchange)) =
      (atNoon body).map fun x => ⟨x.1, none, none⟩ := by
    rw [atNoon, List.map_map]
    rfl
  rw [lines] at taken
  exact plain_of_work rfl taken (line, noonEverywhere) (List.mem_map_of_mem mem)

theorem framed_of_survives (k : Closing) {receiver : Str} {m : Mail} (sender : Unbroken m.usr)
    (unbroken : Unbroken receiver)
    (bytewise : Bytewise (receiver ++ (m.usr ++ (m.time ++ m.text))))
    (survives : Survives k.toKernel receiver m) :
    m.usr ≠ [] ∧ receiver ≠ [] ∧ Framed (toRemoteString m) := by
  obtain ⟨lines, body, calls, read, same, ran⟩ := survives
  obtain ⟨mails, trace, texts⟩ := ran (atNoon (session receiver m body)) (atNoon_lines _)
  obtain ⟨named, receives, plain⟩ := plain_of_session sender unbroken trace
  refine ⟨named, receives, ?_⟩
  have delivered : turned '\r' '\n' (toRemoteString m) ++ ['\n'] =
      body.flatMap fun line => line ++ ['\n'] := by
    obtain ⟨env, mem, work⟩ := work_session sender named unbroken receives plain
      (atNoon_lines (session receiver m body))
    obtain ⟨line, -, noon⟩ := List.mem_map.mp mem
    have last := List.append_inj_right' (trace.symm.trans work) rfl
    obtain rfl := Option.some.inj (Exchange.mk.inj (List.cons.inj last).1).2.2
    rw [← (Prod.mk.inj noon).2] at texts
    exact (texts (receiver, _) (List.mem_map_of_mem (List.mem_filter.mpr
      ⟨List.mem_cons_self, rfl⟩))).symm
  have scanned := read.scanned
  rw [chars_bytes (bytewise_commands bytewise), same, session, List.append_assoc, commands_flatten] at scanned
  have after_mail := scanned_after_command (mailCommand_plain sender) scanned
  have after_rcpt := scanned_after_command (rcptCommand_plain unbroken) after_mail
  have text : Scanned '\r' '\n' _ (body ++ [finalDot]) [] :=
    scanned_after_command (show '\r' ∉ dataCommand by decide) after_rcpt
  have whole : toRemoteString m ++ ['\r', '\n'] = body.flatMap fun line => line ++ ['\r', '\n'] := by
    have all : toRemoteString m ++ ['\r', '\n'] ++ (finalDot ++ ['\r', '\n']) =
        (body.flatMap fun line => line ++ ['\r', '\n']) ++ (finalDot ++ ['\r', '\n']) := by
      have sound : _ = ((body ++ [finalDot]).flatMap fun line => line ++ ['\r', '\n']) ++ [] :=
        Scanned.sound text
      rw [List.flatMap_append, List.flatMap_singleton, List.append_nil] at sound
      rw [← sound, List.append_assoc]
      rfl
    exact List.append_cancel_right all
  obtain ⟨rfl, single⟩ := eq_pieces_of_turned (by decide) whole delivered
  have alone : ∀ line ∈ [finalDot], pieces '\r' '\n' line = [line] :=
    List.forall_mem_singleton.mpr (by decide)
  have paired := Scanned.paired (by decide) text (List.forall_mem_append.mpr ⟨single, alone⟩)
  exact fun line mem => ⟨paired line (List.mem_append_left _ mem), plain line mem⟩

/-- A mail survives the hop exactly where its sender and its receiver have a name, no line of its
text is a dot and the number of CR in front of each LF that ends a line is odd. -/
theorem mail_survives_iff (k : Closing) (receiver : Str) (m : Mail) (sender : Unbroken m.usr)
    (unbroken : Unbroken receiver) (bytewise : Bytewise (receiver ++ (m.usr ++ (m.time ++ m.text)))) :
    Survives k.toKernel receiver m ↔ m.usr ≠ [] ∧ receiver ≠ [] ∧ Framed (toRemoteString m) := by
  constructor
  · exact framed_of_survives k sender unbroken bytewise
  · rintro ⟨named, receives, framed⟩
    exact survives_of_framed k sender unbroken bytewise named receives framed

/-- A mail of two lines. -/
def greeting : Mail := ⟨0, "al".toList, noon, "hi\r\nho".toList⟩

theorem survives_greeting : Survives untilClosed.toKernel "bob".toList greeting :=
  (mail_survives_iff untilClosed "bob".toList greeting (by decide) (by decide) (by decide)).mpr
    (by decide)

/-- A mail with a line that is a dot, and a command after it. -/
def dotted : Mail := ⟨0, "al".toList, noon, "hi\r\n.\r\nQUIT".toList⟩

theorem not_survives_dotted : ¬ Survives untilClosed.toKernel "bob".toList dotted := by
  intro survives
  have framed := (framed_of_survives untilClosed (by decide) (by decide) (by decide) survives).2.2
  exact absurd framed (by decide)

end MailRelay
