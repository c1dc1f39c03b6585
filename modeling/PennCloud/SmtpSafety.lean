import PennCloud.FormBodies
import PennCloud.Smtp

/-!
# What an SMTP client can break

An exception in `smtp_worker` ends the whole server. The only calls that can raise
one are those of `substr`; all are in range but the one of a `HELO` without more.
-/

namespace Smtp

open Text Pattern Mailbox FormBodies

/-- The calls of `substr` for a line: the places and the lengths that are asked for. -/
def cuts (w : Worker) (line : Str) : List (Nat × Nat) :=
  if w.state = .Data then []
  else (0, 4) ::
    if line.take 4 = "HELO".toList then [(5, line.length)]
    else if line.take 4 = "MAIL".toList then
      if w.state = .Init ∧ (matchWhole fromRegex line).isSome then [(11, sizeMinus line 12)] else []
    else if line.take 4 = "RCPT".toList then
      if (w.state = .From ∨ w.state = .To) ∧ (matchWhole toRegex line).isSome ∧
        (matchWhole localRegex line).isSome then [(9, sizeMinus line 20)] else []
    else []

/-- The calls are all in range. -/
def InRange (w : Worker) (line : Str) : Prop :=
  ∀ cut ∈ cuts w line, (substr line cut.1 cut.2).isSome

/-- How a session stands after its lines. -/
inductive Ending where
  | waits (w : Worker)
  | closed
  | killed

/-- The session, as `work` goes through it. -/
def ending : Worker → List (Str × Surroundings) → Ending
  | w, [] => .waits w
  | w, (line, env) :: rest =>
    match smtpTurn env w line with
    | .go w' _ _ => ending w' rest
    | .close _ => .closed
    | .throws => .killed

/-- The line gets to a worker that waits for it. -/
def Received (input : List (Str × Surroundings)) (w : Worker) (line : Str) : Prop :=
  ∃ front env later, input = front ++ (line, env) :: later ∧ ending {} front = .waits w

/-- No call for a line of the session is out of range, and the server lives. -/
structure Survives (input : List (Str × Surroundings)) : Prop where
  inRange : ∀ w line, Received input w line → InRange w line
  lives : ending {} input ≠ .killed

/-! One line -/

theorem substr_isSome {s : Str} {pos count : Nat} : (substr s pos count).isSome ↔ pos ≤ s.length := by
  rw [substr]
  split <;> simp_all

theorem fifteen_le {line : Str} (matched : (matchWhole fromRegex line).isSome) :
    15 ≤ line.length := by
  have shortest : shortest fromRegex = 15 := by decide +kernel
  have enough := shortest_le (matchWhole_isSome.mp matched)
  omega

theorem twentyOne_le {line : Str} (matched : (matchWhole localRegex line).isSome) :
    21 ≤ line.length := by
  have shortest : shortest localRegex = 21 := by decide +kernel
  have enough := shortest_le (matchWhole_isSome.mp matched)
  omega

/-- What a transaction keeps of a line is what is cut out of it. -/
theorem substr_senderOf {line : Str} (matched : (matchWhole fromRegex line).isSome) :
    substr line 11 (sizeMinus line 12) = some (senderOf line) := by
  have enough := fifteen_le matched
  rw [substr, if_pos (by omega), sizeMinus, if_pos (by omega)]
  rfl

theorem substr_recipientOf {line : Str} (matched : (matchWhole localRegex line).isSome) :
    substr line 9 (sizeMinus line 20) = some (recipientOf line) := by
  have enough := twentyOne_le matched
  rw [substr, if_pos (by omega), sizeMinus, if_pos (by omega)]
  rfl

theorem helo_of_length {line : Str} (command : line.take 4 = "HELO".toList) :
    5 ≤ line.length ↔ line ≠ "HELO".toList := by
  have four : "HELO".toList.length = 4 := by decide
  constructor
  · rintro enough rfl
    omega
  · intro other
    have least := congrArg List.length command
    rw [List.length_take, four] at least
    by_contra short
    exact other (by rw [← command, List.take_of_length_le (by omega)])

theorem inRange_iff {w : Worker} {line : Str} :
    InRange w line ↔ w.state ≠ .Data → line ≠ "HELO".toList := by
  rw [InRange, cuts]
  split
  · rename_i data
    constructor
    · intro _ other
      exact absurd data other
    · intro _ cut mem
      cases mem
  rename_i other
  rw [List.forall_mem_cons]
  have first : (substr line 0 4).isSome := substr_isSome.mpr (Nat.zero_le _)
  split
  · rename_i command
    have fifth : (substr line 5 line.length).isSome ↔ line ≠ "HELO".toList :=
      substr_isSome.trans (helo_of_length command)
    constructor
    · rintro ⟨-, safe⟩ _
      exact fifth.mp (safe _ List.mem_cons_self)
    · intro safe
      exact ⟨first, List.forall_mem_singleton.mpr (fifth.mpr (safe other))⟩
  rename_i command
  have noHelo : line ≠ "HELO".toList := by
    rintro rfl
    exact command (by decide)
  have rest : ∀ cut ∈ (if line.take 4 = "MAIL".toList then
      if w.state = .Init ∧ (matchWhole fromRegex line).isSome then [(11, sizeMinus line 12)] else []
    else if line.take 4 = "RCPT".toList then
      if (w.state = .From ∨ w.state = .To) ∧ (matchWhole toRegex line).isSome ∧
        (matchWhole localRegex line).isSome then [(9, sizeMinus line 20)] else []
    else []), (substr line cut.1 cut.2).isSome := by
    intro cut mem
    split at mem
    · split at mem
      · rename_i ready
        rw [List.mem_singleton.mp mem, substr_senderOf ready.2]
        rfl
      · cases mem
    split at mem
    · split at mem
      · rename_i ready
        rw [List.mem_singleton.mp mem, substr_recipientOf ready.2.2]
        rfl
      · cases mem
    · cases mem
  constructor
  · intro _ _
    exact noHelo
  · intro _
    exact ⟨first, rest⟩

/-- A line ends the server where it is cut out of range. -/
theorem throws_iff {env : Surroundings} {w : Worker} {line : Str} :
    smtpTurn env w line = .throws ↔ ¬ InRange w line := by
  rw [inRange_iff]
  constructor
  · intro throws safe
    unfold smtpTurn at throws
    split at throws
    · unfold dataLine at throws
      split at throws <;> cases throws
    rename_i state
    simp only at throws
    split at throws
    · rename_i command
      split at throws
      · cases throws
      · rename_i short
        exact short ((helo_of_length command).mpr (safe state))
    · repeat' split at throws
      all_goals cases throws
  · intro broken
    obtain ⟨state, same⟩ := Classical.not_imp.mp broken
    obtain rfl := not_not.mp same
    rw [smtpTurn, if_neg state]
    simp only
    rw [if_pos (by decide), if_neg (by decide)]

/-! The session -/

/-- A session that kills the server gets to a line that does. -/
theorem killed_line {w : Worker} {input : List (Str × Surroundings)}
    (killed : ending w input = .killed) : ∃ front line env later w',
      input = front ++ (line, env) :: later ∧ ending w front = .waits w' ∧
        smtpTurn env w' line = .throws := by
  induction input generalizing w with
  | nil => cases killed
  | cons received later ih =>
    obtain ⟨line, env⟩ := received
    rw [ending] at killed
    cases turn : smtpTurn env w line with
    | go next code delivered =>
      rw [turn] at killed
      obtain ⟨front, line', env', rest, w', same, waits, throws⟩ := ih killed
      refine ⟨(line, env) :: front, line', env', rest, w', by rw [same]; rfl, ?_, throws⟩
      rw [ending, turn]
      exact waits
    | close code =>
      rw [turn] at killed
      cases killed
    | throws => exact ⟨[], line, env, later, w, rfl, rfl, turn⟩

/-- The server survives exactly the sessions in which no bare `HELO` gets to a worker that waits for
a command. -/
theorem session_survives_iff (input : List (Str × Surroundings)) : Survives input ↔
    ∀ w line, Received input w line → w.state ≠ .Data → line ≠ "HELO".toList := by
  constructor
  · intro survives w line received
    exact inRange_iff.mp (survives.inRange w line received)
  · intro polite
    constructor
    · intro w line received
      exact inRange_iff.mpr (polite w line received)
    · intro killed
      obtain ⟨front, line, env, later, w, same, waits, throws⟩ := killed_line killed
      have broken := throws_iff.mp throws
      exact broken (inRange_iff.mpr (polite w line ⟨front, env, later, same, waits⟩))

/-- One line is enough. -/
theorem not_session_survives : ¬ ∀ input, Survives input := by
  intro survives
  have killed : ending {} [("HELO".toList, noonEverywhere)] = .killed := rfl
  exact (survives _).lives killed

end Smtp
