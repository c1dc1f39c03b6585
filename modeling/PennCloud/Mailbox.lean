import PennCloud.Pattern

/-!
# The mailbox format

`mail.h` and `mbox.h`, which the front end and the SMTP server share but for the
name of the printing function. A mailbox is one text, mail after mail, and a
mail begins at a line that has the form of a header. Reading back what was
written gives the same mails just when no sender spoils its header and no line
of a text looks like one.
-/

namespace Mailbox

open Text Pattern

structure Mail where
  id : Nat
  usr : Str
  time : Str
  text : Str
  deriving DecidableEq, Repr

def Mail.clear (m : Mail) : Mail := { m with id := 0, usr := [], text := [] }

def Mail.empty (m : Mail) : Bool := m.id = 0 && m.usr = [] && m.text = []

/-- The sender as the header names it. -/
def address (usr : Str) : Str := if '@' ∈ usr then usr else usr ++ "@localhost".toList

/-- What opens a header, and what closes its address. -/
def opening : Str := "From <".toList

def closing : Str := "> ".toList

/-- `to_local_string` of the front end. -/
def Mail.toLocalString (m : Mail) : Str :=
  opening ++ address m.usr ++ closing ++ m.time ++ toDecimal m.id ++ '\n' :: m.text

/-- `to_string` of the SMTP server. -/
def Mail.toString (m : Mail) : Str := m.toLocalString

/-- The dot of a pattern: any character but the line terminators. -/
def dot (c : Char) : Bool := c != '\n' && c != '\r'

/-- A literal piece that is compared without case. -/
def litIcase (word : Str) : List Item := word.map fun c => .one fun d => d.toLower == c.toLower

def dots (count : Nat) : List Item := List.replicate count (.one dot)

/-- `... ... .. ........ ....` -/
def stampRegex : List Item :=
  dots 3 ++ (litIcase " ".toList ++ (dots 3 ++ (litIcase " ".toList ++ (dots 2 ++
    (litIcase " ".toList ++ (dots 8 ++ (litIcase " ".toList ++ dots 4)))))))

/-- `FROM <.+@.+> ` before a stamp, without case. -/
def headerRegex : List Item :=
  litIcase "FROM <".toList ++ ([.run 1 dot] ++ (litIcase "@".toList ++ ([.run 1 dot] ++
    (litIcase "> ".toList ++ stampRegex))))

def isHeader (line : Str) : Bool := (matchWhole headerRegex line).isSome

structure MBox where
  fd : Int
  currentId : Nat := 0
  usr : Str
  text : Str := []
  mails : List Mail := []
  deriving DecidableEq, Repr

def MBox.push (box : MBox) (mail : Mail) : MBox :=
  if mail.empty then box else { box with mails := box.mails ++ [mail] }

/-- The loop of `parse_mails` over the lines that are left. After a header that is the last line
the id is read from an empty line, and `stoull` throws. -/
def parseLines : Mail → MBox → List Str → Option MBox
  | mail, box, [] => some (box.push mail)
  | mail, box, line :: rest =>
    if isHeader line then
      match rest with
      | [] => none
      | idLine :: rest =>
        (stoull64 idLine).bind fun id =>
          parseLines ⟨id, (line.drop 6).take (line.length - 32),
            line.drop (line.length - 24) ++ ['\n'], []⟩
            { box.push mail with currentId := max id box.currentId } rest
    else if mail.empty then parseLines mail box rest
    else parseLines { mail with text := mail.text ++ (line ++ ['\n']) } box rest

/-- `parse_mails`, `none` where it throws. The time of the mail it begins with is never read. -/
def MBox.parseMails (box : MBox) : Option MBox :=
  parseLines ⟨0, [], [], []⟩ box (split box.text '\n')

/-- An address with a character on both sides of an at sign. -/
def Recognised (usr : Str) : Prop := ∃ a b, usr = a ++ '@' :: b ∧ a ≠ [] ∧ b ≠ []

/-- No line has the form of a header. -/
def NoHeader (text : Str) : Prop := ∀ line ∈ split text '\n', isHeader line = false

instance (text : Str) : Decidable (NoHeader text) := inferInstanceAs (Decidable (∀ line ∈ _, _))

/-- A mail that is told apart from what is around it: its header is recognised as one and no
line of its text is. -/
structure Clean (m : Mail) : Prop where
  sender : '@' ∈ m.usr → Recognised m.usr
  text : NoHeader m.text

/-- The time as `ctime` prints it: a day of the week, a month, a day, a clock and a year. -/
def Ctime (time : Str) : Prop := ∃ wday mon mday clock year : Str,
  time = wday ++ ' ' :: (mon ++ ' ' :: (mday ++ ' ' :: (clock ++ ' ' :: (year ++ ['\n'])))) ∧
    wday.length = 3 ∧ mon.length = 3 ∧ mday.length = 2 ∧ clock.length = 8 ∧ year.length = 4 ∧
    ∀ c ∈ wday ++ mon ++ mday ++ clock ++ year, dot c = true

/-! ### Headers -/

theorem matches_litIcase {word s : Str} :
    Matches (litIcase word) s ↔ s.map Char.toLower = word.map Char.toLower := by
  induction word generalizing s with
  | nil => exact List.map_eq_nil_iff.symm
  | cons c word ih =>
    constructor
    · rintro ⟨d, t, rfl, same, tail⟩
      rw [List.map_cons, List.map_cons, eq_of_beq same, ih.mp tail]
    · intro same
      cases s with
      | nil => cases same
      | cons d t =>
        obtain ⟨head, tail⟩ := List.cons.inj same
        exact ⟨d, t, rfl, beq_iff_eq.mpr head, ih.mpr tail⟩

theorem length_of_litIcase {word s : Str} (h : Matches (litIcase word) s) :
    s.length = word.length := by
  have same := congrArg List.length (matches_litIcase.mp h)
  rwa [List.length_map, List.length_map] at same

theorem matches_word (word : Str) : Matches (litIcase word) word := matches_litIcase.mpr rfl

theorem matches_dots {count : Nat} {s : Str} :
    Matches (dots count) s ↔ s.length = count ∧ ∀ c ∈ s, dot c = true := by
  induction count generalizing s with
  | zero =>
    constructor
    · rintro rfl
      exact ⟨rfl, by simp⟩
    · rintro ⟨empty, -⟩
      exact List.length_eq_zero_iff.mp empty
  | succ count ih =>
    constructor
    · rintro ⟨c, t, rfl, accepted, tail⟩
      obtain ⟨length, all⟩ := ih.mp tail
      exact ⟨by rw [List.length_cons, length], List.forall_mem_cons.mpr ⟨accepted, all⟩⟩
    · rintro ⟨length, all⟩
      cases s with
      | nil => cases length
      | cons c t =>
        obtain ⟨first, later⟩ := List.forall_mem_cons.mp all
        exact ⟨c, t, rfl, first, ih.mpr ⟨Nat.succ.inj length, later⟩⟩

theorem matches_run {s : Str} :
    Matches [.run 1 dot] s ↔ s ≠ [] ∧ ∀ c ∈ s, dot c = true := by
  constructor
  · rintro ⟨taken, t, rfl, enough, accepted, rfl⟩
    rw [List.append_nil]
    exact ⟨List.ne_nil_of_length_pos enough, accepted⟩
  · rintro ⟨nonempty, accepted⟩
    exact ⟨s, [], (List.append_nil s).symm, List.length_pos_iff.mpr nonempty, accepted, rfl⟩

theorem length_of_stamp {s : Str} (h : Matches stampRegex s) : s.length = 24 := by
  simp only [stampRegex, matches_append, matches_dots] at h
  obtain ⟨a, _, rfl, ⟨ha, -⟩, b, _, rfl, hb, c, _, rfl, ⟨hc, -⟩, d, _, rfl, hd, e, _, rfl, ⟨he, -⟩,
    f, _, rfl, hf, g, _, rfl, ⟨hg, -⟩, i, j, rfl, hi, hj, -⟩ := h
  simp [ha, length_of_litIcase hb, hc, length_of_litIcase hd, he, length_of_litIcase hf, hg,
    length_of_litIcase hi, hj]

theorem at_of_toLower {c : Char} (h : c.toLower = '@') : c = '@' := by
  unfold Char.toLower at h
  split at h
  · rename_i upper
    have val : c.val + ('a'.val - 'A'.val) = '@'.val := congrArg Char.val h
    have low : 'A'.val ≤ c.val := upper.1
    have high : c.val ≤ 'Z'.val := upper.2
    grind
  · exact h

theorem at_of_icase {s : Str} (h : Matches (litIcase "@".toList) s) : s = ['@'] := by
  obtain ⟨c, t, rfl, same, rfl⟩ := h
  rw [at_of_toLower (eq_of_beq same)]

theorem isHeader_iff {line : Str} : isHeader line = true ↔ ∃ word a b close stamp,
    line = word ++ (a ++ '@' :: b) ++ (close ++ stamp) ∧ Matches (litIcase "FROM <".toList) word ∧
      (a ≠ [] ∧ ∀ c ∈ a, dot c = true) ∧ (b ≠ [] ∧ ∀ c ∈ b, dot c = true) ∧
      Matches (litIcase "> ".toList) close ∧ Matches stampRegex stamp := by
  rw [isHeader, matchWhole_isSome, headerRegex]
  simp only [matches_append, matches_run]
  constructor
  · rintro ⟨word, _, rfl, hword, a, _, rfl, ha, sign, _, rfl, hsign, b, _, rfl, hb, close, stamp,
      rfl, hclose, hstamp⟩
    refine ⟨word, a, b, close, stamp, ?_, hword, ha, hb, hclose, hstamp⟩
    rw [at_of_icase hsign]
    simp
  · rintro ⟨word, a, b, close, stamp, rfl, hword, ha, hb, hclose, hstamp⟩
    refine ⟨word, _, ?_, hword, a, _, rfl, ha, "@".toList, _, rfl, matches_word _, b, _, rfl, hb,
      close, stamp, rfl, hclose, hstamp⟩
    simp

/-- What stands between the angle brackets of a header is an address. -/
theorem recognised_of_isHeader {line : Str} (h : isHeader line = true) :
    Recognised ((line.drop 6).take (line.length - 32)) := by
  obtain ⟨word, a, b, close, stamp, rfl, hword, ha, hb, hclose, hstamp⟩ := isHeader_iff.mp h
  have six : word.length = 6 := length_of_litIcase hword
  have two : close.length = 2 := length_of_litIcase hclose
  have stamped := length_of_stamp hstamp
  refine ⟨a, b, ?_, ha.1, hb.1⟩
  rw [List.append_assoc, List.drop_left' six, List.take_left']
  simp only [List.length_append, List.length_cons]
  omega

/-- The first line of a mail. -/
def Mail.headerLine (m : Mail) : Str :=
  opening ++ address m.usr ++ (closing ++ m.time.dropLast)

/-- A mail as it is read back: its sender has a host. -/
def Mail.shown (m : Mail) : Mail := { m with usr := address m.usr }

/-- A mail as the front end and the SMTP server write it. -/
structure Written (m : Mail) : Prop where
  id_lt : m.id < 2 ^ 64
  sender : m.usr ≠ []
  plain : ∀ c ∈ m.usr, dot c = true
  time : Ctime m.time
  text : Lined m.text

theorem newline_notMem_of_dots {s : Str} (h : ∀ c ∈ s, dot c = true) : '\n' ∉ s :=
  fun mem => absurd (h _ mem) (by decide)

theorem matches_stamp {time : Str} (h : Ctime time) :
    ∃ stamp, time = stamp ++ ['\n'] ∧ Matches stampRegex stamp ∧ '\n' ∉ stamp := by
  obtain ⟨wday, mon, mday, clock, year, rfl, hwday, hmon, hmday, hclock, hyear, all⟩ := h
  refine ⟨wday ++ ' ' :: (mon ++ ' ' :: (mday ++ ' ' :: (clock ++ ' ' :: year))), by simp, ?_, ?_⟩
  all_goals
    simp only [List.mem_append, or_imp, forall_and] at all
    obtain ⟨⟨⟨⟨awday, amon⟩, amday⟩, aclock⟩, ayear⟩ := all
  · simp only [stampRegex, matches_append, matches_dots]
    exact ⟨wday, _, rfl, ⟨hwday, awday⟩, [' '], _, rfl, matches_word _, mon, _, rfl, ⟨hmon, amon⟩,
      [' '], _, rfl, matches_word _, mday, _, rfl, ⟨hmday, amday⟩, [' '], _, rfl, matches_word _,
      clock, _, rfl, ⟨hclock, aclock⟩, [' '], _, rfl, matches_word _, hyear, ayear⟩
  · simp only [List.mem_append, List.mem_cons, not_or]
    exact ⟨newline_notMem_of_dots awday, by decide, newline_notMem_of_dots amon, by decide,
      newline_notMem_of_dots amday, by decide, newline_notMem_of_dots aclock, by decide,
      newline_notMem_of_dots ayear⟩

section Written
variable {m : Mail}

theorem Written.recognised (written : Written m) (clean : Clean m) :
    Recognised (address m.usr) := by
  rw [address]
  split
  · rename_i signed
    exact clean.sender signed
  · exact ⟨m.usr, "localhost".toList, rfl, written.sender, by decide⟩

theorem Written.address_plain (written : Written m) : ∀ c ∈ address m.usr, dot c = true := by
  rw [address]
  split
  · exact written.plain
  · exact List.forall_mem_append.mpr ⟨written.plain, by decide⟩

theorem Written.address_ne_nil (written : Written m) : address m.usr ≠ [] := by
  rw [address]
  split
  · exact written.sender
  · exact List.append_ne_nil_of_left_ne_nil written.sender _

theorem Written.isHeader (written : Written m) (clean : Clean m) :
    isHeader m.headerLine = true := by
  obtain ⟨a, b, split, ha, hb⟩ := written.recognised clean
  have plain := written.address_plain
  obtain ⟨stamp, printed, stamped, -⟩ := matches_stamp written.time
  rw [split] at plain
  obtain ⟨pa, pb⟩ := List.forall_mem_append.mp plain
  refine isHeader_iff.mpr ⟨opening, a, b, closing, stamp, ?_, ?_, ⟨ha, pa⟩,
    ⟨hb, (List.forall_mem_cons.mp pb).2⟩, matches_word _, stamped⟩
  · rw [Mail.headerLine, split, printed, List.dropLast_concat]
  · exact matches_litIcase.mpr (by decide)

theorem Written.headerLine_length (written : Written m) :
    m.headerLine.length = (address m.usr).length + 32 := by
  obtain ⟨stamp, printed, stamped, plain⟩ := matches_stamp written.time
  have front : opening.length = 6 := rfl
  have close : closing.length = 2 := rfl
  rw [Mail.headerLine, printed, List.dropLast_concat]
  simp only [List.length_append, length_of_stamp stamped, front, close]
  omega

theorem Written.headerLine_usr (written : Written m) :
    (m.headerLine.drop 6).take (m.headerLine.length - 32) = address m.usr := by
  have front : opening.length = 6 := rfl
  rw [written.headerLine_length, Nat.add_sub_cancel, Mail.headerLine, List.append_assoc,
    List.drop_left' front, List.take_left]

theorem Written.headerLine_time (written : Written m) :
    m.headerLine.drop (m.headerLine.length - 24) ++ ['\n'] = m.time := by
  obtain ⟨stamp, printed, stamped, plain⟩ := matches_stamp written.time
  have front : (opening ++ address m.usr ++ closing).length =
      m.headerLine.length - 24 := by
    have six : opening.length = 6 := rfl
    have two : closing.length = 2 := rfl
    rw [written.headerLine_length, List.length_append, List.length_append, six, two]
    omega
  rw [← front, Mail.headerLine, printed, List.dropLast_concat, ← List.append_assoc, List.drop_left]

/-- The lines of a mail in front of what follows it. -/
theorem Written.lines (written : Written m) (rest : Str) :
    split (m.toLocalString ++ rest) '\n' =
      m.headerLine :: toDecimal m.id :: (split m.text '\n' ++ split rest '\n') := by
  obtain ⟨stamp, printed, stamped, plain⟩ := matches_stamp written.time
  have header : '\n' ∉ m.headerLine := by
    rw [Mail.headerLine, printed, List.dropLast_concat]
    simp only [List.mem_append, not_or]
    exact ⟨⟨by decide, newline_notMem_of_dots written.address_plain⟩, by decide, plain⟩
  have apart : m.toLocalString ++ rest =
      m.headerLine ++ '\n' :: (toDecimal m.id ++ '\n' :: (m.text ++ rest)) := by
    simp only [Mail.toLocalString, Mail.headerLine, printed, List.dropLast_concat,
      List.append_assoc, List.cons_append, List.nil_append]
  rw [apart, split_line header, split_line (newline_notMem_toDecimal _), split_append written.text]

end Written

/-! ### Reading -/

theorem parseLines_header {line : Str} (mail : Mail) (box : MBox) (idLine : Str) (rest : List Str)
    (header : isHeader line = true) :
    parseLines mail box (line :: idLine :: rest) = (stoull64 idLine).bind fun id =>
      parseLines ⟨id, (line.drop 6).take (line.length - 32),
        line.drop (line.length - 24) ++ ['\n'], []⟩
        { box.push mail with currentId := max id box.currentId } rest := by
  rw [parseLines.eq_def]
  simp only [header, if_true]

theorem parseLines_line {line : Str} (mail : Mail) (box : MBox) (rest : List Str)
    (other : isHeader line = false) :
    parseLines mail box (line :: rest) = if mail.empty then parseLines mail box rest
      else parseLines { mail with text := mail.text ++ (line ++ ['\n']) } box rest := by
  rw [parseLines.eq_def]
  simp only [other, Bool.false_eq_true, if_false]

/-- The lines of a text go to the mail that is being read. -/
theorem parseLines_text (mail : Mail) (box : MBox) {lines : List Str} (rest : List Str)
    (begun : mail.usr ≠ []) (plain : ∀ line ∈ lines, isHeader line = false) :
    parseLines mail box (lines ++ rest) =
      parseLines { mail with text := mail.text ++ lines.flatMap (fun line => line ++ ['\n']) }
        box rest := by
  induction lines generalizing mail with
  | nil => simp
  | cons line lines ih =>
    obtain ⟨first, later⟩ := List.forall_mem_cons.mp plain
    have nonempty : mail.empty = false := by simp [Mail.empty, begun]
    rw [List.cons_append, parseLines_line _ _ _ first, if_neg (by simp [nonempty])]
    have same := ih { mail with text := mail.text ++ (line ++ ['\n']) } begun later
    rw [same, List.flatMap_cons, List.append_assoc]

/-- Clean mails are read one after the other, after the one that is being read. -/
theorem parseLines_mails {mails : List Mail} (written : ∀ m ∈ mails, Written m)
    (clean : ∀ m ∈ mails, Clean m) (mail : Mail) (box : MBox) :
    parseLines mail box (split (mails.flatMap Mail.toLocalString) '\n') =
      some { box.push mail with
        currentId := max ((mails.map Mail.id).foldr max 0) box.currentId
        mails := (box.push mail).mails ++ mails.map Mail.shown } := by
  induction mails generalizing mail box with
  | nil =>
    have kept : (box.push mail).currentId = box.currentId := by
      rw [MBox.push]
      split <;> rfl
    simp [split, splitFrom, parseLines, ← kept]
  | cons m mails ih =>
    obtain ⟨first, later⟩ := List.forall_mem_cons.mp written
    obtain ⟨cleanFirst, cleanLater⟩ := List.forall_mem_cons.mp clean
    have parsed : parseLines mail box (m.headerLine :: toDecimal m.id ::
        (split m.text '\n' ++ split (mails.flatMap Mail.toLocalString) '\n')) =
        parseLines m.shown { box.push mail with currentId := max m.id box.currentId }
          (split (mails.flatMap Mail.toLocalString) '\n') := by
      rw [parseLines_header _ _ _ _ (first.isHeader cleanFirst), stoull64_toDecimal first.id_lt,
        Option.bind_some, first.headerLine_usr, first.headerLine_time,
        parseLines_text ⟨m.id, address m.usr, m.time, []⟩ _ _ first.address_ne_nil
          cleanFirst.text, flatMap_split first.text]
      rfl
    have full : m.shown.empty = false := by
      simp [Mail.empty, Mail.shown, first.address_ne_nil]
    rw [List.flatMap_cons, first.lines, parsed, ih later cleanLater]
    simp only [MBox.push, full, Bool.false_eq_true, if_false, List.map_cons, List.foldr_cons,
      List.append_assoc, List.singleton_append, Nat.max_left_comm, Nat.max_assoc]

/-! ### What is read is clean -/

theorem split_line_self {line : Str} (h : '\n' ∉ line) : split (line ++ ['\n']) '\n' = [line] := by
  rw [split_line h]
  rfl

theorem lined_append (s t : Str) : Lined (s ++ (t ++ ['\n'])) :=
  .inr (by rw [← List.append_assoc, List.getLast?_concat])

/-- The mail being read: nothing yet, or one that is clean so far. -/
def Begun (mail : Mail) : Prop := mail.empty = true ∨ (Clean mail ∧ Lined mail.text)

theorem clean_push {mail : Mail} {box : MBox} (begun : Begun mail)
    (clean : ∀ m ∈ box.mails, Clean m) : ∀ m ∈ (box.push mail).mails, Clean m := by
  rw [MBox.push]
  split
  · exact clean
  · rename_i full
    have last := (begun.resolve_left full).1
    exact List.forall_mem_append.mpr ⟨clean, by simpa using last⟩

theorem begun_line {mail : Mail} {line : Str} (other : isHeader line = false) (one : '\n' ∉ line)
    (clean : Clean mail ∧ Lined mail.text) :
    Begun { mail with text := mail.text ++ (line ++ ['\n']) } := by
  refine .inr ⟨⟨clean.1.sender, fun l hl => ?_⟩, lined_append _ _⟩
  rw [split_append clean.2, split_line_self one] at hl
  rcases List.mem_append.mp hl with old | new
  · exact clean.1.text l old
  · rw [List.mem_singleton.mp new]
    exact other

theorem clean_of_parseLines {count : Nat} {lines : List Str} (few : lines.length ≤ count)
    (single : ∀ line ∈ lines, '\n' ∉ line) {mail : Mail} {box out : MBox} (begun : Begun mail)
    (clean : ∀ m ∈ box.mails, Clean m) (h : parseLines mail box lines = some out) :
    ∀ m ∈ out.mails, Clean m := by
  induction count generalizing lines mail box with
  | zero =>
    obtain rfl := List.length_eq_zero_iff.mp (Nat.le_zero.mp few)
    cases h
    exact clean_push begun clean
  | succ count ih =>
    cases lines with
    | nil =>
      cases h
      exact clean_push begun clean
    | cons line rest =>
      obtain ⟨one, later⟩ := List.forall_mem_cons.mp single
      have fewer := Nat.le_of_succ_le_succ few
      by_cases header : isHeader line = true
      · cases rest with
        | nil =>
          rw [parseLines.eq_def] at h
          simp [header] at h
        | cons idLine rest =>
          rw [parseLines_header _ _ _ _ header] at h
          obtain ⟨id, -, h⟩ := Option.bind_eq_some_iff.mp h
          have kept : ∀ m ∈ ({ box.push mail with currentId := max id box.currentId } : MBox).mails,
              Clean m := clean_push begun clean
          refine ih (Nat.le_of_succ_le fewer) (List.forall_mem_cons.mp later).2
            (.inr ⟨?_, .inl rfl⟩) kept h
          exact ⟨fun _ => recognised_of_isHeader header, fun _ none => nomatch none⟩
      · have other : isHeader line = false := by simpa using header
        rw [parseLines_line _ _ _ other] at h
        split at h
        · exact ih fewer later begun clean h
        · rename_i full
          exact ih fewer later (begun_line other one (begun.resolve_left full)) clean h

/-! ### The round trip -/

theorem clean_shown {m : Mail} (h : Clean m.shown) : Clean m where
  sender signed := by
    have same : m.shown.usr = m.usr := if_pos signed
    have sender := h.sender
    rw [same] at sender
    exact sender signed
  text := h.text

/-- The mails that either program wrote are read back, with the largest of their ids, if and only
if all of them are clean. -/
theorem parse_written_iff (fd : Int) (usr : Str) (print : Mail → Str)
    (writer : print = Mail.toLocalString ∨ print = Mail.toString) (mails : List Mail)
    (written : ∀ m ∈ mails, Written m) :
    (MBox.parseMails { fd := fd, usr := usr, text := mails.flatMap print } =
      some { fd := fd, usr := usr, text := mails.flatMap print,
             mails := mails.map Mail.shown, currentId := (mails.map Mail.id).foldr max 0 }) ↔
      ∀ m ∈ mails, Clean m := by
  obtain rfl : print = Mail.toLocalString := writer.elim id id
  constructor
  · intro read m hm
    have single : ∀ line ∈ split (mails.flatMap Mail.toLocalString) '\n', '\n' ∉ line :=
      fun line hl hc => (mem_split hl hc).2 rfl
    have all := clean_of_parseLines (Nat.le_refl _) single (.inl rfl) (by simp) read
    exact clean_shown (all m.shown (List.mem_map_of_mem hm))
  · intro clean
    rw [MBox.parseMails, parseLines_mails written clean]
    simp [MBox.push, Mail.empty]

def noon : Str := "Thu Nov 19 12:00:00 2024\n".toList

theorem ctime_noon : Ctime noon :=
  ⟨"Thu".toList, "Nov".toList, "19".toList, "12:00:00".toList, "2024".toList, by decide, rfl, rfl,
    rfl, rfl, rfl, by decide⟩

def greeting : Mail := ⟨1, "bob".toList, noon, "hello\n".toList⟩

/-- The text of this mail was made to look like another mail. -/
def forged : Mail :=
  ⟨2, "eve@x".toList, noon, "From <bob@x> Thu Nov 19 12:00:00 2024\n7\nhi\n".toList⟩

theorem written_greeting : Written greeting where
  id_lt := by decide
  sender := by decide
  plain := by decide
  time := ctime_noon
  text := by decide

theorem written_forged : Written forged where
  id_lt := by decide
  sender := by decide
  plain := by decide
  time := ctime_noon
  text := by decide

def answer : Mail := ⟨2, "eve".toList, noon, "hello bob\nbye\n".toList⟩

theorem written_answer : Written answer where
  id_lt := by decide
  sender := by decide
  plain := by decide
  time := ctime_noon
  text := by decide

theorem clean_answer : Clean answer where
  sender signed := absurd signed (by decide)
  text := by decide +kernel

theorem clean_greeting : Clean greeting where
  sender signed := absurd signed (by decide)
  text := by decide +kernel

theorem parse_written_greeting :
    MBox.parseMails ⟨3, 0, "al".toList, [greeting, answer].flatMap Mail.toLocalString, []⟩ =
      some ⟨3, 2, "al".toList, [greeting, answer].flatMap Mail.toLocalString,
        [greeting.shown, answer.shown]⟩ :=
  (parse_written_iff 3 "al".toList Mail.toLocalString (.inl rfl) [greeting, answer]
    (by simpa using ⟨written_greeting, written_answer⟩)).mpr
    (by simpa using ⟨clean_greeting, clean_answer⟩)

theorem not_parse_written : ∃ mails : List Mail, (∀ m ∈ mails, Written m) ∧
    (MBox.parseMails ⟨3, 0, "al".toList, mails.flatMap Mail.toString, []⟩).map
      (fun box => box.mails.map Mail.id) = some [2, 7] ∧
    MBox.parseMails ⟨3, 0, "al".toList, mails.flatMap Mail.toString, []⟩ ≠
      some ⟨3, (mails.map Mail.id).foldr max 0, "al".toList, mails.flatMap Mail.toString,
        mails.map Mail.shown⟩ := by
  refine ⟨[forged], by simpa using written_forged, by decide +kernel, by decide +kernel⟩

end Mailbox
