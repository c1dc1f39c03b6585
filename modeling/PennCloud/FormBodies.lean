import PennCloud.Pattern
import PennCloud.TcpOperation

/-!
# Form bodies

`http_parse` of `http_operation.h` and the first functions of `storage_reply.h`: what
the front end takes out of the body of a form. The content of an uploaded file begins
after the first blank line; its end is looked for from the end of the body backwards.
-/

namespace FormBodies

open Text Pattern TcpOperation

/-- `std::string::find`. -/
def find (word : Str) : Str → Option Nat
  | [] => if word = [] then some 0 else none
  | c :: cs => if word <+: c :: cs then some 0 else (find word cs).map (· + 1)

/-- `substr` up to the end of the string. -/
def substrFrom (s : Str) (pos : Nat) : Option Str := substr s pos s.length

/-- The difference of the size of a string and a smaller constant, as a `size_t`. -/
def sizeMinus (s : Str) (k : Nat) : Nat :=
  if k ≤ s.length then s.length - k else s.length + 2 ^ 64 - k

def crlf : Str := ['\r', '\n']

/-- A line end and an empty line. -/
def blankLine : Str := ['\r', '\n', '\r', '\n']

/-- The loop of `get_file_content`, from a position down. -/
def scanBack (body : Str) : Nat → Option Nat
  | 0 => if body[0]? = some '\r' then some 0 else none
  | i + 1 => if body[i + 1]? = some '\r' then some (i + 1) else scanBack body i

/-- The place of the last CR from six places before the end on. The place is an `int`. -/
def endPos (body : Str) : Option Nat :=
  let start := toInt (body.length - 6)
  if start < 0 then none else scanBack body start.toNat

/-- `get_file_content`, `none` where it throws. Where there is no blank line, `npos + 4` is three;
where there is no CR, all is taken. -/
def getFileContent (reqBody : Str) : Option Str :=
  (substrFrom reqBody (((find blankLine reqBody).map (· + 4)).getD 3)).map fun body =>
    match endPos body with
    | some i => body.take i
    | none => body

/-! The first blank line -/

theorem find_eq_some {word s : Str} (here : word <+: s) : find word s = some 0 := by
  cases s with
  | nil =>
    rw [find, if_pos (List.prefix_nil.mp here)]
  | cons c cs => rw [find, if_pos here]

theorem find_cons {word cs : Str} {c : Char} (no : ¬ word <+: c :: cs) :
    find word (c :: cs) = (find word cs).map (· + 1) := if_neg no

/-- The word begins where nothing in front is the beginning of one. -/
theorem find_after {word front rest : Str}
    (first : ∀ a b, front = a ++ b → b ≠ [] → ¬ word <+: b ++ (word ++ rest)) :
    find word (front ++ (word ++ rest)) = some front.length := by
  induction front with
  | nil => exact find_eq_some (List.prefix_append word rest)
  | cons c front ih =>
    have no := first [] (c :: front) rfl (List.cons_ne_nil _ _)
    have later : ∀ a b, front = a ++ b → b ≠ [] → ¬ word <+: b ++ (word ++ rest) := by
      intro a b same some
      exact first (c :: a) b (by rw [same]; rfl) some
    rw [List.cons_append] at no ⊢
    rw [find_cons no, ih later]
    rfl

/-- A blank line that begins in front of another one ends before it, or begins with the end of a
line. -/
theorem blankLine_overlap {b rest : Str} (some : b ≠ [])
    (here : blankLine <+: b ++ (blankLine ++ rest)) : blankLine <+: b ∨ b = crlf := by
  match b, some with
  | [c], _ =>
    obtain ⟨t, same⟩ := here
    have second : '\n' = '\r' := (List.cons.inj (List.cons.inj same).2).1
    cases second
  | [c, d], _ =>
    obtain ⟨t, same⟩ := here
    have first : '\r' = c := (List.cons.inj same).1
    have second : '\n' = d := (List.cons.inj (List.cons.inj same).2).1
    exact .inr (by rw [← first, ← second]; rfl)
  | [c, d, e], _ =>
    obtain ⟨t, same⟩ := here
    have last : '\n' = '\r' :=
      (List.cons.inj (List.cons.inj (List.cons.inj (List.cons.inj same).2).2).2).1
    cases last
  | c :: d :: e :: f :: b, _ =>
    refine .inl (List.prefix_of_prefix_length_le here (List.prefix_append _ _) ?_)
    exact Nat.le_add_left 4 b.length

/-- The header block of a part ends at the first blank line. -/
theorem find_blankLine {header rest : Str} (noBlank : ¬ blankLine <:+: header)
    (lineOpen : ¬ crlf <:+ header) :
    find blankLine (header ++ (blankLine ++ rest)) = some header.length := by
  refine find_after ?_
  intro a b same some here
  rcases blankLine_overlap some here with inside | last
  · obtain ⟨t, rfl⟩ := inside
    exact noBlank ⟨a, t, by rw [same, List.append_assoc]⟩
  · exact lineOpen ⟨a, by rw [same, last]⟩

/-! The end of the content -/

/-- The scan stops at the last CR. -/
theorem scanBack_last {front back : Str} (plain : '\r' ∉ back) {i : Nat} (here : front.length ≤ i)
    (inside : i ≤ front.length + back.length) :
    scanBack (front ++ '\r' :: back) i = some front.length := by
  induction i with
  | zero =>
    obtain rfl := List.length_eq_zero_iff.mp (Nat.le_zero.mp here)
    rfl
  | succ i ih =>
    rw [scanBack]
    by_cases last : i + 1 = front.length
    · rw [last, List.getElem?_append_right (Nat.le_refl _), Nat.sub_self]
      rfl
    · have before : front.length ≤ i := by omega
      have place : i + 1 - front.length = (i - front.length) + 1 := by omega
      have other : (front ++ '\r' :: back)[i + 1]? ≠ some '\r' := by
        rw [List.getElem?_append_right (by omega), place, List.getElem?_cons_succ]
        intro found
        exact plain (List.mem_of_getElem? found)
      rw [if_neg other, ih before (by omega)]

/-- What follows the place does not matter. -/
theorem scanBack_front {front back : Str} {i : Nat} (inside : i < front.length) :
    scanBack (front ++ back) i = scanBack front i := by
  induction i with
  | zero => rw [scanBack, scanBack, List.getElem?_append_left inside]
  | succ i ih =>
    rw [scanBack, scanBack, List.getElem?_append_left inside, ih (Nat.lt_of_succ_lt inside)]

def dashes : Str := ['-', '-']

/-- What follows the content of the last part. -/
def closing (boundary : Str) : Str := crlf ++ (dashes ++ (boundary ++ (dashes ++ crlf)))

theorem length_closing (content boundary : Str) :
    (content ++ closing boundary).length = content.length + boundary.length + 8 := by
  simp only [closing, crlf, dashes, List.length_append, List.length_cons, List.length_nil]
  omega

theorem endPos_closing {content boundary : Str} (plain : '\r' ∉ boundary)
    (small : (content ++ closing boundary).length ≤ INT_MAX) :
    endPos (content ++ closing boundary) = some content.length := by
  have length := length_closing content boundary
  rw [length, INT_MAX] at small
  have start : toInt ((content ++ closing boundary).length - 6) =
      ((content.length + boundary.length + 2 : Nat) : Int) := by
    rw [length, toInt_of_small] <;> omega
  -- the scan begins in front of the last CR of all
  have body : content ++ closing boundary =
      (content ++ '\r' :: '\n' :: (dashes ++ boundary)) ++ (dashes ++ crlf) := by
    simp [closing, crlf]
  have before : '\r' ∉ '\n' :: (dashes ++ boundary) := by
    simpa [dashes] using plain
  rw [endPos, start]
  have going : ¬ ((content.length + boundary.length + 2 : Nat) : Int) < 0 := by omega
  simp only [if_neg going, Int.toNat_natCast]
  rw [body, scanBack_front, scanBack_last before]
  · omega
  · simp only [dashes, List.length_cons, List.length_append, List.length_nil]
    omega
  · simp only [dashes, List.length_cons, List.length_append, List.length_nil]
    omega

/-- What stands between the first blank line and the closing boundary is the content. -/
theorem getFileContent_closing {header content boundary : Str}
    (first : find blankLine (header ++ (blankLine ++ (content ++ closing boundary))) =
      some header.length) (plain : '\r' ∉ boundary)
    (small : (header ++ (blankLine ++ (content ++ closing boundary))).length ≤ INT_MAX) :
    getFileContent (header ++ (blankLine ++ (content ++ closing boundary))) = some content := by
  have four : blankLine.length = 4 := rfl
  rw [List.length_append, List.length_append, four] at small
  have rest : substrFrom (header ++ (blankLine ++ (content ++ closing boundary)))
      (header.length + 4) = some (content ++ closing boundary) := by
    have split : header ++ (blankLine ++ (content ++ closing boundary)) =
        (header ++ blankLine) ++ (content ++ closing boundary) := by rw [List.append_assoc]
    rw [substrFrom, split, ← four, ← List.length_append]
    refine substr_append _ _ ?_
    simp only [List.length_append]
    omega
  have last : endPos (content ++ closing boundary) = some content.length :=
    endPos_closing plain (by omega)
  rw [getFileContent, first]
  simp only [Option.map_some, Option.getD_some, rest, last]
  rw [List.take_left]

/-- The content that was put between a header block and a closing boundary is taken out again. -/
theorem content_extracted (header content boundary : Str) (noBlank : ¬ blankLine <:+: header)
    (lineOpen : ¬ crlf <:+ header) (plain : '\r' ∉ boundary)
    (small : (header ++ (blankLine ++ (content ++ closing boundary))).length ≤ INT_MAX) :
    getFileContent (header ++ (blankLine ++ (content ++ closing boundary))) = some content :=
  getFileContent_closing (find_blankLine noBlank lineOpen) plain small

/-- Content that is itself full of line ends. -/
theorem content_extracted_lines : getFileContent ("name: f".toList ++ (blankLine ++
    ((blankLine ++ crlf) ++ closing "b-".toList))) = some (blankLine ++ crlf) :=
  content_extracted _ _ _ (by decide) (by decide) (by decide) (by decide)

/-! Escaped characters -/

def hexDigit (c : Char) : Option Nat :=
  if '0' ≤ c ∧ c ≤ '9' then some (c.toNat - '0'.toNat)
  else if 'a' ≤ c ∧ c ≤ 'f' then some (c.toNat - 'a'.toNat + 10)
  else if 'A' ≤ c ∧ c ≤ 'F' then some (c.toNat - 'A'.toNat + 10)
  else none

/-- The digits up to the first other character. -/
def hexValue (value : Nat) : Str → Nat
  | [] => value
  | c :: cs =>
    match hexDigit c with
    | some digit => hexValue (16 * value + digit) cs
    | none => value

/-- `strtol` in base 16. The prefix 0x is left out: of two characters it has no digits after it,
and reads as its zero. -/
def strtol16 (s : Str) : Int :=
  match s.dropWhile isSpace with
  | '-' :: rest => -(hexValue 0 rest)
  | '+' :: rest => hexValue 0 rest
  | other => hexValue 0 other

/-- `http_parse`. A percent sign with fewer than two characters after it stands for itself. -/
def httpParse : Str → Str
  | '%' :: a :: b :: rest => Char.ofNat (strtol16 [a, b] % 256).toNat :: httpParse rest
  | c :: rest => (if c = '+' then ' ' else c) :: httpParse rest
  | [] => []

def plusToBlank (c : Char) : Char := if c = '+' then ' ' else c

/-- Text without percent signs is read for itself, whatever follows. -/
theorem httpParse_plain {front : Str} (plain : '%' ∉ front) (rest : Str) :
    httpParse (front ++ rest) = front.map plusToBlank ++ httpParse rest := by
  induction front with
  | nil => rfl
  | cons c front ih =>
    obtain ⟨other, later⟩ := not_or.mp (List.mem_cons.not.mp plain)
    have step : httpParse (c :: (front ++ rest)) = plusToBlank c :: httpParse (front ++ rest) := by
      rw [httpParse]
      · rfl
      · rintro a b tail rfl
        exact absurd rfl other
    rw [List.cons_append, step, ih later]
    rfl

/-! Names of files -/

/-- What stands between the first and the last quotation mark. With one mark all that follows it is
taken, and without marks everything. -/
def betweenQuotes (s : Str) : Str :=
  if '"' ∈ s then
    let first := s.idxOf '"'
    let last := s.length - 1 - s.reverse.idxOf '"'
    if last = first then s.drop (first + 1) else (s.drop (first + 1)).take (last - first - 1)
  else s

/-- `get_file_name`, `none` where it throws. -/
def getFileName (body : Str) : Option Str :=
  (split body '\r')[1]?.bind fun line => (split line ';')[2]?.map betweenQuotes

theorem betweenQuotes_marked {front : Str} (plain : '"' ∉ front) (name : Str) :
    betweenQuotes (front ++ '"' :: (name ++ ['"'])) = name := by
  have first : (front ++ '"' :: (name ++ ['"'])).idxOf '"' = front.length := by
    rw [List.idxOf_append_of_notMem plain, List.idxOf_cons_self, Nat.add_zero]
  have last : (front ++ '"' :: (name ++ ['"'])).reverse.idxOf '"' = 0 := by
    simp
  have length : (front ++ '"' :: (name ++ ['"'])).length = front.length + name.length + 2 := by
    simp only [List.length_append, List.length_cons, List.length_nil]
    omega
  rw [betweenQuotes, if_pos (by simp), first, last, length]
  simp only []
  rw [if_neg (by omega), show front.length + 1 = (front ++ ['"']).length by simp,
    show front ++ '"' :: (name ++ ['"']) = (front ++ ['"']) ++ (name ++ ['"']) by simp,
    List.drop_left]
  exact List.take_left' (by simp; omega)

end FormBodies
