import Mathlib.Algebra.Group.Int.Defs
import Mathlib.Algebra.Group.Nat.Defs
import Mathlib.Data.List.Basic
import Mathlib.Data.List.TakeWhile

/-!
# Byte strings, lines and decimal numbers

A byte string is the list of its characters. The file holds the text
operations of the C++ library that record formats rest on: reading up to a
delimiter, splitting at a delimiter, printing and reading a number. Each
printed form is shown to be read back exactly.
-/

namespace Text

abbrev Str := List Char

-- What is said of the characters of a text is decided on the text, not on all there are.
instance (priority := 2000) decidableAll (p : Char → Prop) [DecidablePred p] (s : Str) :
    Decidable (∀ c ∈ s, p c) :=
  List.decidableBAll p s

instance (priority := 2000) decidableAny (p : Char → Prop) [DecidablePred p] (s : Str) :
    Decidable (∃ c ∈ s, p c) :=
  List.decidableBEx p s

/-- `std::getline`: the characters before the first delimiter, and what follows it. -/
def getLine (delim : Char) : Str → Str × Str
  | [] => ([], [])
  | c :: cs =>
    if c = delim then ([], cs)
    else (c :: (getLine delim cs).1, (getLine delim cs).2)

/-- Items as `getline` yields them: a trailing delimiter opens no further item. -/
def splitFrom (delim : Char) : Str → Str → List Str
  | acc, [] => if acc = [] then [] else [acc]
  | acc, c :: cs =>
    if c = delim then acc :: splitFrom delim [] cs
    else splitFrom delim (acc ++ [c]) cs

def split (s : Str) (delim : Char) : List Str := splitFrom delim [] s

theorem getLine_append {delim : Char} {line rest : Str} (h : delim ∉ line) :
    getLine delim (line ++ delim :: rest) = (line, rest) := by
  induction line with
  | nil => simp [getLine]
  | cons c line ih =>
    obtain ⟨hc, hline⟩ := not_or.mp (List.mem_cons.not.mp h)
    simp only [List.cons_append, getLine, if_neg (Ne.symm hc), ih hline]

theorem splitFrom_line {delim : Char} {line rest : Str} (acc : Str) (h : delim ∉ line) :
    splitFrom delim acc (line ++ delim :: rest) = (acc ++ line) :: splitFrom delim [] rest := by
  induction line generalizing acc with
  | nil => simp [splitFrom]
  | cons c line ih =>
    obtain ⟨hc, hline⟩ := not_or.mp (List.mem_cons.not.mp h)
    rw [List.cons_append, splitFrom, if_neg (Ne.symm hc), ih _ hline]
    simp

theorem split_line {delim : Char} {line rest : Str} (h : delim ∉ line) :
    split (line ++ delim :: rest) delim = line :: split rest delim :=
  splitFrom_line [] h

theorem splitFrom_last {delim : Char} {line : Str} (acc : Str) (h : delim ∉ line)
    (nonempty : acc ++ line ≠ []) : splitFrom delim acc line = [acc ++ line] := by
  induction line generalizing acc with
  | nil => simpa [splitFrom] using nonempty
  | cons c line ih =>
    obtain ⟨hc, hline⟩ := not_or.mp (List.mem_cons.not.mp h)
    rw [splitFrom, if_neg (Ne.symm hc), ih _ hline (by simp)]
    simp

/-- A last line without its delimiter is still an item. -/
theorem split_last {delim : Char} {line : Str} (h : delim ∉ line) (nonempty : line ≠ []) :
    split line delim = [line] :=
  splitFrom_last [] h nonempty

/-- `split` takes a line and goes on with what follows it. -/
theorem split_cons {delim : Char} {s : Str} (some : s ≠ []) :
    split s delim = (getLine delim s).1 :: split (getLine delim s).2 delim := by
  by_cases mem : delim ∈ s
  · obtain ⟨line, rest, rfl, absent⟩ := List.eq_append_cons_of_mem mem
    rw [split_line absent, getLine_append absent]
  · have whole : getLine delim s = (s, []) := by
      clear some
      induction s with
      | nil => rfl
      | cons c s ih =>
        obtain ⟨other, later⟩ := not_or.mp (List.mem_cons.not.mp mem)
        rw [getLine, if_neg (Ne.symm other), ih later]
    rw [split_last mem some, whole]
    rfl

theorem mem_splitFrom {delim : Char} {acc s item : Str} (h : item ∈ splitFrom delim acc s)
    {c : Char} (hc : c ∈ item) : c ∈ acc ∨ c ∈ s ∧ c ≠ delim := by
  induction s generalizing acc with
  | nil =>
    rw [splitFrom] at h
    split at h
    · cases h
    · rw [List.mem_singleton.mp h] at hc
      exact .inl hc
  | cons d s ih =>
    rw [splitFrom] at h
    split at h
    · rcases List.mem_cons.mp h with rfl | later
      · exact .inl hc
      · rcases ih later with absent | ⟨mem, ne⟩
        · cases absent
        · exact .inr ⟨List.mem_cons_of_mem d mem, ne⟩
    · rename_i other
      rcases ih h with mem | ⟨mem, ne⟩
      · rcases List.mem_append.mp mem with old | new
        · exact .inl old
        · rw [List.mem_singleton.mp new]
          exact .inr ⟨List.mem_cons_self, other⟩
      · exact .inr ⟨List.mem_cons_of_mem d mem, ne⟩

/-- The items are made of the characters of the text other than the delimiter. -/
theorem mem_split {delim : Char} {s item : Str} (h : item ∈ split s delim) {c : Char}
    (hc : c ∈ item) : c ∈ s ∧ c ≠ delim :=
  (mem_splitFrom h hc).resolve_left List.not_mem_nil

/-- After a line that is ended by its delimiter the items start afresh. -/
theorem splitFrom_append {delim : Char} {s : Str} (acc rest : Str) (nonempty : s ≠ [])
    (ended : s.getLast? = some delim) :
    splitFrom delim acc (s ++ rest) = splitFrom delim acc s ++ splitFrom delim [] rest := by
  induction s generalizing acc with
  | nil => exact absurd rfl nonempty
  | cons c s ih =>
    rw [List.cons_append, splitFrom, splitFrom]
    cases s with
    | nil =>
      obtain rfl : c = delim := Option.some.inj ended
      simp [splitFrom]
    | cons d s =>
      have later := fun acc => ih acc (List.cons_ne_nil d s) (by rwa [List.getLast?_cons_cons] at ended)
      split
      · rw [later, List.cons_append]
      · exact later _

/-- Text that is empty or ends with a newline, as writers of lines leave it. -/
def Lined (s : Str) : Prop := s = [] ∨ s.getLast? = some '\n'

instance (s : Str) : Decidable (Lined s) := inferInstanceAs (Decidable (_ ∨ _))

theorem split_append {s : Str} (lined : Lined s) (rest : Str) :
    split (s ++ rest) '\n' = split s '\n' ++ split rest '\n' := by
  by_cases empty : s = []
  · subst empty
    rfl
  · exact splitFrom_append [] rest empty (lined.resolve_left empty)

/-- The lines of a text with their newlines are the text again. -/
theorem flatMap_splitFrom {s : Str} (acc : Str) (lined : Lined s) :
    (splitFrom '\n' acc s).flatMap (fun line => line ++ ['\n']) =
      if s = [] then splitFrom '\n' acc [] |>.flatMap (fun line => line ++ ['\n']) else acc ++ s := by
  induction s generalizing acc with
  | nil => rfl
  | cons c s ih =>
    have later : Lined s := by
      cases s with
      | nil => exact .inl rfl
      | cons d s =>
        have ended := lined.resolve_left (List.cons_ne_nil _ _)
        exact .inr (by rwa [List.getLast?_cons_cons] at ended)
    rw [if_neg (List.cons_ne_nil c s), splitFrom]
    split
    · rename_i same
      rw [List.flatMap_cons, ih [] later]
      cases s with
      | nil => simp [splitFrom, same]
      | cons d s => simp [same]
    · rename_i other
      rw [ih _ later]
      cases s with
      | nil =>
        have ended : c = '\n' := Option.some.inj (lined.resolve_left (List.cons_ne_nil _ _))
        exact absurd ended other
      | cons d s => simp

theorem flatMap_split {s : Str} (lined : Lined s) :
    (split s '\n').flatMap (fun line => line ++ ['\n']) = s := by
  rw [split, flatMap_splitFrom [] lined]
  split
  · rename_i empty
    rw [empty]
    rfl
  · rfl

/-! Numbers -/

/-- `std::to_string` of an unsigned number. -/
def toDecimal (n : Nat) : Str := Nat.toDigits 10 n

def digitsValue (ds : Str) : Nat :=
  ds.foldl (fun value c => 10 * value + (c.toNat - '0'.toNat)) 0

/-- The largest `int`. -/
def INT_MAX : Nat := 2147483647

/-- `std::stoi` of a run of digits, `none` where it throws. -/
def stoi (ds : Str) : Option Nat :=
  if ds = [] then none
  else if digitsValue ds ≤ INT_MAX then some (digitsValue ds) else none

def isSpace (c : Char) : Bool :=
  c = ' ' || c = '\t' || c = '\n' || c = '\r' || c = Char.ofNat 11 || c = Char.ofNat 12

/-- `std::stoull`, `none` where it throws: blanks and one plus sign are skipped and
the digits are read up to the first other character. The numbers it is given
were printed from 64-bit counters, so its range error is left out. -/
def stoull (s : Str) : Option Nat :=
  let body := match s.dropWhile isSpace with
    | '+' :: rest => rest
    | other => other
  let digits := body.takeWhile Char.isDigit
  if digits = [] then none else some (digitsValue digits)

/-- The sign of a number, true for a minus, and its digits: blanks are skipped and the digits are
read up to the first other character. -/
def signedDigits (s : Str) : Bool × Str :=
  match s.dropWhile isSpace with
  | '+' :: rest => (false, rest.takeWhile Char.isDigit)
  | '-' :: rest => (true, rest.takeWhile Char.isDigit)
  | other => (false, other.takeWhile Char.isDigit)

/-- `std::stoull` of any text, `none` where it throws: a minus negates modulo 2^64, and a number
from 2^64 on is out of range. -/
def stoull64 (s : Str) : Option Nat :=
  let value := digitsValue (signedDigits s).2
  if (signedDigits s).2 = [] then none
  else if value < 2 ^ 64 then some (if (signedDigits s).1 then (2 ^ 64 - value) % 2 ^ 64 else value)
  else none

/-- The values of an `int`. -/
def IsInt (n : Int) : Prop := -(2 ^ 31) ≤ n ∧ n < 2 ^ 31

instance (n : Int) : Decidable (IsInt n) := inferInstanceAs (Decidable (_ ∧ _))

/-- `std::stoi` of any text, `none` where it throws. -/
def stoiSigned (s : Str) : Option Int :=
  let value : Int := digitsValue (signedDigits s).2
  let number := if (signedDigits s).1 then -value else value
  if (signedDigits s).2 = [] then none else if IsInt number then some number else none

theorem isDigit_of_mem_toDecimal {n : Nat} {c : Char} (h : c ∈ toDecimal n) :
    c.isDigit = true :=
  Nat.isDigit_of_mem_toDigits (by decide) (by decide) h

theorem toDecimal_ne_nil (n : Nat) : toDecimal n ≠ [] := Nat.toDigits_ne_nil

theorem digitsValue_toDecimal (n : Nat) : digitsValue (toDecimal n) = n := by
  have h := Nat.ofDigitChars_toDigits (b := 10) (n := n) (by decide) (by decide)
  rwa [Nat.ofDigitChars_eq_foldl] at h

theorem toDecimal_injective : Function.Injective toDecimal := by
  intro a b h
  rw [← digitsValue_toDecimal a, h, digitsValue_toDecimal]

theorem stoi_toDecimal (n : Nat) :
    stoi (toDecimal n) = if n ≤ INT_MAX then some n else none := by
  simp only [stoi, if_neg (toDecimal_ne_nil n), digitsValue_toDecimal]

theorem newline_notMem_toDecimal (n : Nat) : '\n' ∉ toDecimal n := by
  intro h
  exact absurd (isDigit_of_mem_toDecimal h) (by decide)

theorem takeWhile_digits_toDecimal (n : Nat) :
    (toDecimal n).takeWhile Char.isDigit = toDecimal n :=
  List.takeWhile_eq_self_iff.mpr fun _ h => isDigit_of_mem_toDecimal h

/-- Words that a blank follows end at the same place. -/
theorem append_blank_inj {a b s t : Str} {c d : Char} (wordA : ∀ e ∈ a, isSpace e = false)
    (wordB : ∀ e ∈ b, isSpace e = false) (blankC : isSpace c = true) (blankD : isSpace d = true)
    (h : a ++ c :: s = b ++ d :: t) : a = b ∧ c = d ∧ s = t := by
  induction a generalizing b with
  | nil =>
    cases b with
    | nil => exact ⟨rfl, List.cons.inj h⟩
    | cons e b =>
      obtain rfl : c = e := (List.cons.inj h).1
      exact absurd blankC (by simp [wordB c List.mem_cons_self])
  | cons e a ih =>
    cases b with
    | nil =>
      obtain rfl : e = d := (List.cons.inj h).1
      exact absurd blankD (by simp [wordA e List.mem_cons_self])
    | cons f b =>
      obtain ⟨rfl, rest⟩ := List.cons.inj h
      obtain ⟨rfl, same⟩ := ih (fun g hg => wordA g (List.mem_cons_of_mem e hg))
        (fun g hg => wordB g (List.mem_cons_of_mem e hg)) rest
      exact ⟨rfl, same⟩

theorem isDigit_not_space {c : Char} (h : c.isDigit = true) : isSpace c = false := by
  by_contra hs
  have hs : isSpace c = true := by simpa using hs
  simp only [isSpace, Bool.or_eq_true, decide_eq_true_eq] at hs
  rcases hs with (((((rfl | rfl) | rfl) | rfl) | rfl) | rfl) <;> exact absurd h (by decide)

theorem stoull_toDecimal (n : Nat) : stoull (toDecimal n) = some n := by
  obtain ⟨c, cs, hc⟩ := List.exists_cons_of_ne_nil (toDecimal_ne_nil n)
  have digit : c.isDigit = true := isDigit_of_mem_toDecimal (n := n) (by rw [hc]; simp)
  have noPlus : c ≠ '+' := by rintro rfl; exact absurd digit (by decide)
  have skip : (toDecimal n).dropWhile isSpace = c :: cs := by
    rw [hc, List.dropWhile_cons_of_neg (by simp [isDigit_not_space digit])]
  have body : (match (toDecimal n).dropWhile isSpace with
      | '+' :: rest => rest
      | other => other) = toDecimal n := by
    rw [skip, hc]
    split
    · rename_i h
      exact absurd (List.cons.inj h).1 noPlus
    · rfl
  simp only [stoull, body, takeWhile_digits_toDecimal, if_neg (toDecimal_ne_nil n),
    digitsValue_toDecimal]

theorem signedDigits_toDecimal (n : Nat) : signedDigits (toDecimal n) = (false, toDecimal n) := by
  obtain ⟨c, cs, hc⟩ := List.exists_cons_of_ne_nil (toDecimal_ne_nil n)
  have digit : c.isDigit = true := isDigit_of_mem_toDecimal (n := n) (by rw [hc]; simp)
  have noPlus : c ≠ '+' := by rintro rfl; exact absurd digit (by decide)
  have noMinus : c ≠ '-' := by rintro rfl; exact absurd digit (by decide)
  have skip : (toDecimal n).dropWhile isSpace = toDecimal n := by
    rw [hc, List.dropWhile_cons_of_neg (by simp [isDigit_not_space digit])]
  rw [signedDigits, skip]
  split
  · rename_i same
    exact absurd (List.cons.inj (hc.symm.trans same)).1 noPlus
  · rename_i same
    exact absurd (List.cons.inj (hc.symm.trans same)).1 noMinus
  · rw [takeWhile_digits_toDecimal]

theorem stoull64_toDecimal {n : Nat} (small : n < 2 ^ 64) : stoull64 (toDecimal n) = some n := by
  simp only [stoull64, signedDigits_toDecimal, if_neg (toDecimal_ne_nil n), digitsValue_toDecimal,
    if_pos small, Bool.false_eq_true, if_false]

theorem isInt_stoiSigned {s : Str} {n : Int} (h : stoiSigned s = some n) : IsInt n := by
  simp only [stoiSigned] at h
  generalize (if (signedDigits s).1 = true then -(digitsValue (signedDigits s).2 : Int)
    else digitsValue (signedDigits s).2) = number at h
  split at h
  · cases h
  split at h
  · cases h
    assumption
  · cases h

end Text
