import PennCloud.Text

/-!
# The sign-up gate of the front end

`login.h`: which names a user may sign up and sign in with.
-/

namespace Login

open Text

def validUserchar (c : Char) : Bool :=
  if c.toNat ≤ 0x20 ∨ 0x7e < c.toNat then false
  else if c = '@' ∨ c = '\\' ∨ c = '/' ∨ c = '$' ∨ c = '%' ∨ c = '&' ∨ c = '=' then false
  else true

def validUsername (usr : Str) : Bool := usr.all validUserchar

theorem validUserchar_of_mem {usr : Str} (valid : validUsername usr = true) {c : Char}
    (h : c ∈ usr) : validUserchar c = true :=
  List.all_eq_true.mp valid c h

/-- No blank passes the gate. -/
theorem not_space_of_valid {c : Char} (valid : validUserchar c = true) : isSpace c = false := by
  by_contra blank
  have blank : isSpace c = true := by simpa using blank
  simp only [isSpace, Bool.or_eq_true, decide_eq_true_eq] at blank
  rcases blank with (((((rfl | rfl) | rfl) | rfl) | rfl) | rfl) <;> exact absurd valid (by decide)

end Login
