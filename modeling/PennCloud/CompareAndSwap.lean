import Mathlib.Data.List.Basic

/-!
# Compare and swap

A cell that is only written by attempts to replace the value that the writer expects. The attempts
that are accepted form a chain from the first value to the last. Where nobody writes the free value
back, a free cell is claimed once, by the first one who tries.
-/

universe u

namespace CompareAndSwap

variable {α : Type u} [DecidableEq α]

/-- The value after an attempt to replace `old` by `new`. -/
def swap (x : α) (attempt : α × α) : α := if x = attempt.1 then attempt.2 else x

/-- The attempts that are accepted. -/
def accepted : α → List (α × α) → List (α × α)
  | _, [] => []
  | x, attempt :: rest =>
    if x = attempt.1 then attempt :: accepted attempt.2 rest else accepted x rest

/-- Each attempt expects what the one before it left. -/
inductive Chain : α → List (α × α) → α → Prop where
  | nil (x : α) : Chain x [] x
  | cons {old new last : α} {rest : List (α × α)} (next : Chain new rest last) :
      Chain old ((old, new) :: rest) last

theorem chain_accepted (x : α) (attempts : List (α × α)) :
    Chain x (accepted x attempts) (attempts.foldl swap x) := by
  induction attempts generalizing x with
  | nil => exact .nil x
  | cons attempt rest ih =>
    rw [accepted, List.foldl_cons, swap]
    by_cases expected : x = attempt.1
    · rw [if_pos expected, if_pos expected, expected]
      exact .cons (ih attempt.2)
    · rw [if_neg expected, if_neg expected]
      exact ih x

/-- The attempts to claim a free cell. -/
def claims (free : α) (attempts : List (α × α)) : List (α × α) :=
  attempts.filter fun attempt => attempt.1 = free

section Claims
variable {free : α} {attempts : List (α × α)}

theorem claims_cons_self (new : α) :
    claims free ((free, new) :: attempts) = (free, new) :: claims free attempts := by
  simp [claims]

theorem claims_cons_ne {attempt : α × α} (other : attempt.1 ≠ free) :
    claims free (attempt :: attempts) = claims free attempts := by
  simp [claims, other]

/-- A cell that is not free is not claimed. -/
theorem claims_taken {x : α} (taken : x ≠ free) (kept : ∀ attempt ∈ attempts, attempt.2 ≠ free) :
    claims free (accepted x attempts) = [] := by
  induction attempts generalizing x with
  | nil => rfl
  | cons attempt rest ih =>
    obtain ⟨here, later⟩ := List.forall_mem_cons.mp kept
    rw [accepted]
    split
    · rename_i expected
      rw [claims_cons_ne (expected ▸ taken)]
      exact ih here later
    · exact ih taken later

/-- The first one who tries to claim a free cell gets it, and nobody else does. -/
theorem claims_free (kept : ∀ attempt ∈ attempts, attempt.2 ≠ free) :
    claims free (accepted free attempts) = (claims free attempts).take 1 := by
  induction attempts with
  | nil => rfl
  | cons attempt rest ih =>
    obtain ⟨here, later⟩ := List.forall_mem_cons.mp kept
    obtain ⟨old, new⟩ := attempt
    rw [accepted]
    by_cases expected : free = old
    · obtain rfl := expected
      rw [if_pos rfl, claims_cons_self, claims_cons_self, claims_taken here later]
      rfl
    · rw [if_neg expected, claims_cons_ne (Ne.symm expected)]
      exact ih later

end Claims

end CompareAndSwap
