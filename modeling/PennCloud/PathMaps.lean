import Mathlib.Data.List.Infix
import Mathlib.Logic.Function.Basic

/-!
# Entries by their paths

A file system as those who use it see it: what stands at each list of names. An
entry is put somewhere, is taken away with everything below it, or goes elsewhere
with everything below it, where it takes the place of what was there.
-/

universe u v

namespace PathMaps

/-- What may stand at a path. -/
inductive Entry (Content : Type v) where
  | dir
  | file (content : Content)
  deriving DecidableEq, Repr

abbrev Entries (Name : Type u) (Content : Type v) := List Name → Option (Entry Content)

variable {Name : Type u} {Content : Type v} [DecidableEq Name]

def put (e : Entries Name Content) (path : List Name) (entry : Entry Content) :
    Entries Name Content :=
  Function.update e path (some entry)

/-- The entries without one of them and those below it. -/
def remove (e : Entries Name Content) (path : List Name) : Entries Name Content :=
  fun p => if path <+: p then none else e p

/-- The top of the entries alone. -/
def clear (e : Entries Name Content) : Entries Name Content := fun p => if p ≠ [] then none else e p

/-- The entries with one of them, and those below it, at another path. -/
def relocate (e : Entries Name Content) (src dst : List Name) : Entries Name Content := fun p =>
  if dst <+: p then e (src ++ p.drop dst.length) else if src <+: p then none else e p

section Operations
variable {e : Entries Name Content} {path src dst p : List Name}

theorem put_self (e : Entries Name Content) (path : List Name) (entry : Entry Content) :
    put e path entry path = some entry :=
  Function.update_self ..

theorem put_apart (entry : Entry Content) (apart : p ≠ path) : put e path entry p = e p :=
  Function.update_of_ne apart ..

theorem remove_apart (apart : ¬ path <+: p) : remove e path p = e p := if_neg apart

theorem relocate_moved (e : Entries Name Content) (src dst rest : List Name) :
    relocate e src dst (dst ++ rest) = e (src ++ rest) := by
  rw [relocate, if_pos (List.prefix_append dst rest), List.drop_left]

theorem relocate_left (away : ¬ dst <+: p) (below : src <+: p) : relocate e src dst p = none := by
  rw [relocate, if_neg away, if_pos below]

theorem relocate_apart (away : ¬ dst <+: p) (apart : ¬ src <+: p) :
    relocate e src dst p = e p := by
  rw [relocate, if_neg away, if_neg apart]

/-- Every entry that is there after a relocation was there before, maybe elsewhere. -/
theorem relocate_eq_some {entry : Entry Content} (known : relocate e src dst p = some entry) :
    (∃ rest, p = dst ++ rest ∧ e (src ++ rest) = some entry) ∨
      ¬ dst <+: p ∧ ¬ src <+: p ∧ e p = some entry := by
  by_cases below : dst <+: p
  · obtain ⟨rest, rfl⟩ := below
    rw [relocate_moved] at known
    exact .inl ⟨rest, rfl, known⟩
  · by_cases left : src <+: p
    · rw [relocate_left below left] at known
      cases known
    · rw [relocate_apart below left] at known
      exact .inr ⟨below, left, known⟩

end Operations

end PathMaps
