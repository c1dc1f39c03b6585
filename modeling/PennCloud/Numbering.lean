import Mathlib.Data.List.Nodup

/-!
# Entries that are numbered by what was seen before

Entries are appended to a log, and each bears the number that followed the log
as its author first saw it. The numbers stay distinct just where every author
appends to the very log that was seen.
-/

namespace Numbering

universe u v
variable {α : Type u} {N : Type v} (number : α → N) (next : List α → N)

/-- The log is still as it was seen, or the number that followed it has been given away. -/
def Behind (seen log : List α) : Prop := log = seen ∨ next seen ∈ log.map number

variable {number next} {seen log : List α} {a : α}

theorem behind_self (log : List α) : Behind number next log log := .inl rfl

/-- Whoever appends to the log that all others have seen takes their number. -/
theorem Behind.append (behind : Behind number next seen log) (numbered : number a = next log) :
    Behind number next seen (log ++ [a]) := by
  right
  rw [List.map_append]
  rcases behind with rfl | given
  · exact List.mem_append_right _ (by simp [numbered])
  · exact List.mem_append_left _ given

theorem nodup_append_iff (behind : Behind number next seen log) (numbered : number a = next seen)
    (distinct : (log.map number).Nodup) :
    ((log ++ [a]).map number).Nodup ↔ log = seen ∧ next log ∉ log.map number := by
  rw [List.map_append, List.map_singleton, List.nodup_append_comm, List.singleton_append,
    List.nodup_cons, numbered]
  constructor
  · rintro ⟨fresh, -⟩
    have same : log = seen := behind.resolve_right fresh
    exact ⟨same, same ▸ fresh⟩
  · rintro ⟨rfl, fresh⟩
    exact ⟨fresh, distinct⟩

theorem not_nodup_append (clash : ¬ (log.map number).Nodup) :
    ¬ ((log ++ [a]).map number).Nodup := by
  rw [List.map_append]
  exact fun distinct => clash (List.Nodup.of_append_left distinct)

end Numbering
