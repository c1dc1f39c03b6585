import Mathlib.Data.List.Perm.Basic
import Mathlib.Data.List.Nodup

/-!
# The first match of a list

Loops that look for a record, change it or move it elsewhere, and stop. Where
at most one record matches, the list with the record taken out is a
rearrangement of the rest.
-/

namespace FirstMatch

universe u
variable {α : Type u}

/-- Change the first element that matches. -/
def modifyFirst (p : α → Bool) (f : α → α) : List α → List α
  | [] => []
  | a :: l => if p a then f a :: l else a :: modifyFirst p f l

theorem modifyFirst_none {p : α → Bool} {f : α → α} {l : List α} (h : ∀ a ∈ l, p a = false) :
    modifyFirst p f l = l := by
  induction l with
  | nil => rfl
  | cons a l ih =>
    rw [modifyFirst, h a List.mem_cons_self, ih fun b hb => h b (List.mem_cons_of_mem a hb)]
    rfl

theorem mem_modifyFirst {p : α → Bool} {f : α → α} {l : List α} {a : α}
    (h : a ∈ modifyFirst p f l) : a ∈ l ∨ ∃ b ∈ l, p b = true ∧ a = f b := by
  induction l with
  | nil => cases h
  | cons b l ih =>
    rw [modifyFirst] at h
    split at h
    · rename_i found
      rcases List.mem_cons.mp h with rfl | later
      · exact .inr ⟨b, List.mem_cons_self, found, rfl⟩
      · exact .inl (List.mem_cons_of_mem b later)
    · rcases List.mem_cons.mp h with rfl | later
      · exact .inl List.mem_cons_self
      · rcases ih later with old | ⟨c, hc, found, rfl⟩
        · exact .inl (List.mem_cons_of_mem b old)
        · exact .inr ⟨c, List.mem_cons_of_mem b hc, found, rfl⟩

/-- A change that keeps a quantity keeps the list of it. -/
theorem map_modifyFirst {β : Type u} {p : α → Bool} {f : α → α} {g : α → β}
    (kept : ∀ a, g (f a) = g a) (l : List α) : (modifyFirst p f l).map g = l.map g := by
  induction l with
  | nil => rfl
  | cons a l ih =>
    rw [modifyFirst]
    split
    · rw [List.map_cons, List.map_cons, kept]
    · rw [List.map_cons, List.map_cons, ih]

theorem modifyFirst_eq_map {p : α → Bool} {l : List α} (f : α → α)
    (unique : l.Pairwise fun a b => ¬ (p a = true ∧ p b = true)) :
    modifyFirst p f l = l.map fun a => if p a then f a else a := by
  induction l with
  | nil => rfl
  | cons a l ih =>
    obtain ⟨first, unique⟩ := List.pairwise_cons.mp unique
    rw [modifyFirst, List.map_cons]
    split
    · rename_i found
      have others : ∀ b ∈ l, p b = false := fun b hb => by
        simpa [found] using first b hb
      have same : l.map (fun a => if p a then f a else a) = l := by
        refine (List.map_congr_left fun b hb => ?_).trans (List.map_id l)
        rw [others b hb]
        rfl
      rw [same]
    · rw [ih unique]

/-- The one element that matches is changed, whatever the order. -/
theorem perm_modifyFirst {p : α → Bool} {l rest : List α} {a : α} (f : α → α)
    (split : l.Perm (a :: rest)) (found : p a = true) (others : ∀ b ∈ rest, p b = false) :
    (modifyFirst p f l).Perm (f a :: rest) := by
  have apart : (a :: rest).Pairwise fun a b => ¬ (p a = true ∧ p b = true) := by
    refine List.pairwise_cons.mpr ⟨fun b hb => by simp [others b hb], ?_⟩
    exact List.Pairwise.imp_of_mem (fun hb _ _ => by simp [others _ hb])
      (List.pairwise_of_forall (fun _ _ => trivial) : rest.Pairwise fun _ _ => True)
  have unique : l.Pairwise fun a b => ¬ (p a = true ∧ p b = true) :=
    (split.pairwise_iff fun h => by rwa [and_comm]).mpr apart
  have same : rest.map (fun a => if p a then f a else a) = rest := by
    refine (List.map_congr_left fun b hb => ?_).trans (List.map_id rest)
    rw [others b hb]
    rfl
  rw [modifyFirst_eq_map f unique]
  refine (split.map fun a => if p a then f a else a).trans ?_
  rw [List.map_cons, found, same]
  rfl

theorem perm_of_find? {p : α → Bool} {l : List α} {a : α} (h : l.find? p = some a) :
    l.Perm (a :: l.eraseP p) := by
  induction l with
  | nil => cases h
  | cons b l ih =>
    cases hb : p b with
    | true =>
      rw [List.find?_cons_of_pos hb] at h
      cases h
      rw [List.eraseP_cons_of_pos hb]
    | false =>
      have missed : ¬ p b = true := by simp [hb]
      rw [List.find?_cons_of_neg missed] at h
      rw [List.eraseP_cons_of_neg missed]
      exact ((ih h).cons b).trans (.swap a b _)

/-- Elements that differ in a quantity are not both matched by its value. -/
theorem unmatched_of_nodup {β : Type u} {g : α → β} {a : α} {rest : List α}
    (distinct : ((a :: rest).map g).Nodup) : ∀ b ∈ rest, g b ≠ g a := by
  intro b hb same
  exact (List.nodup_cons.mp distinct).1 (List.mem_map.mpr ⟨b, hb, same⟩)

end FirstMatch
