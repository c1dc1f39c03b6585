import Mathlib.Logic.Hydra
import Mathlib.Order.WellFounded

/-!
# Graphs without cycles

A new edge closes no cycle where its end does not lead back to its start. In a finite
graph without cycles a queue that takes a node from the front and puts its children
behind runs empty, although it may come to a node many times.
-/

namespace Acyclicity

open Relation

variable {α β : Type*} {r s : α → α → Prop}

def Acyclic (r : α → α → Prop) : Prop := ∀ a, ¬ TransGen r a a

theorem Acyclic.mono (acyclic : Acyclic s) (sub : ∀ a b, r a b → s a b) : Acyclic r := by
  intro a cycle
  exact acyclic a (TransGen.mono sub a a cycle)

/-- A cycle stays one under a map of the nodes. -/
theorem Acyclic.of_map {s : β → β → Prop} (f : α → β) (acyclic : Acyclic s)
    (edges : ∀ a b, r a b → s (f a) (f b)) : Acyclic r := by
  intro a cycle
  exact acyclic (f a) (cycle.lift f edges)

/-- A way in the larger graph is one in the smaller, or goes through the new edge. -/
theorem transGen_insert {a b : α} (apart : ¬ ReflTransGen r b a)
    (edges : ∀ x y, s x y → r x y ∨ x = a ∧ y = b) {x y : α} (way : TransGen s x y) :
    TransGen r x y ∨ ReflTransGen r x a ∧ ReflTransGen r b y := by
  induction way with
  | single edge =>
    rcases edges _ _ edge with old | ⟨rfl, rfl⟩
    · exact .inl (.single old)
    · exact .inr ⟨.refl, .refl⟩
  | tail _ edge ih =>
    rcases ih with way | ⟨front, back⟩
    · rcases edges _ _ edge with old | ⟨rfl, rfl⟩
      · exact .inl (way.tail old)
      · exact .inr ⟨way.to_reflTransGen, .refl⟩
    · rcases edges _ _ edge with old | ⟨rfl, rfl⟩
      · exact .inr ⟨front, back.tail old⟩
      · exact absurd back apart

theorem Acyclic.insert (acyclic : Acyclic r) {a b : α} (apart : ¬ ReflTransGen r b a)
    (edges : ∀ x y, s x y → r x y ∨ x = a ∧ y = b) : Acyclic s := by
  intro x cycle
  rcases transGen_insert apart edges cycle with old | ⟨front, back⟩
  · exact acyclic x old
  · exact apart (back.trans front)

/-- Where finitely many nodes have children, every way down ends. -/
theorem Acyclic.wellFounded (acyclic : Acyclic r) (finite : {a | ∃ b, r a b}.Finite) :
    WellFounded fun b a => r a b := by
  have leaf : ∀ a, (¬ ∃ b, r a b) → Acc (fun b a => r a b) a :=
    fun a none => .intro a fun b child => absurd ⟨b, child⟩ none
  let below (b a : {a // ∃ b, r a b}) : Prop := TransGen r a.1 b.1
  have : Finite {a // ∃ b, r a b} := finite
  have : IsTrans _ below := ⟨fun _ _ _ first second => second.trans first⟩
  have : Std.Irrefl below := ⟨fun a cycle => acyclic a.1 cycle⟩
  have ends : WellFounded below := Finite.wellFounded_of_trans_of_irrefl below
  have inner : ∀ a, Acc (fun b a => r a b) (a : {a // ∃ b, r a b}).1 := by
    intro a
    induction a using ends.induction with
    | _ a ih =>
      refine .intro _ fun b child => ?_
      by_cases more : ∃ c, r b c
      · exact ih ⟨b, more⟩ (.single child)
      · exact leaf b more
  refine ⟨fun a => ?_⟩
  by_cases more : ∃ b, r a b
  · exact inner ⟨a, more⟩
  · exact leaf a more

/-- The queue runs empty, or a visit fails. -/
inductive Drains (visit : α → Option (List α)) : List α → Prop where
  | empty : Drains visit []
  | fails {a : α} {queue : List α} (failed : visit a = none) : Drains visit (a :: queue)
  | turn {a : α} {queue children : List α} (visited : visit a = some children)
      (rest : Drains visit (queue ++ children)) : Drains visit (a :: queue)

/-- Each turn takes a node away for nodes further down. -/
theorem drains {visit : α → Option (List α)} (ends : WellFounded fun b a => r a b)
    (children : ∀ a cs, visit a = some cs → ∀ c ∈ cs, r a c) (queue : List α) :
    Drains visit queue := by
  induction h : (queue : Multiset α) using ends.cutExpand.induction generalizing queue with
  | _ nodes ih =>
    subst h
    cases queue with
    | nil => exact .empty
    | cons a queue =>
      cases visited : visit a with
      | none => exact .fails visited
      | some cs =>
        refine .turn visited (ih _ ⟨cs, a, children a cs visited, ?_⟩ _ rfl)
        simp only [← Multiset.coe_add, ← Multiset.cons_coe, ← Multiset.singleton_add]
        rw [add_comm, ← add_assoc]

end Acyclicity
