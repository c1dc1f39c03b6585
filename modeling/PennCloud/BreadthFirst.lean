import Mathlib.Data.List.Nodup
import Mathlib.Data.List.Perm.Subperm
import Mathlib.Data.List.Induction

/-!
# Walking a tree with a queue

A queue visits the nodes of a tree level by level. The walk takes fuel, one for
each node that it visits. Where every node has one parent, the walk visits each
node once and after its parent, and no more fuel is needed than there are nodes.
-/

namespace BreadthFirst

universe u

variable {α : Type u}

/-- The nodes in the order in which a queue visits them. -/
def walk (children : α → List α) : Nat → List α → Option (List α)
  | _, [] => some []
  | 0, _ :: _ => none
  | fuel + 1, a :: queue => (walk children fuel (queue ++ children a)).map fun order => a :: order

/-- Below the start every node has one parent, and all nodes are among some list. -/
structure Branching (children : α → List α) (start : α) (all : List α) : Prop where
  nodup : ∀ a, (children a).Nodup
  unique : ∀ {a b c}, c ∈ children a → c ∈ children b → a = b
  top : ∀ a, start ∉ children a
  bounded : ∀ {a c}, c ∈ children a → c ∈ all
  start_mem : start ∈ all

/-- Every node but the start comes after its parent. -/
def Ordered (children : α → List α) (start : α) (order : List α) : Prop :=
  ∀ before a after, order = before ++ a :: after → a = start ∨ ∃ p ∈ before, a ∈ children p

/-- What was visited and what stands in the queue, between two turns of the walk. -/
structure Frontier (children : α → List α) (start : α) (visited queue : List α) : Prop where
  nodup : (visited ++ queue).Nodup
  closed : ∀ a ∈ visited, ∀ c ∈ children a, c ∈ visited ++ queue
  parent : ∀ c ∈ visited ++ queue, c = start ∨ ∃ a ∈ visited, c ∈ children a
  ordered : Ordered children start visited
  start_mem : start ∈ visited ++ queue

theorem frontier_start (children : α → List α) (start : α) :
    Frontier children start [] [start] where
  nodup := by simp
  closed := by simp
  parent := by simp
  ordered before a after split := by simp at split
  start_mem := by simp

theorem ordered_concat {children : α → List α} {start a : α} {visited : List α}
    (ordered : Ordered children start visited)
    (last : a = start ∨ ∃ p ∈ visited, a ∈ children p) :
    Ordered children start (visited ++ [a]) := by
  intro before b after split
  rcases List.append_eq_append_iff.mp split with ⟨more, rfl, rest⟩ | ⟨more, rfl, rest⟩
  · cases more with
    | nil =>
      obtain ⟨rfl, -⟩ := List.cons.inj rest
      simpa using last
    | cons d more =>
      obtain ⟨-, empty⟩ := List.cons.inj rest
      simp at empty
  · cases more with
    | nil =>
      obtain ⟨rfl, -⟩ := List.cons.inj rest
      simpa using last
    | cons d more =>
      obtain ⟨rfl, -⟩ := List.cons.inj rest
      exact ordered before b more rfl

/-- What holds of the start and passes from parents to children holds of all nodes. -/
theorem Ordered.induction {children : α → List α} {start : α} {order : List α}
    (ordered : Ordered children start order) {P : α → Prop} (base : P start)
    (step : ∀ a c, P a → c ∈ children a → P c) : ∀ a ∈ order, P a := by
  have front : ∀ before after, order = before ++ after → ∀ a ∈ before, P a := by
    intro before
    induction before using List.reverseRecOn with
    | nil => exact fun _ _ => List.forall_mem_nil _
    | append_singleton before a ih =>
      intro after split
      have earlier := ih (a :: after) (by rw [split, List.append_assoc]; rfl)
      refine List.forall_mem_append.mpr ⟨earlier, List.forall_mem_singleton.mpr ?_⟩
      rcases ordered before a after (by rw [split, List.append_assoc]; rfl) with rfl | ⟨b, mem, child⟩
      · exact base
      · exact step b a (earlier b mem) child
  exact front order [] (List.append_nil order).symm

/-- The children of some nodes are left out. -/
theorem Branching.restrict {children : α → List α} {start : α} {all : List α}
    (tree : Branching children start all) (keep : α → Prop) [DecidablePred keep] :
    Branching (fun a => if keep a then children a else []) start all := by
  have kept : ∀ {a c}, c ∈ (if keep a then children a else []) → c ∈ children a := by
    intro a c mem
    split at mem
    · exact mem
    · cases mem
  constructor
  · intro a
    split
    · exact tree.nodup a
    · exact List.nodup_nil
  · exact fun first second => tree.unique (kept first) (kept second)
  · exact fun a mem => tree.top a (kept mem)
  · exact fun mem => tree.bounded (kept mem)
  · exact tree.start_mem

section Walk
variable {children : α → List α} {start : α} {all : List α}

/-- The node in front of the queue is visited, and its children are put behind it. -/
theorem frontier_step (tree : Branching children start all) {a : α} {visited queue : List α}
    (now : Frontier children start visited (a :: queue)) :
    Frontier children start (visited ++ [a]) (queue ++ children a) := by
  have moved : (visited ++ [a]) ++ (queue ++ children a) = (visited ++ a :: queue) ++ children a := by
    simp
  have absent : a ∉ visited := by
    intro mem
    exact List.disjoint_of_nodup_append now.nodup mem List.mem_cons_self
  constructor
  · rw [moved, List.nodup_append']
    refine ⟨now.nodup, tree.nodup a, fun c old new => ?_⟩
    rcases now.parent c old with rfl | ⟨b, mem, child⟩
    · exact tree.top a new
    · rw [tree.unique new child] at absent
      exact absent mem
  · intro b mem c child
    rw [moved]
    rcases List.mem_append.mp mem with old | new
    · exact List.mem_append_left _ (now.closed b old c child)
    · rw [List.mem_singleton.mp new] at child
      exact List.mem_append_right _ child
  · intro c mem
    rw [moved] at mem
    rcases List.mem_append.mp mem with old | new
    · rcases now.parent c old with rfl | ⟨b, seen, child⟩
      · exact .inl rfl
      · exact .inr ⟨b, List.mem_append_left _ seen, child⟩
    · exact .inr ⟨a, by simp, new⟩
  · exact ordered_concat now.ordered (now.parent a (by simp))
  · rw [moved]
    exact List.mem_append_left _ now.start_mem

theorem frontier_subset (tree : Branching children start all) {visited queue : List α}
    (now : Frontier children start visited queue) : ∀ a ∈ visited ++ queue, a ∈ all := by
  intro a mem
  rcases now.parent a mem with rfl | ⟨b, -, child⟩
  · exact tree.start_mem
  · exact tree.bounded child

/-- The walk ends where there is fuel for all nodes, with everything visited. -/
theorem walk_of_frontier (tree : Branching children start all) {fuel : Nat}
    {visited queue : List α} (now : Frontier children start visited queue)
    (enough : all.length ≤ fuel + visited.length) :
    ∃ rest, walk children fuel queue = some rest ∧
      Frontier children start (visited ++ rest) [] := by
  induction fuel generalizing visited queue with
  | zero =>
    cases queue with
    | nil => exact ⟨[], rfl, by simpa using now⟩
    | cons a queue =>
      have fits : (visited ++ a :: queue).length ≤ all.length :=
        (now.nodup.subperm (frontier_subset tree now)).length_le
      simp only [List.length_append, List.length_cons] at fits
      omega
  | succ fuel ih =>
    cases queue with
    | nil => exact ⟨[], rfl, by simpa using now⟩
    | cons a queue =>
      have later : all.length ≤ fuel + (visited ++ [a]).length := by
        simp only [List.length_append, List.length_singleton]
        omega
      obtain ⟨rest, walked, final⟩ := ih (frontier_step tree now) later
      refine ⟨a :: rest, ?_, ?_⟩
      · rw [walk, walked]
        rfl
      · rwa [List.append_assoc] at final

/-- The walk from the start visits each node below it once, and after its parent. -/
theorem walk_start (tree : Branching children start all) {fuel : Nat}
    (enough : all.length ≤ fuel) : ∃ order, walk children fuel [start] = some order ∧
      order.Nodup ∧ start ∈ order ∧ (∀ a ∈ order, ∀ c ∈ children a, c ∈ order) ∧
      Ordered children start order := by
  obtain ⟨order, walked, final⟩ := walk_of_frontier tree (frontier_start children start) enough
  refine ⟨order, walked, ?_, ?_, fun a mem c child => ?_, ?_⟩
  · simpa using final.nodup
  · simpa using final.start_mem
  · simpa using final.closed a (by simpa using mem) c child
  · simpa using final.ordered

end Walk

end BreadthFirst
