import Mathlib.Data.List.AList

/-!
# Hash maps with an unspecified iteration order

A hash map is an association list without duplicate keys. A loop over it sees
its entries in some order: an iteration gives, for each loop of the program, a
rearrangement of whatever entries the map holds there.
-/

namespace UnorderedMap

universe u v

abbrev UMap (K : Type u) (V : Type v) := AList fun _ : K => V

variable {K : Type u} {V : Type v}

/-- The order in which the loops of a computation visit their maps. `Site` tells the
loops apart, so that no two of them are tied to one order. -/
structure Iteration (Site : Type) where
  order : Site → {α : Type} → List α → List α
  perm : ∀ (site : Site) {α : Type} (l : List α), (order site l).Perm l

def Iteration.stored (Site : Type) : Iteration Site := ⟨fun _ _ l => l, fun _ _ l => .refl l⟩

section Entries
variable {K V : Type} {Site : Type}

/-- The pairs of the map in the order in which the loop at `site` visits them. -/
def Iteration.pairs (it : Iteration Site) (site : Site) (m : UMap K V) : List (K × V) :=
  it.order site (m.entries.map fun e => (e.1, e.2))

theorem map_fst_entries (m : UMap K V) :
    (m.entries.map fun e => (e.1, e.2)).map Prod.fst = m.keys := by
  rw [List.map_map]
  rfl

theorem Iteration.nodup_keys (it : Iteration Site) (site : Site) (m : UMap K V) :
    ((it.pairs site m).map Prod.fst).Nodup := by
  have h : ((it.pairs site m).map Prod.fst).Perm m.keys :=
    map_fst_entries m ▸ (it.perm site _).map Prod.fst
  exact h.nodup_iff.mpr m.keys_nodup

theorem Iteration.length_pairs (it : Iteration Site) (site : Site) (m : UMap K V) :
    (it.pairs site m).length = m.keys.length := by
  rw [← map_fst_entries, List.length_map]
  exact (it.perm site _).length_eq

theorem Iteration.mem_pairs [DecidableEq K] (it : Iteration Site) (site : Site) (m : UMap K V)
    {k : K} {v : V} : (k, v) ∈ it.pairs site m ↔ m.lookup k = some v := by
  rw [Iteration.pairs, (it.perm site _).mem_iff, ← Option.mem_def, AList.mem_lookup_iff]
  constructor
  · intro h
    obtain ⟨⟨a, b⟩, he, heq⟩ := List.mem_map.mp h
    cases heq
    exact he
  · exact fun h => List.mem_map.mpr ⟨⟨k, v⟩, h, rfl⟩

end Entries

section Operators
variable [DecidableEq K]

/-- `operator[]`, which inserts a default value for an absent key. -/
def touch (m : UMap K V) (k : K) (initial : V) : UMap K V :=
  match m.lookup k with
  | some _ => m
  | none => m.insert k initial

/-- The value `operator[]` refers to. -/
def at' (m : UMap K V) (k : K) (initial : V) : V := (m.lookup k).getD initial

theorem lookup_touch_self (m : UMap K V) (k : K) (initial : V) :
    (touch m k initial).lookup k = some (at' m k initial) := by
  unfold touch at'
  cases h : m.lookup k with
  | none => simp
  | some v => simpa using h

theorem lookup_touch_ne (m : UMap K V) {k k' : K} (initial : V) (h : k' ≠ k) :
    (touch m k initial).lookup k' = m.lookup k' := by
  unfold touch
  cases m.lookup k with
  | none => exact AList.lookup_insert_ne h
  | some v => rfl

end Operators

section Nested
variable {A : Type u} {B : Type v} {C : Type} [DecidableEq A] [DecidableEq B]

/-- The value two keys lead to in a map of maps. -/
def find2 (m : UMap A (UMap B C)) (a : A) (b : B) : Option C :=
  (m.lookup a).bind fun inner => inner.lookup b

/-- Set the value two keys lead to. -/
def set2 (m : UMap A (UMap B C)) (a : A) (b : B) (c : C) : UMap A (UMap B C) :=
  m.insert a ((at' m a ∅).insert b c)

theorem lookup_at' (m : UMap A (UMap B C)) (a : A) (b : B) :
    (at' m a ∅).lookup b = find2 m a b := by
  unfold at' find2
  cases m.lookup a with
  | none => rfl
  | some inner => rfl

@[simp] theorem find2_empty (a : A) (b : B) : find2 (∅ : UMap A (UMap B C)) a b = none := rfl

/-- An empty inner map is no content. -/
theorem find2_touch (m : UMap A (UMap B C)) (a a' : A) (b : B) :
    find2 (touch m a ∅) a' b = find2 m a' b := by
  by_cases h : a' = a
  · subst h
    rw [find2, lookup_touch_self]
    exact lookup_at' m a' b
  · rw [find2, find2, lookup_touch_ne m ∅ h]

theorem find2_set2 (m : UMap A (UMap B C)) (a a' : A) (b b' : B) (c : C) :
    find2 (set2 m a b c) a' b' = if a' = a ∧ b' = b then some c else find2 m a' b' := by
  by_cases ha : a' = a
  · subst ha
    by_cases hb : b' = b
    · subst hb
      simp [find2, set2]
    · simp only [hb, and_false, if_false]
      rw [find2, set2, AList.lookup_insert, Option.bind_some, AList.lookup_insert_ne hb]
      exact lookup_at' m a' b'
  · simp only [ha, false_and, if_false]
    rw [find2, set2, AList.lookup_insert_ne ha, find2]

end Nested

end UnorderedMap
