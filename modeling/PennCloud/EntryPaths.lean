import PennCloud.PathResolution
import PennCloud.StorageHandler

/-!
# An entry is found by its own path

The path of an entry is the name of the root folder and the names that lead to the
entry, each after a slash. Below the root folder it is found again where these names
are not empty and have no slash.
-/

namespace StorageTree

open Text UnorderedMap StorageMetadata StorageHandler MetadataParsing

/-- Names with a slash before each. -/
def slashed (names : List Str) : Str := names.flatMap fun name => '/' :: name

/-- A component of a path. -/
def Plain (name : Str) : Prop := name ≠ [] ∧ '/' ∉ name

instance (name : Str) : Decidable (Plain name) := inferInstanceAs (Decidable (_ ∧ _))

@[simp] theorem slashed_nil : slashed [] = [] := rfl

@[simp] theorem slashed_cons (name : Str) (names : List Str) :
    slashed (name :: names) = '/' :: (name ++ slashed names) := rfl

theorem slashed_append (first second : List Str) :
    slashed (first ++ second) = slashed first ++ slashed second := List.flatMap_append

theorem plain_of_named {t : Tree} (named : Named t) {id : Nat} {n : Node} (here : t.node id = some n) :
    Plain n.name :=
  ⟨(named id n here).1, fun slash => ((named id n here).2 '/' slash).2 rfl⟩

/-! The way along plain names -/

theorem way_word {name : Str} (token : Str) (noSlash : '/' ∉ name) :
    way token name = ([], token ++ name) := by
  induction name generalizing token with
  | nil => simp [way]
  | cons c name ih =>
    obtain ⟨here, later⟩ := not_or.mp (List.mem_cons.not.mp noSlash)
    rw [way, if_neg (Ne.symm here), ih _ later]
    simp

theorem way_word_slash {name : Str} (token rest : Str) (noSlash : '/' ∉ name)
    (nonempty : token ++ name ≠ []) : way token (name ++ '/' :: rest) =
      ((token ++ name) :: (way [] rest).1, (way [] rest).2) := by
  induction name generalizing token with
  | nil =>
    rw [List.append_nil] at nonempty
    rw [List.nil_append, way, if_pos rfl, if_neg nonempty, List.append_nil]
  | cons c name ih =>
    obtain ⟨here, later⟩ := not_or.mp (List.mem_cons.not.mp noSlash)
    rw [List.cons_append, way, if_neg (Ne.symm here), ih _ later (by simp)]
    simp

/-- The names on the way of any path are plain. -/
theorem way_plain (token rest : Str) (noSlash : '/' ∉ token) :
    (∀ name ∈ (way token rest).1, Plain name) ∧ '/' ∉ (way token rest).2 := by
  induction rest generalizing token with
  | nil => exact ⟨List.forall_mem_nil _, noSlash⟩
  | cons c rest ih =>
    rw [way]
    split
    · split
      · exact ih [] List.not_mem_nil
      · rename_i named
        obtain ⟨later, last⟩ := ih [] List.not_mem_nil
        exact ⟨List.forall_mem_cons.mpr ⟨⟨named, noSlash⟩, later⟩, last⟩
    · rename_i slash
      exact ih (token ++ [c]) (by simp [noSlash, Ne.symm slash])

/-- A path without names has slashes only. -/
theorem all_slashes (token rest : Str) (none : (way token rest).1 = [])
    (nothing : (way token rest).2 = []) : token = [] ∧ ∀ c ∈ rest, c = '/' := by
  induction rest generalizing token with
  | nil => exact ⟨nothing, List.forall_mem_nil _⟩
  | cons c rest ih =>
    rw [way] at none nothing
    split at none
    · rename_i slash
      rw [if_pos slash] at nothing
      split at none
      · rename_i empty
        rw [if_pos empty] at nothing
        exact ⟨empty, List.forall_mem_cons.mpr ⟨slash, (ih [] none nothing).2⟩⟩
      · cases none
    · rename_i other
      rw [if_neg other] at nothing
      exact absurd (ih (token ++ [c]) none nothing).1 (by simp)

theorem way_slashed {names : List Str} (plain : ∀ name ∈ names, Plain name) (rest : Str) :
    way [] (slashed names ++ '/' :: rest) = (names ++ (way [] rest).1, (way [] rest).2) := by
  induction names with
  | nil => rw [slashed_nil, List.nil_append, way, if_pos rfl, if_pos rfl, List.nil_append]
  | cons name names ih =>
    obtain ⟨⟨nonempty, noSlash⟩, later⟩ := List.forall_mem_cons.mp plain
    have split : slashed (name :: names) ++ '/' :: rest =
        '/' :: (name ++ (slashed names ++ '/' :: rest)) := by simp
    rw [split, way, if_pos rfl, if_pos rfl]
    cases names with
    | nil =>
      rw [slashed_nil, List.nil_append, way_word_slash [] rest noSlash nonempty]
      rfl
    | cons next names =>
      have tail := ih later
      have skip : way [] (slashed (next :: names) ++ '/' :: rest) =
          way [] (next ++ (slashed names ++ '/' :: rest)) := by
        rw [slashed_cons, List.cons_append, way, if_pos rfl, if_pos rfl, List.append_assoc]
      rw [slashed_cons, List.cons_append, List.append_assoc,
        way_word_slash [] _ noSlash nonempty, ← skip, tail]
      rfl

theorem way_slashed_last {names : List Str} {last : Str} (plain : ∀ name ∈ names, Plain name)
    (noSlash : '/' ∉ last) : way [] (slashed (names ++ [last])) = (names, last) := by
  have split : slashed (names ++ [last]) = slashed names ++ '/' :: last := by
    simp [slashed_append]
  rw [split, way_slashed plain, way_word [] noSlash]
  simp

/-! The names of an entry -/

section Names
variable {t : Tree}

/-- The path of an entry spells the names that lead to it. -/
theorem Tree.PathOf.names {id : Nat} {path : Str} (isPath : t.PathOf id path) {top : Node}
    (root : t.node t.root = some top) :
    ∃ names, t.Leads t.root names id ∧ path = '/' :: (top.name ++ slashed names) := by
  induction isPath with
  | root here =>
    cases here.symm.trans root
    exact ⟨[], .here _, by simp⟩
  | @entry id q n path here parent above ih =>
    obtain ⟨names, leads, rfl⟩ := ih
    exact ⟨names ++ [n.name], leads.append (.step here parent (.here id)), by simp [slashed_append]⟩

/-- The last of the names that lead to another entry is that of the entry. -/
theorem Tree.Leads.last_name {a b : Nat} {names : List Str} (leads : t.Leads a names b)
    (below : b ≠ a) : ∃ init n p, names = init ++ [n.name] ∧ t.node b = some n ∧
      n.parent = some p ∧ t.Leads a init p := by
  rcases List.eq_nil_or_concat names with rfl | ⟨init, last, rfl⟩
  · cases leads
    exact absurd rfl below
  · rw [List.concat_eq_append] at leads
    obtain ⟨p, way, final⟩ := leads.of_append
    obtain ⟨n, here, parent, rfl⟩ := final.last
    exact ⟨init, n, p, List.concat_eq_append, here, parent, way⟩

theorem belowRoot_path {name : Str} (noSlash : '/' ∉ name) {names : List Str}
    (nonempty : names ≠ []) : belowRoot ('/' :: (name ++ slashed names)) = some (slashed names) := by
  obtain ⟨first, names, rfl⟩ := List.exists_cons_of_ne_nil nonempty
  have here : '/' ∈ name ++ slashed (first :: names) := by simp
  rw [belowRoot, if_pos here, List.dropWhile_append_of_pos fun c mem => ?_]
  · simp
  · simpa using fun same : c = '/' => noSlash (same ▸ mem)

/-- The names that lead to an entry are names of the tree. -/
theorem Tree.Leads.mem {a b : Nat} {names : List Str} (leads : t.Leads a names b) {name : Str}
    (mem : name ∈ names) : ∃ c n, t.node c = some n ∧ n.name = name ∧ n.parent ≠ none := by
  induction leads with
  | here id => cases mem
  | step child parent rest ih =>
    rcases List.mem_cons.mp mem with rfl | later
    · exact ⟨_, _, child, rfl, by rw [parent]; nofun⟩
    · exact ih later

end Names

section Own
variable {t : Tree} {h : Handler} {ptr : Nat → Ptr}

theorem not_trailing_slashed {init : List Str} {last : Str} (plain : ∀ name ∈ init, Plain name)
    (named : Plain last) : ¬ Trailing (slashed (init ++ [last])) := by
  rw [← way_eq_nil, way_slashed_last plain named.2]
  exact named.1

theorem components_slashed {names : List Str} (plain : ∀ name ∈ names, Plain name) :
    components (slashed names) = names := by
  rcases List.eq_nil_or_concat names with rfl | ⟨init, last, rfl⟩
  · rfl
  · rw [List.concat_eq_append] at plain ⊢
    obtain ⟨before, named⟩ := List.forall_mem_append.mp plain
    have final : Plain last := named last (List.mem_singleton_self last)
    rw [components_of_named (not_trailing_slashed before final), way_slashed_last before final.2]

/-- The own path of an entry, where all names are plain. -/
theorem Tree.PathOf.own (wf : t.Rooted) (plain : ∀ id n, t.node id = some n → Plain n.name)
    {id : Nat} {path : Str} (isPath : t.PathOf id path) (below : id ≠ t.root) :
    ∃ own, belowRoot path = some own ∧ t.EntryAt own id := by
  obtain ⟨name, top⟩ := wf.root
  obtain ⟨names, leads, rfl⟩ := isPath.names top
  obtain ⟨init, n, p, rfl, here, parent, -⟩ := leads.last_name below
  have each : ∀ name ∈ init ++ [n.name], Plain name := by
    intro name mem
    obtain ⟨c, m, node, rfl, -⟩ := leads.mem mem
    exact plain c m node
  have before : ∀ name ∈ init, Plain name := fun name mem => each name (List.mem_append_left _ mem)
  refine ⟨_, belowRoot_path (plain _ _ top).2 (by simp), entryAt_of_named ?_ ?_⟩
  · exact not_trailing_slashed before (plain _ _ here)
  · rw [components_slashed each]
    exact leads

end Own

end StorageTree
