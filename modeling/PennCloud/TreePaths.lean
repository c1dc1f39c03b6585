import PennCloud.StorageTree

/-!
# Paths to the entries of a tree

A path is read from the root folder down, one name after the other; empty names are
passed over. The lookup of a handler finds the entry that the path leads to in the
tree that it holds.
-/

namespace StorageTree

open Text UnorderedMap StorageMetadata

/-- The names lead from one entry to another. -/
inductive Tree.Leads (t : Tree) : Nat → List Str → Nat → Prop where
  | here (id : Nat) : t.Leads id [] id
  | step {a b c : Nat} {n : Node} {names : List Str} (child : t.node b = some n)
      (parent : n.parent = some a) (rest : t.Leads b names c) : t.Leads a (n.name :: names) c

/-- The names of a path. -/
def components (path : Str) : List Str := (split path '/').filter (· ≠ [])

/-- The entry at a path, which is that of the root folder or ends without a slash. -/
def Tree.EntryAt (t : Tree) (path : Str) (id : Nat) : Prop :=
  path = "/".toList ∧ id = t.root ∨
    path ≠ [] ∧ path.getLast? ≠ some '/' ∧ t.Leads t.root (components path) id

section Lookup
variable {t : Tree} {h : Handler} {ptr : Nat → Ptr}

/-- A directory has the entries of the tree. -/
theorem Laid.entry (wf : t.Rooted) (laid : Laid t h ptr) {a b : Nat} {n : Node}
    (child : t.node b = some n) (parent : n.parent = some a) :
    ∃ d, h.deref (some (ptr a)) = some d ∧ d.entries.lookup n.name = some (some (ptr b)) := by
  obtain ⟨o, above, directory⟩ := wf.directory child parent
  obtain ⟨d, object, shows⟩ := laid a o above
  exact ⟨d, object, (shows.entries directory n.name _).mpr ⟨b, n, child, parent, rfl, rfl⟩⟩

theorem getLast?_append_slash {token rest : Str} (last : (token ++ '/' :: rest).getLast? ≠ some '/') :
    rest ≠ [] ∧ rest.getLast? ≠ some '/' := by
  rw [List.getLast?_append_of_ne_nil _ (List.cons_ne_nil _ _)] at last
  cases rest with
  | nil => exact absurd rfl last
  | cons c cs =>
    rw [List.getLast?_cons_cons] at last
    exact ⟨List.cons_ne_nil c cs, last⟩

/-- The last name of a path. -/
theorem walk_last (h : Handler) (parent : Option Ptr) (relativePath : Str) {token : Str}
    (nonempty : token ≠ []) : walk h parent relativePath token [] =
      ((h.deref parent).map fun d => d.hasEntry token).bind fun known =>
        if known then (h.getEntry parent token).map fun r => ⟨true, parent, r.1, token, r.2⟩
        else some ⟨false, parent, none, token, h⟩ := by
  rw [walk]
  simp only [if_neg nonempty]

/-- The walk along a path that does not end with a slash. -/
theorem walk_leads (wf : t.Rooted) (laid : Laid t h ptr) {id : Nat} (rest : Str) {token : Str}
    {a : Nat} (relativePath : Str) (nonempty : token ++ rest ≠ [])
    (last : (token ++ rest).getLast? ≠ some '/')
    (leads : t.Leads a ((splitFrom '/' token rest).filter (· ≠ [])) id) :
    ∃ n p, t.node id = some n ∧ n.parent = some p ∧
      walk h (some (ptr a)) relativePath token rest =
        some ⟨true, some (ptr p), some (ptr id), n.name, h⟩ := by
  induction rest generalizing token a relativePath with
  | nil =>
    rw [List.append_nil] at nonempty
    rw [splitFrom, if_neg nonempty, List.filter_singleton, decide_eq_true nonempty] at leads
    cases leads with
    | @step _ _ _ n _ child parent rest =>
      cases rest with
      | here =>
        obtain ⟨d, object, entry⟩ := laid.entry wf child parent
        refine ⟨_, a, child, parent, ?_⟩
        rw [walk_last _ _ _ nonempty]
        simp only [object, Option.map_some, Option.bind_some, Dirent.hasEntry, entry,
          Option.isSome_some, if_true, Handler.getEntry]
  | cons c rest ih =>
    rw [splitFrom] at leads
    rw [walk]
    by_cases slash : c = '/'
    · subst slash
      obtain ⟨later, ended⟩ := getLast?_append_slash last
      rw [if_pos rfl, List.filter_cons] at leads
      rw [if_pos rfl]
      by_cases skipped : token = []
      · rw [if_neg (by simpa using skipped)] at leads
        rw [if_pos skipped]
        exact ih relativePath later ended leads
      · rw [if_pos (by simpa using skipped)] at leads
        rw [if_neg skipped]
        cases leads with
        | step child parent rest' =>
          obtain ⟨d, object, entry⟩ := laid.entry wf child parent
          simp only [object, Option.bind_some, entry]
          exact ih _ later ended rest'
    · rw [if_neg slash] at leads
      rw [if_neg slash]
      exact ih relativePath (by simp) (by simpa using last) leads

/-- The lookup of an existing path. -/
theorem validate_entryAt (wf : t.Rooted) (holds : Holds t h ptr) {path : Str} {id : Nat}
    (at_path : t.EntryAt path id) :
    h.validatePathAndGetDir path = some ⟨true, some (ptr id), some (ptr id), [], h⟩ ∧ id = t.root ∨
    ∃ n p, t.node id = some n ∧ n.parent = some p ∧ h.validatePathAndGetDir path =
      some ⟨true, some (ptr p), some (ptr id), n.name, h⟩ := by
  rcases at_path with ⟨rfl, rfl⟩ | ⟨nonempty, last, leads⟩
  · refine .inl ⟨?_, rfl⟩
    rw [Handler.validatePathAndGetDir, if_pos rfl, holds.root]
  · have notRoot : path ≠ "/".toList := by
      rintro rfl
      exact last (by decide +kernel)
    obtain ⟨n, p, here, parent, walked⟩ := walk_leads wf holds.laid path []
      (by simpa using nonempty : [] ++ path ≠ []) last leads
    refine .inr ⟨n, p, here, parent, ?_⟩
    rw [Handler.validatePathAndGetDir, if_neg notRoot, holds.root, walked]

end Lookup

end StorageTree
