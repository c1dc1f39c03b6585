import PennCloud.StorageHandler

/-!
# The objects of a handler

The map from ids has an object of each of its ids, and a new object is put where there
is none. Whatever a handler does keeps it so.
-/

namespace HandlerObjects

open Text UnorderedMap StorageMetadata StorageHandler
open Pattern (matchWhole)

structure Tidy (h : Handler) : Prop where
  bounded : ∀ p d, h.memory.lookup p = some d → p < h.nextPtr
  registered : ∀ id p, h.directories.lookup id = some p →
    ∃ d, h.memory.lookup p = some d ∧ d.id = id

theorem tidy_new (usr : Str) (fd : Int) (text : Str) :
    Tidy { usr := usr, backendFd := fd, metadataStr := text } := ⟨nofun, nofun⟩

section Operations
variable {h h' : Handler} {env : Env}

/-- No two ids have one object. -/
theorem Tidy.distinct (tidy : Tidy h) {a b : Nat} {p : Ptr} (first : h.directories.lookup a = some p)
    (second : h.directories.lookup b = some p) : a = b := by
  obtain ⟨d, object, rfl⟩ := tidy.registered a p first
  obtain ⟨e, object', rfl⟩ := tidy.registered b p second
  cases object.symm.trans object'
  rfl

theorem Tidy.update {p : Option Ptr} {f : Dirent → Dirent} (tidy : Tidy h)
    (updated : h.update p f = some h') (keeps : ∀ d, (f d).id = d.id) : Tidy h' := by
  obtain ⟨q, rfl, found⟩ := Option.bind_eq_some_iff.mp updated
  obtain ⟨d, object, rfl⟩ := Option.map_eq_some_iff.mp found
  refine ⟨fun other e stored => ?_, fun id p known => ?_⟩
  · by_cases same : other = q
    · subst same
      exact tidy.bounded other d object
    · exact tidy.bounded other e ((AList.lookup_insert_ne same).symm.trans stored)
  · obtain ⟨e, stored, ident⟩ := tidy.registered id p known
    by_cases same : p = q
    · subst same
      cases object.symm.trans stored
      exact ⟨f d, AList.lookup_insert _, (keeps d).trans ident⟩
    · exact ⟨e, (AList.lookup_insert_ne same).trans stored, ident⟩

/-- A new object for an id, whatever the map has for the id. -/
theorem tidy_allocate {d : Dirent} (bounded : ∀ p e, h.memory.lookup p = some e → p < h.nextPtr)
    (others : ∀ id p, id ≠ d.id → h.directories.lookup id = some p →
      ∃ e, h.memory.lookup p = some e ∧ e.id = id) :
    Tidy { (h.allocate d).1 with directories := h.directories.insert d.id (h.allocate d).2 } := by
  refine ⟨fun other e stored => ?_, fun id p known => ?_⟩
  · by_cases same : other = h.nextPtr
    · rw [same]
      exact Nat.lt_succ_self _
    · exact Nat.lt_succ_of_lt (bounded other e ((AList.lookup_insert_ne same).symm.trans stored))
  · by_cases same : id = d.id
    · subst same
      cases (AList.lookup_insert h.directories).symm.trans known
      exact ⟨d, AList.lookup_insert _, rfl⟩
    · obtain ⟨e, stored, ident⟩ := others id p same ((AList.lookup_insert_ne same).symm.trans known)
      have other : p ≠ h.nextPtr := Nat.ne_of_lt (bounded p e stored)
      exact ⟨e, (AList.lookup_insert_ne other).trans stored, ident⟩

/-- An object is freed whose id is not in the map any more. -/
theorem Tidy.free (tidy : Tidy h) {id : Nat} {q : Option Ptr}
    (was : h.directories.lookup id = q) :
    Tidy { h.free q with directories := h.directories.erase id } := by
  cases q with
  | none =>
    refine ⟨tidy.bounded, fun other p known => ?_⟩
    by_cases same : other = id
    · rw [same, AList.lookup_erase] at known
      cases known
    · exact tidy.registered other p ((AList.lookup_erase_ne same).symm.trans known)
  | some q =>
    refine ⟨fun p d stored => ?_, fun other p known => ?_⟩
    · by_cases same : p = q
      · rw [same, Handler.free, AList.lookup_erase] at stored
        cases stored
      · exact tidy.bounded p d ((AList.lookup_erase_ne same).symm.trans stored)
    · by_cases same : other = id
      · rw [same, AList.lookup_erase] at known
        cases known
      · have old := (AList.lookup_erase_ne same).symm.trans known
        obtain ⟨d, stored, ident⟩ := tidy.registered other p old
        have apart : p ≠ q := by
          rintro rfl
          exact same (tidy.distinct old was)
        exact ⟨d, (AList.lookup_erase_ne apart).trans stored, ident⟩

theorem Tidy.getEntry {p : Option Ptr} {name : Str} {r : Option Ptr × Handler} (tidy : Tidy h)
    (got : h.getEntry p name = some r) : Tidy r.2 := by
  obtain ⟨d, object, got⟩ := Option.bind_eq_some_iff.mp got
  split at got
  · cases got
    exact tidy
  · obtain ⟨h', added, rfl⟩ := Option.map_eq_some_iff.mp got
    exact tidy.update added fun _ => rfl

theorem Tidy.walk {parent : Option Ptr} {relativePath token path : Str} {found : Found}
    (tidy : Tidy h) (walked : walk h parent relativePath token path = some found) :
    Tidy found.handler := by
  induction path generalizing parent relativePath token with
  | nil =>
    rw [StorageMetadata.walk] at walked
    obtain ⟨known, -, walked⟩ := Option.bind_eq_some_iff.mp walked
    split at walked
    · obtain ⟨r, got, rfl⟩ := Option.map_eq_some_iff.mp walked
      exact tidy.getEntry got
    · cases walked
      exact tidy
  | cons c path ih =>
    rw [StorageMetadata.walk] at walked
    split at walked
    · split at walked
      · exact ih walked
      · obtain ⟨d, -, walked⟩ := Option.bind_eq_some_iff.mp walked
        split at walked
        · exact ih walked
        · cases walked
          exact tidy
    · exact ih walked

theorem Tidy.validate {path : Str} {found : Found} (tidy : Tidy h)
    (looked : h.validatePathAndGetDir path = some found) : Tidy found.handler := by
  unfold Handler.validatePathAndGetDir at looked
  split at looked
  · cases looked
    exact tidy
  · exact tidy.walk looked

/-! Reading the metadata -/

theorem Tidy.findOrCreate {id : Nat} {name : Str} {isFile : Bool} (tidy : Tidy h) :
    Tidy (h.findOrCreateDirMapping id name isFile).1 := by
  unfold Handler.findOrCreateDirMapping
  split
  · exact tidy
  · exact tidy_allocate (d := { relativePath := name, id := id, isFile := isFile }) tidy.bounded
      fun id p _ known => tidy.registered id p known

theorem Tidy.parseDirEntry {parent : Ptr} {line : Str} (tidy : Tidy h)
    (parsed : h.parseDirEntry env parent line = some h') : Tidy h' := by
  unfold Handler.parseDirEntry at parsed
  split at parsed
  · obtain ⟨id, -, parsed⟩ := Option.bind_eq_some_iff.mp parsed
    obtain ⟨path, -, parsed⟩ := Option.bind_eq_some_iff.mp parsed
    obtain ⟨added, first, second⟩ := Option.bind_eq_some_iff.mp parsed
    exact (tidy.findOrCreate.update first fun _ => rfl).update second fun _ => rfl
  · cases parsed
    exact tidy

theorem Tidy.parseItems {parent : Ptr} {n : Nat} {lines : List Str} {r : Handler × List Str}
    (tidy : Tidy h) (parsed : parseItems env parent n lines h = some r) : Tidy r.1 := by
  induction n generalizing h lines with
  | zero =>
    cases parsed
    exact tidy
  | succ n ih =>
    cases lines with
    | nil =>
      cases parsed
      exact tidy
    | cons line lines =>
      obtain ⟨h', first, rest⟩ := Option.bind_eq_some_iff.mp parsed
      exact ih (tidy.parseDirEntry first) rest

theorem Tidy.parseDirectory {captures : List Str} {isRoot : Bool} {lines : List Str}
    {r : Handler × Ptr × List Str} (tidy : Tidy h)
    (parsed : h.parseDirectory env captures isRoot lines = some r) : Tidy r.1 := by
  unfold Handler.parseDirectory at parsed
  split at parsed
  · obtain ⟨id, -, parsed⟩ := Option.bind_eq_some_iff.mp parsed
    obtain ⟨count, -, parsed⟩ := Option.bind_eq_some_iff.mp parsed
    obtain ⟨marked, root, parsed⟩ := Option.bind_eq_some_iff.mp parsed
    obtain ⟨items, each, rfl⟩ := Option.map_eq_some_iff.mp parsed
    refine Tidy.parseItems ?_ each
    split at root
    · exact tidy.findOrCreate.update root fun _ => rfl
    · cases root
      exact tidy.findOrCreate
  · cases parsed

theorem Tidy.parseLines {fuel : Nat} {lines : List Str} (tidy : Tidy h)
    (parsed : parseLines env fuel lines h = some h') : Tidy h' := by
  induction fuel generalizing h lines with
  | zero =>
    cases parsed
    exact tidy
  | succ fuel ih =>
    cases lines with
    | nil =>
      cases parsed
      exact tidy
    | cons line lines =>
      rw [StorageMetadata.parseLines] at parsed
      split at parsed
      · obtain ⟨id, -, rest⟩ := Option.bind_eq_some_iff.mp parsed
        refine ih ?_ rest
        exact ⟨tidy.bounded, tidy.registered⟩
      · split at parsed
        · obtain ⟨r, first, rest⟩ := Option.bind_eq_some_iff.mp parsed
          have read := tidy.parseDirectory first
          refine ih ?_ rest
          exact ⟨read.bounded, read.registered⟩
        · split at parsed
          · obtain ⟨r, first, rest⟩ := Option.bind_eq_some_iff.mp parsed
            exact ih (tidy.parseDirectory first) rest
          · exact ih tidy parsed

theorem Tidy.parseMetadataFile {r : Bool × Handler} (tidy : Tidy h)
    (parsed : h.parseMetadataFile env = some r) : Tidy r.2 := by
  unfold Handler.parseMetadataFile at parsed
  split at parsed
  · cases parsed
    exact tidy
  · obtain ⟨h', read, rfl⟩ := Option.map_eq_some_iff.mp parsed
    exact tidy.parseLines read

/-! Changes of the tree -/

theorem Tidy.createEntry {parentDir : Option Ptr} {relativePath : Str} {id : Nat} {isFile : Bool}
    (tidy : Tidy h) (created : createEntry h parentDir relativePath id isFile = some h') :
    Tidy h' := by
  unfold StorageHandler.createEntry at created
  split at created
  · cases created
  · obtain ⟨added, first, created⟩ := Option.bind_eq_some_iff.mp created
    obtain ⟨linked, second, rfl⟩ := Option.map_eq_some_iff.mp created
    have freed := tidy.free (rfl : h.directories.lookup id = _)
    have made := tidy_allocate (h := h.free (h.directories.lookup id))
      (d := { relativePath := relativePath, id := id, isFile := isFile })
      (fun p e stored => freed.bounded p e stored) fun other p apart known => by
        refine freed.registered other p ((AList.lookup_erase_ne apart).trans ?_)
        revert known
        cases h.directories.lookup id <;> exact fun known => known
    have done := (made.update first fun _ => rfl).update second fun _ => rfl
    exact ⟨done.bounded, done.registered⟩

theorem Tidy.revertCreate {parentDir : Option Ptr} {relativePath : Str} {id : Nat}
    (tidy : Tidy h) (reverted : revertCreate h parentDir relativePath id = some h') : Tidy h' := by
  obtain ⟨removed, first, rfl⟩ := Option.map_eq_some_iff.mp reverted
  have freed := (tidy.update first fun _ => rfl).free (rfl : removed.directories.lookup id = _)
  exact ⟨freed.bounded, freed.registered⟩

theorem Tidy.renameEntry {parentDir curDir : Option Ptr} {relativePath newName : Str}
    (tidy : Tidy h)
    (renamed : renameEntry env h parentDir curDir relativePath newName = some h') : Tidy h' := by
  obtain ⟨path, -, renamed⟩ := Option.bind_eq_some_iff.mp renamed
  obtain ⟨named, first, renamed⟩ := Option.bind_eq_some_iff.mp renamed
  obtain ⟨removed, second, third⟩ := Option.bind_eq_some_iff.mp renamed
  exact ((tidy.update first fun _ => rfl).update second fun _ => rfl).update third fun _ => rfl

theorem Tidy.revertRename {parentDir curDir : Option Ptr} {relativePath newName : Str}
    (tidy : Tidy h) (reverted : revertRename h parentDir curDir relativePath newName = some h') :
    Tidy h' := by
  obtain ⟨named, first, reverted⟩ := Option.bind_eq_some_iff.mp reverted
  obtain ⟨removed, second, third⟩ := Option.bind_eq_some_iff.mp reverted
  exact ((tidy.update first fun _ => rfl).update second fun _ => rfl).update third fun _ => rfl

theorem Tidy.moveEntry {oldParentDir curEntry newDir : Option Ptr} {relativePath : Str}
    (tidy : Tidy h) (moved : moveEntry env h oldParentDir curEntry newDir relativePath = some h') :
    Tidy h' := by
  obtain ⟨path, -, moved⟩ := Option.bind_eq_some_iff.mp moved
  obtain ⟨linked, first, moved⟩ := Option.bind_eq_some_iff.mp moved
  obtain ⟨removed, second, third⟩ := Option.bind_eq_some_iff.mp moved
  exact ((tidy.update first fun _ => rfl).update second fun _ => rfl).update third fun _ => rfl

theorem Tidy.revertMove {oldParentDir curEntry newDir : Option Ptr} {relativePath : Str}
    (tidy : Tidy h) (reverted : revertMove h oldParentDir curEntry newDir relativePath = some h') :
    Tidy h' := by
  obtain ⟨linked, first, reverted⟩ := Option.bind_eq_some_iff.mp reverted
  obtain ⟨added, second, third⟩ := Option.bind_eq_some_iff.mp reverted
  exact ((tidy.update first fun _ => rfl).update second fun _ => rfl).update third fun _ => rfl

theorem Tidy.removeEntry {parentDir : Option Ptr} {relativePath : Str} {id : Nat} (tidy : Tidy h)
    (removed : removeEntry h parentDir relativePath id = some h') : Tidy h' := by
  obtain ⟨without, first, rfl⟩ := Option.map_eq_some_iff.mp removed
  have kept := tidy.update first fun _ => rfl
  refine ⟨kept.bounded, fun other p known => ?_⟩
  by_cases same : other = id
  · rw [same, AList.lookup_erase] at known
    cases known
  · exact kept.registered other p ((AList.lookup_erase_ne same).symm.trans known)

theorem update_directories {p : Option Ptr} {f : Dirent → Dirent}
    (updated : h.update p f = some h') : h'.directories = h.directories := by
  obtain ⟨q, rfl, found⟩ := Option.bind_eq_some_iff.mp updated
  obtain ⟨d, -, rfl⟩ := Option.map_eq_some_iff.mp found
  rfl

/-- The object of an entry that was taken out is freed. -/
theorem Tidy.freeRemoved {parentDir : Option Ptr} {relativePath : Str} {id : Nat} (tidy : Tidy h)
    (removed : StorageHandler.removeEntry h parentDir relativePath id = some h') (text : Str) :
    Tidy { h'.free (h.directories.lookup id) with metadataStr := text } := by
  obtain ⟨without, first, rfl⟩ := Option.map_eq_some_iff.mp removed
  have freed := (tidy.update first fun _ => rfl).free
    (congrArg (AList.lookup id) (update_directories first))
  revert freed
  cases h.directories.lookup id <;> exact fun freed => ⟨freed.bounded, freed.registered⟩

/-- An entry that was taken out is put back with its object. -/
theorem Tidy.revertRemove {parentDir : Option Ptr} {relativePath : Str} {id : Nat} {h'' : Handler}
    (tidy : Tidy h) (removed : StorageHandler.removeEntry h parentDir relativePath id = some h')
    (reverted : StorageHandler.revertRemove h' parentDir relativePath id
      (h.directories.lookup id) = some h'') : Tidy h'' := by
  have taken := tidy.removeEntry removed
  obtain ⟨without, first, rfl⟩ := Option.map_eq_some_iff.mp removed
  have kept := tidy.update first fun _ => rfl
  cases pointer : h.directories.lookup id with
  | none =>
    rw [pointer] at reverted
    exact taken.update reverted fun _ => rfl
  | some p =>
    rw [pointer] at reverted
    have back : Tidy { without with
        directories := (without.directories.erase id).insert id p } := by
      refine ⟨taken.bounded, fun other q known => ?_⟩
      by_cases same : other = id
      · subst same
        cases (AList.lookup_insert (without.directories.erase other)).symm.trans known
        exact kept.registered other p ((congrArg _ (update_directories first)).trans pointer)
      · exact taken.registered other q ((AList.lookup_insert_ne same).symm.trans known)
    exact back.update (f := Dirent.addEntry relativePath (some p)) reverted fun _ => rfl

end Operations

end HandlerObjects
