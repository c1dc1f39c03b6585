import PennCloud.StorageHandler

/-!
# The user and the text of a handler

Reading the metadata, looking up a path and changing the tree leave the handler its
user and the text that it has read.
-/

namespace HandlerText

open Text UnorderedMap StorageMetadata StorageHandler

/-- The user and the text of a handler are those of another one. -/
structure SameText (h h' : Handler) : Prop where
  usr : h'.usr = h.usr
  metadataStr : h'.metadataStr = h.metadataStr

section Text
variable {h h' h'' : Handler} {env : Env}

theorem SameText.refl (h : Handler) : SameText h h := ⟨rfl, rfl⟩

theorem SameText.trans (first : SameText h h') (second : SameText h' h'') : SameText h h'' :=
  ⟨second.usr.trans first.usr, second.metadataStr.trans first.metadataStr⟩

theorem sameText_update {p : Option Ptr} {f : Dirent → Dirent} (updated : h.update p f = some h') :
    SameText h h' := by
  obtain ⟨q, -, found⟩ := Option.bind_eq_some_iff.mp updated
  obtain ⟨d, -, rfl⟩ := Option.map_eq_some_iff.mp found
  exact ⟨rfl, rfl⟩

theorem sameText_findOrCreateDirMapping (h : Handler) (id : Nat) (name : Str) (isFile : Bool) :
    SameText h (h.findOrCreateDirMapping id name isFile).1 := by
  rw [Handler.findOrCreateDirMapping]
  split
  · exact .refl h
  · exact ⟨rfl, rfl⟩

theorem sameText_parseDirEntry {parent : Ptr} {line : Str}
    (parsed : h.parseDirEntry env parent line = some h') : SameText h h' := by
  rw [Handler.parseDirEntry] at parsed
  split at parsed
  · obtain ⟨number, -, parsed⟩ := Option.bind_eq_some_iff.mp parsed
    obtain ⟨path, -, parsed⟩ := Option.bind_eq_some_iff.mp parsed
    obtain ⟨above, added, linked⟩ := Option.bind_eq_some_iff.mp parsed
    exact ((sameText_findOrCreateDirMapping ..).trans (sameText_update added)).trans
      (sameText_update linked)
  · cases parsed
    exact .refl h

theorem sameText_parseItems {parent : Ptr} {count : Nat} {lines : List Str}
    {r : Handler × List Str} (parsed : parseItems env parent count lines h = some r) :
    SameText h r.1 := by
  induction count generalizing lines h with
  | zero =>
    cases parsed
    exact .refl h
  | succ count ih =>
    cases lines with
    | nil =>
      cases parsed
      exact .refl h
    | cons line lines =>
      obtain ⟨next, one, rest⟩ := Option.bind_eq_some_iff.mp parsed
      exact (sameText_parseDirEntry one).trans (ih rest)

theorem sameText_parseDirectory {captures : List Str} {isRoot : Bool} {lines : List Str}
    {r : Handler × Ptr × List Str} (parsed : h.parseDirectory env captures isRoot lines = some r) :
    SameText h r.1 := by
  unfold Handler.parseDirectory at parsed
  split at parsed
  next path number items =>
    obtain ⟨id, -, parsed⟩ := Option.bind_eq_some_iff.mp parsed
    obtain ⟨count, -, parsed⟩ := Option.bind_eq_some_iff.mp parsed
    obtain ⟨marked, marks, parsed⟩ := Option.bind_eq_some_iff.mp parsed
    obtain ⟨listed, read, rfl⟩ := Option.map_eq_some_iff.mp parsed
    have created := sameText_findOrCreateDirMapping h id (lastName path) false
    have top : SameText (h.findOrCreateDirMapping id (lastName path) false).1 marked := by
      cases isRoot with
      | true => exact sameText_update marks
      | false =>
        cases marks
        exact .refl _
    have rest := sameText_parseItems read
    constructor
    · exact (rest.usr.trans top.usr).trans created.usr
    · exact (rest.metadataStr.trans top.metadataStr).trans created.metadataStr
  · cases parsed

theorem sameText_parseLines {fuel : Nat} {lines : List Str}
    (parsed : parseLines env fuel lines h = some h') : SameText h h' := by
  induction fuel generalizing lines h with
  | zero =>
    cases parsed
    exact .refl _
  | succ fuel ih =>
    cases lines with
    | nil =>
      cases parsed
      exact .refl _
    | cons line lines =>
      rw [parseLines] at parsed
      split at parsed
      · obtain ⟨id, -, rest⟩ := Option.bind_eq_some_iff.mp parsed
        have known : SameText h { h with latestId := some id } := ⟨rfl, rfl⟩
        exact known.trans (ih rest)
      · split at parsed
        · obtain ⟨r, read, rest⟩ := Option.bind_eq_some_iff.mp parsed
          have rooted : SameText r.1 { r.1 with root := some r.2.1 } := ⟨rfl, rfl⟩
          exact (sameText_parseDirectory read).trans (rooted.trans (ih rest))
        · split at parsed
          · obtain ⟨r, read, rest⟩ := Option.bind_eq_some_iff.mp parsed
            exact (sameText_parseDirectory read).trans (ih rest)
          · exact ih parsed

theorem sameText_parseMetadataFile {r : Bool × Handler}
    (parsed : h.parseMetadataFile env = some r) : SameText h r.2 := by
  rw [Handler.parseMetadataFile] at parsed
  split at parsed
  · cases parsed
    exact .refl h
  · obtain ⟨h', read, rfl⟩ := Option.map_eq_some_iff.mp parsed
    exact sameText_parseLines read

theorem sameText_createEntry {parentDir : Option Ptr} {name : Str} {id : Nat} {isFile : Bool}
    (made : createEntry h parentDir name id isFile = some h') : SameText h h' := by
  rw [createEntry] at made
  split at made
  · cases made
  · obtain ⟨listed, added, made⟩ := Option.bind_eq_some_iff.mp made
    obtain ⟨linked, parent, rfl⟩ := Option.map_eq_some_iff.mp made
    have freed : SameText h (h.free (h.directories.lookup id)) := by
      cases h.directories.lookup id with
      | none => exact .refl h
      | some p => exact ⟨rfl, rfl⟩
    have above := sameText_update added
    have below := sameText_update parent
    exact ⟨(below.usr.trans above.usr).trans freed.usr,
      (below.metadataStr.trans above.metadataStr).trans freed.metadataStr⟩

/-- An entry is made in a directory, and counted. -/
theorem createEntry_parent {parentDir : Option Ptr} {relativePath : Str} {id : Nat} {isFile : Bool}
    (made : createEntry h parentDir relativePath id isFile = some h') :
    parentDir.isNone = false ∧ h'.latestId = h.latestId.map (· + 1) := by
  obtain ⟨-, made⟩ := Option.ite_none_left_eq_some.mp made
  obtain ⟨linked, first, made⟩ := Option.bind_eq_some_iff.mp made
  obtain ⟨last, second, rfl⟩ := Option.map_eq_some_iff.mp made
  obtain ⟨p, rfl, first⟩ := Option.bind_eq_some_iff.mp first
  obtain ⟨d, -, rfl⟩ := Option.map_eq_some_iff.mp first
  obtain ⟨q, -, second⟩ := Option.bind_eq_some_iff.mp second
  obtain ⟨e, -, rfl⟩ := Option.map_eq_some_iff.mp second
  refine ⟨rfl, congrArg (Option.map (· + 1)) ?_⟩
  cases h.directories.lookup id <;> rfl

theorem sameText_walk {parent : Option Ptr} {relativePath token path : Str} {found : Found}
    (walked : walk h parent relativePath token path = some found) : SameText h found.handler := by
  induction path generalizing parent relativePath token with
  | nil =>
    obtain ⟨known, -, walked⟩ := Option.bind_eq_some_iff.mp walked
    split at walked
    · obtain ⟨r, got, rfl⟩ := Option.map_eq_some_iff.mp walked
      obtain ⟨d, -, got⟩ := Option.bind_eq_some_iff.mp got
      split at got
      · cases got
        exact .refl h
      · obtain ⟨h', added, rfl⟩ := Option.map_eq_some_iff.mp got
        exact sameText_update added
    · cases walked
      exact .refl h
  | cons c path ih =>
    rw [walk] at walked
    split at walked
    · split at walked
      · exact ih walked
      · obtain ⟨d, -, walked⟩ := Option.bind_eq_some_iff.mp walked
        split at walked
        · exact ih walked
        · cases walked
          exact .refl h
    · exact ih walked

theorem sameText_validate {path : Str} {found : Found}
    (looked : h.validatePathAndGetDir path = some found) : SameText h found.handler := by
  rw [Handler.validatePathAndGetDir] at looked
  split at looked
  · cases looked
    exact .refl h
  · exact sameText_walk looked

theorem sameText_removeEntry {parentDir : Option Ptr} {name : Str} {id : Nat}
    (removed : removeEntry h parentDir name id = some h') : SameText h h' := by
  obtain ⟨above, updated, rfl⟩ := Option.map_eq_some_iff.mp removed
  have same := sameText_update updated
  exact ⟨same.usr, same.metadataStr⟩

theorem sameText_revertRemove {parentDir : Option Ptr} {name : Str} {id : Nat} {dir : Option Ptr}
    (reverted : revertRemove h parentDir name id dir = some h') : SameText h h' := by
  have same := sameText_update reverted
  cases dir with
  | none => exact same
  | some p => exact ⟨same.usr, same.metadataStr⟩

/-- A change of three objects. -/
theorem sameText_updates {p q r : Option Ptr} {f g k : Dirent → Dirent}
    (changed : ((h.update p f).bind fun h => (h.update q g).bind fun h => h.update r k) = some h') :
    SameText h h' := by
  obtain ⟨first, one, changed⟩ := Option.bind_eq_some_iff.mp changed
  obtain ⟨second, two, three⟩ := Option.bind_eq_some_iff.mp changed
  exact ((sameText_update one).trans (sameText_update two)).trans (sameText_update three)

theorem sameText_renameEntry {parentDir curDir : Option Ptr} {relativePath newName : Str}
    (renamed : renameEntry env h parentDir curDir relativePath newName = some h') :
    SameText h h' := by
  obtain ⟨path, -, renamed⟩ := Option.bind_eq_some_iff.mp renamed
  exact sameText_updates renamed

theorem sameText_moveEntry {oldParentDir curEntry newDir : Option Ptr} {relativePath : Str}
    (moved : moveEntry env h oldParentDir curEntry newDir relativePath = some h') :
    SameText h h' := by
  obtain ⟨path, -, moved⟩ := Option.bind_eq_some_iff.mp moved
  exact sameText_updates moved

theorem sameText_revertCreate {parentDir : Option Ptr} {relativePath : Str} {id : Nat}
    (reverted : revertCreate h parentDir relativePath id = some h') : SameText h h' := by
  obtain ⟨above, updated, rfl⟩ := Option.map_eq_some_iff.mp reverted
  have same := sameText_update updated
  cases above.directories.lookup id with
  | none => exact ⟨same.usr, same.metadataStr⟩
  | some p => exact ⟨same.usr, same.metadataStr⟩

end Text

end HandlerText
