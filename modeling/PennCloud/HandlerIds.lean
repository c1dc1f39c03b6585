import PennCloud.MetadataIds

/-!
# The ids in a handler

The objects of a handler have ids up to a bound and names over the alphabet of the
metadata, whatever the handler does to them. What it prints is within its last id,
and it takes the last id from what it reads.
-/

namespace MetadataIds

open Text UnorderedMap StorageMetadata StorageHandler MetadataText
open Pattern (matchWhole)

/-- What an object may be. -/
structure Fit (n : Nat) (d : Dirent) : Prop where
  id_le : d.id ≤ n
  relativePath : ∀ c ∈ d.relativePath, pathChar c = true
  entries : ∀ name p, d.entries.lookup name = some p → ∀ c ∈ name, pathChar c = true

/-- A handler of the user with objects up to the bound, its last id and the text it last read or
stored. -/
structure Sound (usr : Str) (n : Nat) (latest : Option Nat) (text : Str) (h : Handler) : Prop where
  usr : h.usr = usr
  latestId : h.latestId = latest
  metadataStr : h.metadataStr = text
  objects : ∀ p d, h.memory.lookup p = some d → Fit n d

/-! Objects -/

section Fit
variable {n : Nat} {d : Dirent}

theorem Fit.mono {m : Nat} (le : n ≤ m) (fit : Fit n d) : Fit m d :=
  ⟨fit.id_le.trans le, fit.relativePath, fit.entries⟩

theorem Fit.addEntry {name : Str} (spelled : ∀ c ∈ name, pathChar c = true)
    (entry : Option Ptr) (fit : Fit n d) : Fit n (d.addEntry name entry) where
  id_le := fit.id_le
  relativePath := fit.relativePath
  entries other p found := by
    by_cases same : other = name
    · rwa [same]
    · rw [Dirent.addEntry, AList.lookup_insert_ne same] at found
      exact fit.entries other p found

theorem Fit.deleteEntry (name : Str) (fit : Fit n d) : Fit n (d.deleteEntry name) where
  id_le := fit.id_le
  relativePath := fit.relativePath
  entries other p found := by
    by_cases same : other = name
    · rw [same, Dirent.deleteEntry, AList.lookup_erase] at found
      cases found
    · rw [Dirent.deleteEntry, AList.lookup_erase_ne same] at found
      exact fit.entries other p found

theorem Fit.updateParent (parent : Option Ptr) (fit : Fit n d) : Fit n (d.updateParent parent) :=
  ⟨fit.id_le, fit.relativePath, fit.entries⟩

theorem Fit.setIsRoot (fit : Fit n d) : Fit n d.setIsRoot :=
  ⟨fit.id_le, fit.relativePath, fit.entries⟩

theorem Fit.updateRelativePath {name : Str} (spelled : ∀ c ∈ name, pathChar c = true)
    (fit : Fit n d) : Fit n (d.updateRelativePath name) :=
  ⟨fit.id_le, spelled, fit.entries⟩

theorem fit_new {name : Str} {id : Nat} (isFile : Bool)
    (spelled : ∀ c ∈ name, pathChar c = true) (small : id ≤ n) :
    Fit n { relativePath := name, id := id, isFile := isFile } :=
  ⟨small, spelled, nofun⟩

end Fit

/-! Operations of the handler -/

section Operations
variable {usr text : Str} {n : Nat} {latest : Option Nat} {h h' : Handler}

theorem Sound.mono {m : Nat} (le : n ≤ m) (sound : Sound usr n latest text h) :
    Sound usr m latest text h :=
  ⟨sound.usr, sound.latestId, sound.metadataStr,
    fun p d object => (sound.objects p d object).mono le⟩

theorem Sound.update {p : Option Ptr} {f : Dirent → Dirent} (sound : Sound usr n latest text h)
    (keeps : ∀ d, Fit n d → Fit n (f d)) (updated : h.update p f = some h') :
    Sound usr n latest text h' := by
  obtain ⟨q, rfl, found⟩ := Option.bind_eq_some_iff.mp updated
  obtain ⟨d, object, rfl⟩ := Option.map_eq_some_iff.mp found
  refine ⟨sound.usr, sound.latestId, sound.metadataStr, fun other e stored => ?_⟩
  by_cases same : other = q
  · subst same
    cases (AList.lookup_insert h.memory).symm.trans stored
    exact keeps d (sound.objects _ d object)
  · rw [AList.lookup_insert_ne same] at stored
    exact sound.objects other e stored

theorem Sound.allocate {d : Dirent} (sound : Sound usr n latest text h) (fit : Fit n d) :
    Sound usr n latest text (h.allocate d).1 := by
  refine ⟨sound.usr, sound.latestId, sound.metadataStr, fun other e stored => ?_⟩
  by_cases same : other = h.nextPtr
  · subst same
    cases (AList.lookup_insert h.memory).symm.trans stored
    exact fit
  · exact sound.objects other e ((AList.lookup_insert_ne same).symm.trans stored)

theorem Sound.free (sound : Sound usr n latest text h) (p : Option Ptr) :
    Sound usr n latest text (h.free p) := by
  cases p with
  | none => exact sound
  | some q =>
    refine ⟨sound.usr, sound.latestId, sound.metadataStr, fun other e stored => ?_⟩
    by_cases same : other = q
    · rw [Handler.free, same, AList.lookup_erase] at stored
      cases stored
    · rw [Handler.free, AList.lookup_erase_ne same] at stored
      exact sound.objects other e stored

/-- The map from ids is not looked at. -/
theorem Sound.directories (sound : Sound usr n latest text h) (directories : UMap Nat Ptr) :
    Sound usr n latest text { h with directories := directories } :=
  ⟨sound.usr, sound.latestId, sound.metadataStr, sound.objects⟩

theorem Sound.deref {p : Option Ptr} {d : Dirent} (sound : Sound usr n latest text h)
    (found : h.deref p = some d) : Fit n d := by
  obtain ⟨q, -, object⟩ := Option.bind_eq_some_iff.mp found
  exact sound.objects q d object

theorem Sound.getEntry {p : Option Ptr} {name : Str} {r : Option Ptr × Handler}
    (sound : Sound usr n latest text h) (spelled : ∀ c ∈ name, pathChar c = true)
    (got : h.getEntry p name = some r) : Sound usr n latest text r.2 := by
  obtain ⟨d, object, got⟩ := Option.bind_eq_some_iff.mp got
  split at got
  · cases got
    exact sound
  · obtain ⟨h', added, rfl⟩ := Option.map_eq_some_iff.mp got
    exact sound.update (fun d => Fit.addEntry spelled none) added

theorem Sound.path_spelled {fuel : Nat} {p : Option Ptr} {path : Str}
    (sound : Sound usr n latest text h) (computed : pathOf h fuel p = some path) :
    ∀ c ∈ path, pathChar c = true := by
  induction fuel generalizing p path with
  | zero => cases computed
  | succ fuel ih =>
    obtain ⟨d, object, computed⟩ := Option.bind_eq_some_iff.mp computed
    have name : ∀ c ∈ '/' :: d.relativePath, pathChar c = true :=
      List.forall_mem_cons.mpr ⟨by decide, (sound.deref object).relativePath⟩
    split at computed
    · cases computed
      exact name
    · obtain ⟨parent, -, computed⟩ := Option.bind_eq_some_iff.mp computed
      obtain ⟨above, known, rfl⟩ := Option.map_eq_some_iff.mp computed
      exact List.forall_mem_append.mpr ⟨ih known, name⟩

end Operations

/-! Reading -/

section Reading
variable {usr text : Str} {n : Nat} {latest : Option Nat} {h : Handler} {env : Env}

theorem eq_of_stoi {id number : Nat} (read : stoi (toDecimal id) = some number) : id = number := by
  rw [stoi_toDecimal, Option.ite_none_right_eq_some] at read
  exact Option.some.inj read.2

theorem Sound.findOrCreateDirMapping {id : Nat} {name : Str} (sound : Sound usr n latest text h)
    (isFile : Bool) (spelled : ∀ c ∈ name, pathChar c = true) (small : id ≤ n) :
    Sound usr n latest text (h.findOrCreateDirMapping id name isFile).1 := by
  rw [Handler.findOrCreateDirMapping]
  split
  · exact sound
  · exact (sound.allocate (fit_new isFile spelled small)).directories _

theorem Sound.parseDirEntry {parent : Ptr} {line : Str} {h' : Handler}
    (sound : Sound usr n latest text h) (entry : EntryLine n line)
    (parsed : h.parseDirEntry env parent line = some h') : Sound usr n latest text h' := by
  rw [Handler.parseDirEntry] at parsed
  split at parsed
  · rename_i matched
    obtain ⟨name, id, type, captured, spelled, small⟩ := entry.content matched
    cases captured
    obtain ⟨number, read, parsed⟩ := Option.bind_eq_some_iff.mp parsed
    obtain rfl := eq_of_stoi read
    obtain ⟨path, -, parsed⟩ := Option.bind_eq_some_iff.mp parsed
    obtain ⟨above, added, linked⟩ := Option.bind_eq_some_iff.mp parsed
    have made := fun isFile => sound.findOrCreateDirMapping isFile spelled small
    exact ((made _).update (fun d => Fit.addEntry spelled _) added).update
      (fun d => Fit.updateParent _) linked
  · cases parsed
    exact sound

theorem Sound.parseItems {parent : Ptr} {count : Nat} {lines : List Str} {r : Handler × List Str}
    (sound : Sound usr n latest text h) (entries : ∀ line ∈ lines, EntryLine n line)
    (parsed : parseItems env parent count lines h = some r) :
    Sound usr n latest text r.1 ∧ ∀ line ∈ r.2, EntryLine n line := by
  induction count generalizing lines h with
  | zero =>
    cases parsed
    exact ⟨sound, entries⟩
  | succ count ih =>
    cases lines with
    | nil =>
      cases parsed
      exact ⟨sound, entries⟩
    | cons line lines =>
      obtain ⟨first, later⟩ := List.forall_mem_cons.mp entries
      obtain ⟨h', one, rest⟩ := Option.bind_eq_some_iff.mp parsed
      exact ih (sound.parseDirEntry first one) later rest

theorem spelled_lastName {path : Str} (spelled : ∀ c ∈ path, pathChar c = true) :
    ∀ c ∈ lastName path, pathChar c = true := by
  intro c mem
  have taken := (List.takeWhile_prefix _).subset (List.mem_reverse.mp mem)
  exact spelled c (List.mem_reverse.mp taken)

theorem Sound.parseDirectory {words line : Str} {captures : List Str} {isRoot : Bool}
    {lines : List Str} {r : Handler × Ptr × List Str}
    (kind : words = "Root folder:".toList ∨ words = "Folder:".toList)
    (sound : Sound usr n latest text h) (entry : EntryLine n line)
    (matched : matchWhole (folderRegex words) line = some captures)
    (entries : ∀ line ∈ lines, EntryLine n line)
    (parsed : h.parseDirectory env captures isRoot lines = some r) :
    Sound usr n latest text r.1 ∧ ∀ line ∈ r.2.2, EntryLine n line := by
  obtain ⟨path, id, count, rfl, spelled, small⟩ := entry.header kind matched
  obtain ⟨number, read, parsed⟩ := Option.bind_eq_some_iff.mp parsed
  obtain rfl := eq_of_stoi read
  obtain ⟨items, -, parsed⟩ := Option.bind_eq_some_iff.mp parsed
  obtain ⟨h', marked, parsed⟩ := Option.bind_eq_some_iff.mp parsed
  obtain ⟨r', listed, rfl⟩ := Option.map_eq_some_iff.mp parsed
  have made := sound.findOrCreateDirMapping false (spelled_lastName spelled) small
  have top : Sound usr n latest text h' := by
    cases isRoot with
    | true => exact made.update (fun d => Fit.setIsRoot) marked
    | false =>
      cases marked
      exact made
  exact top.parseItems entries listed

theorem Sound.parseLines {fuel : Nat} {lines : List Str} {h' : Handler}
    (sound : Sound usr n latest text h) (entries : ∀ line ∈ lines, EntryLine n line)
    (parsed : parseLines env fuel lines h = some h') : Sound usr n latest text h' := by
  induction fuel generalizing lines h with
  | zero =>
    cases parsed
    exact sound
  | succ fuel ih =>
    cases lines with
    | nil =>
      cases parsed
      exact sound
    | cons line lines =>
      obtain ⟨first, later⟩ := List.forall_mem_cons.mp entries
      simp only [StorageMetadata.parseLines, first.not_latest] at parsed
      split at parsed
      · rename_i matched
        obtain ⟨r, top, rest⟩ := Option.bind_eq_some_iff.mp parsed
        obtain ⟨sound', later⟩ := sound.parseDirectory (.inl rfl) first matched later top
        have rooted : Sound usr n latest text { r.1 with root := some r.2.1 } :=
          ⟨sound'.usr, sound'.latestId, sound'.metadataStr, sound'.objects⟩
        exact ih rooted later rest
      · split at parsed
        · rename_i matched
          obtain ⟨r, folder, rest⟩ := Option.bind_eq_some_iff.mp parsed
          obtain ⟨sound', later⟩ := sound.parseDirectory (.inr rfl) first matched later folder
          exact ih sound' later rest
        · exact ih sound later parsed

/-- A handler that reads a stored text has its last id. -/
theorem Sound.parseMetadataFile {m : Nat} {r : Bool × Handler} (sound : Sound usr n latest text h)
    (le : n ≤ m) (stored : Stored m text) (parsed : h.parseMetadataFile env = some r) :
    r.1 = true ∧ Sound usr m (some m) text r.2 := by
  obtain ⟨lines, same, entries⟩ := stored
  have nonempty : h.metadataStr ≠ [] := by
    rw [sound.metadataStr, same, unlines_cons]
    exact List.append_ne_nil_of_right_ne_nil _ (List.cons_ne_nil _ _)
  rw [Handler.parseMetadataFile, if_neg nonempty] at parsed
  obtain ⟨h', read, rfl⟩ := Option.map_eq_some_iff.mp parsed
  rw [sound.metadataStr, same, split_stored entries, List.length_cons,
    StorageMetadata.parseLines, match_latestLine] at read
  obtain ⟨number, first, read⟩ := Option.bind_eq_some_iff.mp read
  obtain rfl := eq_of_stoi first
  have known : Sound usr m (some m) text { h with latestId := some m } :=
    ⟨sound.usr, rfl, sound.metadataStr, (sound.mono le).objects⟩
  exact ⟨rfl, known.parseLines entries read⟩

end Reading

/-! Printing -/

section Printing
variable {usr text : Str} {n : Nat} {latest : Option Nat} {h : Handler} {env : Env}

/-- Lines of entries. -/
def Entries (n : Nat) (s : Str) : Prop :=
  ∃ lines, s = unlines lines ∧ ∀ line ∈ lines, EntryLine n line

theorem entries_nil : Entries n [] := ⟨[], rfl, by simp⟩

theorem Entries.append {s t : Str} (first : Entries n s) (second : Entries n t) :
    Entries n (s ++ t) := by
  obtain ⟨lines, rfl, entries⟩ := first
  obtain ⟨lines', rfl, entries'⟩ := second
  exact ⟨lines ++ lines', (unlines_append _ _).symm, List.forall_mem_append.mpr ⟨entries, entries'⟩⟩

theorem Entries.cons {line s : Str} (entry : EntryLine n line) (rest : Entries n s) :
    Entries n (line ++ '\n' :: s) := by
  obtain ⟨lines, rfl, entries⟩ := rest
  exact ⟨line :: lines, (unlines_cons _ _).symm, List.forall_mem_cons.mpr ⟨entry, entries⟩⟩

theorem Sound.writeEntries {pairs : List (Str × Option Ptr)} {r : Str × List (Option Ptr)}
    (sound : Sound usr n latest text h) (spelled : ∀ e ∈ pairs, ∀ c ∈ e.1, pathChar c = true)
    (written : writeEntries h pairs = some r) : Entries n r.1 := by
  induction pairs generalizing r with
  | nil =>
    cases written
    exact entries_nil
  | cons e pairs ih =>
    obtain ⟨first, later⟩ := List.forall_mem_cons.mp spelled
    obtain ⟨d, object, written⟩ := Option.bind_eq_some_iff.mp written
    obtain ⟨r', rest, rfl⟩ := Option.map_eq_some_iff.mp written
    have line := Entries.cons (.item d.isFile first (sound.deref object).id_le) (ih later rest)
    rw [entryLine_eq, List.append_assoc]
    exact line

theorem Sound.writeFolder {words : Str} {p : Option Ptr} {r : Str × List (Option Ptr)}
    (kind : words = rootWords ∨ words = folderWords) (sound : Sound usr n latest text h)
    (written : writeFolder env h words p = some r) : Entries n r.1 := by
  obtain ⟨d, object, written⟩ := Option.bind_eq_some_iff.mp written
  obtain ⟨path, computed, written⟩ := Option.bind_eq_some_iff.mp written
  obtain ⟨r', listed, rfl⟩ := Option.map_eq_some_iff.mp written
  have fit := sound.deref object
  have dark : ∀ c ∈ path, isSpace c = false := fun c mem =>
    dark_of_pathChar (sound.path_spelled computed c mem)
  have items : Entries n r'.1 := by
    refine sound.writeEntries (fun e mem => ?_) listed
    exact fit.entries e.1 e.2 ((env.it.mem_pairs _ _).mp mem)
  have header : EntryLine n (headerLine words path d.id d.entries.keys.length) := by
    rcases kind with rfl | rfl
    · exact .root _ dark fit.id_le
    · exact .folder _ dark fit.id_le
  have block := Entries.cons header items
  simpa [headerLine] using block

theorem Sound.writeQueue {fuel : Nat} {queue : List (Option Ptr)} {s : Str}
    (sound : Sound usr n latest text h) (written : writeQueue env h fuel queue = some s) :
    Entries n s := by
  induction fuel generalizing queue s with
  | zero =>
    cases queue with
    | nil =>
      cases written
      exact entries_nil
    | cons p queue => cases written
  | succ fuel ih =>
    cases queue with
    | nil =>
      cases written
      exact entries_nil
    | cons p queue =>
      obtain ⟨r, folder, written⟩ := Option.bind_eq_some_iff.mp written
      obtain ⟨rest, later, rfl⟩ := Option.map_eq_some_iff.mp written
      exact (sound.writeFolder (.inr rfl) folder).append (ih later)

/-- What a handler prints has its last id. -/
theorem Sound.getMetadataStr {new : Str} (sound : Sound usr n (some n) text h)
    (printed : h.getMetadataStr env = some new) : Stored n new := by
  obtain ⟨r, root, printed⟩ := Option.bind_eq_some_iff.mp printed
  obtain ⟨rest, later, rfl⟩ := Option.map_eq_some_iff.mp printed
  obtain ⟨lines, same, entries⟩ :=
    (sound.writeFolder (.inl rfl) root).append (sound.writeQueue later)
  refine ⟨lines, ?_, entries⟩
  rw [unlines_cons, ← same, latestLine, sound.latestId, List.append_assoc]
  rfl

end Printing

end MetadataIds
