import PennCloud.Acyclicity
import PennCloud.HandlerObjects

/-!
# The links between the objects

Which directories are entries of which. A change of one object adds the links of the new
entries at most, a lookup adds none, and a text that is read adds those that it says.
-/

namespace StorageLinks

open Text UnorderedMap StorageMetadata HandlerObjects Acyclicity
open Relation (TransGen)
open Pattern (matchWhole)

/-! Links -/

/-- The object at `p` has an entry that points to `q`. -/
def Has (h : Handler) (p q : Option Ptr) : Prop :=
  ∃ d name, h.deref p = some d ∧ d.entries.lookup name = some q

def IsDir (h : Handler) (p : Option Ptr) : Prop := ∃ d, h.deref p = some d ∧ d.isFile = false

/-- The directory `q` is an entry of `p`. -/
def Lists (h : Handler) (p q : Option Ptr) : Prop := Has h p q ∧ IsDir h q

/-! What a text says -/

/-- The directory `j` is an entry of the directory `i`. -/
def Held (h : Handler) (i j : Nat) : Prop :=
  ∃ p q d e, h.deref p = some d ∧ d.isFile = false ∧ Lists h p q ∧ h.deref q = some e ∧
    d.id = i ∧ e.id = j

/-- The id in the line of an entry. -/
def itemId (line : Str) : Option Nat :=
  match matchWhole kFolderContentRegex line with
  | some [_, number, [_]] => stoi number
  | _ => none

/-- What the header of a directory says is in it, and the lines after that. -/
def block : List Str → List Str → List (Nat × Nat) × List Str
  | [_, number, items], lines =>
    match stoi number, stoi items with
    | some id, some count => ((lines.take count).filterMap fun line =>
        (itemId line).map fun item => (id, item), lines.drop count)
    | _, _ => ([], lines)
  | _, lines => ([], lines)

/-- The ids of the directories and their entries, as the parser takes them from the lines. -/
def listedLines : Nat → List Str → List (Nat × Nat)
  | 0, _ => []
  | _ + 1, [] => []
  | fuel + 1, line :: lines =>
    match matchWhole kLatestIdRegex line with
    | some _ => listedLines fuel lines
    | none =>
      match matchWhole kRootFolderEntryRegex line with
      | some captures => (block captures lines).1 ++ listedLines fuel (block captures lines).2
      | none =>
        match matchWhole kFolderEntryRegex line with
        | some captures => (block captures lines).1 ++ listedLines fuel (block captures lines).2
        | none => listedLines fuel lines

def listed (text : Str) : List (Nat × Nat) :=
  listedLines (split text '\n').length (split text '\n')

/-- What the handler holds together with what a text says. -/
def Joined (h : Handler) (text : Str) (i j : Nat) : Prop := Held h i j ∨ (i, j) ∈ listed text

/-! Handlers whose objects and pointers are in order -/

/-- Entries point to objects that have been made, and each object is the one of its id. -/
structure Sound (h : Handler) : Prop extends Tidy h where
  below : ∀ p d name q, h.memory.lookup p = some d → d.entries.lookup name = some (some q) →
    q < h.nextPtr
  whole : ∀ p d, h.memory.lookup p = some d → h.directories.lookup d.id = some p

/-- All links are among some. -/
structure Kept (S : Option Ptr → Option Ptr → Prop) (h : Handler) : Prop extends Sound h where
  inside : ∀ p q, Lists h p q → S p q

/-- The pointer may become an entry of `p`. -/
def Fits (S : Option Ptr → Option Ptr → Prop) (h : Handler) (p q : Option Ptr) : Prop :=
  q = none ∨ (∃ e, h.deref q = some e) ∧ (IsDir h q → S p q)

section Operations
variable {S : Option Ptr → Option Ptr → Prop} {h h' : Handler} {env : Env} {p q : Option Ptr}
  {f : Dirent → Dirent}

theorem deref_some {d : Dirent} : h.deref p = some d ↔ ∃ x, p = some x ∧ h.memory.lookup x = some d :=
  Option.bind_eq_some_iff

theorem update_some : h.update p f = some h' ↔ ∃ x d, p = some x ∧ h.memory.lookup x = some d ∧
    h' = { h with memory := h.memory.insert x (f d) } := by
  constructor
  · intro updated
    obtain ⟨x, rfl, found⟩ := Option.bind_eq_some_iff.mp updated
    obtain ⟨d, object, rfl⟩ := Option.map_eq_some_iff.mp found
    exact ⟨x, d, rfl, object, rfl⟩
  · rintro ⟨x, d, rfl, object, rfl⟩
    rw [Handler.update, Option.bind_some, object, Option.map_some]

theorem deref_update (updated : h.update p f = some h') (q : Option Ptr) :
    h'.deref q = if q = p then (h.deref q).map f else h.deref q := by
  obtain ⟨x, d, rfl, object, rfl⟩ := update_some.mp updated
  cases q with
  | none => rfl
  | some y =>
    by_cases same : y = x
    · subst same
      rw [if_pos rfl, Handler.deref, Handler.deref, Option.bind_some, Option.bind_some, object]
      exact AList.lookup_insert _
    · rw [if_neg (by simpa using same)]
      exact AList.lookup_insert_ne same

/-- An update of entries or of links keeps what the objects are. -/
theorem present_update (updated : h.update p f = some h')
    (kind : ∀ d, (f d).id = d.id ∧ (f d).isFile = d.isFile) {q : Option Ptr} {id : Nat}
    {isFile : Bool} : (∃ e, h'.deref q = some e ∧ e.id = id ∧ e.isFile = isFile) ↔
      ∃ e, h.deref q = some e ∧ e.id = id ∧ e.isFile = isFile := by
  rw [deref_update updated]
  split
  · constructor
    · rintro ⟨e, object, ident, file⟩
      obtain ⟨d, old, rfl⟩ := Option.map_eq_some_iff.mp object
      exact ⟨d, old, (kind d).1.symm.trans ident, (kind d).2.symm.trans file⟩
    · rintro ⟨d, object, ident, file⟩
      exact ⟨f d, by rw [object]; rfl, (kind d).1.trans ident, (kind d).2.trans file⟩
  · exact Iff.rfl

theorem isDir_update (updated : h.update p f = some h')
    (kind : ∀ d, (f d).id = d.id ∧ (f d).isFile = d.isFile) {q : Option Ptr} :
    IsDir h' q ↔ IsDir h q := by
  constructor
  · rintro ⟨e, object, file⟩
    obtain ⟨d, object, -, file⟩ := (present_update updated kind).mp ⟨e, object, rfl, file⟩
    exact ⟨d, object, file⟩
  · rintro ⟨e, object, file⟩
    obtain ⟨d, object, -, file⟩ := (present_update updated kind).mpr ⟨e, object, rfl, file⟩
    exact ⟨d, object, file⟩

theorem Fits.update {r : Option Ptr} (fits : Fits S h r q) (updated : h.update p f = some h')
    (kind : ∀ d, (f d).id = d.id ∧ (f d).isFile = d.isFile) : Fits S h' r q := by
  rcases fits with rfl | ⟨⟨e, object⟩, link⟩
  · exact .inl rfl
  · obtain ⟨d, object, -⟩ := (present_update updated kind).mpr ⟨e, object, rfl, rfl⟩
    exact .inr ⟨⟨d, object⟩, fun dir => link ((isDir_update updated kind).mp dir)⟩

theorem lists_update (updated : h.update p f = some h')
    (kind : ∀ d, (f d).id = d.id ∧ (f d).isFile = d.isFile) {x y : Option Ptr}
    (link : Lists h' x y) : IsDir h y ∧ (Has h x y ∨
      x = p ∧ ∃ d name, h.deref p = some d ∧ (f d).entries.lookup name = some y) := by
  obtain ⟨⟨e, name, stored, entry⟩, dir⟩ := link
  refine ⟨(isDir_update updated kind).mp dir, ?_⟩
  rw [deref_update updated] at stored
  split at stored
  · rename_i same
    obtain ⟨d, object, rfl⟩ := Option.map_eq_some_iff.mp stored
    exact .inr ⟨same, d, name, same ▸ object, entry⟩
  · exact .inl ⟨e, name, stored, entry⟩

/-- One object is changed. Each of its entries was there or fits. -/
theorem Kept.update (kept : Kept S h) (updated : h.update p f = some h')
    (kind : ∀ d, (f d).id = d.id ∧ (f d).isFile = d.isFile)
    (entries : ∀ d name q, (f d).entries.lookup name = some q →
      (∃ name', d.entries.lookup name' = some q) ∨ Fits S h p q) : Kept S h' := by
  have tidy := kept.toTidy.update updated fun d => (kind d).1
  obtain ⟨x, d, rfl, object, rfl⟩ := update_some.mp updated
  refine ⟨⟨tidy, fun y e name r stored entry => ?_, fun y e stored => ?_⟩, fun y r link => ?_⟩
  · by_cases same : y = x
    · subst same
      cases (AList.lookup_insert h.memory).symm.trans stored
      rcases entries d name (some r) entry with ⟨name', old⟩ | absent | ⟨⟨e, present⟩, -⟩
      · exact kept.below y d name' r object old
      · cases absent
      · exact kept.bounded r e present
    · exact kept.below y e name r ((AList.lookup_insert_ne same).symm.trans stored) entry
  · by_cases same : y = x
    · subst same
      cases (AList.lookup_insert h.memory).symm.trans stored
      rw [(kind d).1]
      exact kept.whole y d object
    · exact kept.whole y e ((AList.lookup_insert_ne same).symm.trans stored)
  · obtain ⟨dir, has | ⟨rfl, d, name, object, entry⟩⟩ := lists_update updated kind link
    · exact kept.inside _ _ ⟨has, dir⟩
    · rcases entries d name r entry with ⟨name', old⟩ | rfl | ⟨-, fits⟩
      · exact kept.inside _ _ ⟨⟨d, name', object, old⟩, dir⟩
      · obtain ⟨d, object, -⟩ := dir
        cases object
      · exact fits dir

theorem Kept.addEntry {name : Str} (kept : Kept S h)
    (updated : h.update p (Dirent.addEntry name q) = some h') (fits : Fits S h p q) :
    Kept S h' := by
  refine kept.update updated (fun _ => ⟨rfl, rfl⟩) fun d other r entry => ?_
  by_cases same : other = name
  · rw [same, Dirent.addEntry, AList.lookup_insert, Option.some.injEq] at entry
    rw [← entry]
    exact .inr fits
  · exact .inl ⟨other, (AList.lookup_insert_ne same).symm.trans entry⟩

theorem Kept.deleteEntry {name : Str} (kept : Kept S h)
    (updated : h.update p (Dirent.deleteEntry name) = some h') : Kept S h' := by
  refine kept.update updated (fun _ => ⟨rfl, rfl⟩) fun d other r entry => ?_
  by_cases same : other = name
  · rw [same, Dirent.deleteEntry, AList.lookup_erase] at entry
    cases entry
  · exact .inl ⟨other, (AList.lookup_erase_ne same).symm.trans entry⟩

theorem Kept.updateParent (kept : Kept S h)
    (updated : h.update p (Dirent.updateParent q) = some h') : Kept S h' :=
  kept.update updated (fun _ => ⟨rfl, rfl⟩) fun _ name _ entry => .inl ⟨name, entry⟩

theorem Kept.updateRelativePath {name : Str} (kept : Kept S h)
    (updated : h.update p (Dirent.updateRelativePath name) = some h') : Kept S h' :=
  kept.update updated (fun _ => ⟨rfl, rfl⟩) fun _ name _ entry => .inl ⟨name, entry⟩

theorem Kept.setIsRoot (kept : Kept S h)
    (updated : h.update p Dirent.setIsRoot = some h') : Kept S h' :=
  kept.update updated (fun _ => ⟨rfl, rfl⟩) fun _ name _ entry => .inl ⟨name, entry⟩

/-- What was updated is there. -/
theorem deref_of_update (updated : h.update p f = some h') : ∃ d, h.deref p = some d := by
  obtain ⟨x, d, rfl, object, rfl⟩ := update_some.mp updated
  exact ⟨d, object⟩

/-- The same objects with the same links. -/
structure Alike (h h' : Handler) : Prop where
  root : h'.root = h.root
  directories : h'.directories = h.directories
  present : ∀ q id isFile, (∃ e, h'.deref q = some e ∧ e.id = id ∧ e.isFile = isFile) ↔
    ∃ e, h.deref q = some e ∧ e.id = id ∧ e.isFile = isFile
  links : ∀ p q, Lists h' p q ↔ Lists h p q

theorem Alike.refl (h : Handler) : Alike h h :=
  ⟨rfl, rfl, fun _ _ _ => Iff.rfl, fun _ _ => Iff.rfl⟩

theorem Alike.trans {h'' : Handler} (first : Alike h h') (second : Alike h' h'') : Alike h h'' where
  root := second.root.trans first.root
  directories := second.directories.trans first.directories
  present q id isFile := (second.present q id isFile).trans (first.present q id isFile)
  links p q := (second.links p q).trans (first.links p q)

/-- No more objects and links than before. -/
structure Shrinks (h h' : Handler) : Prop where
  root : h'.root = h.root
  directories : ∀ id p, h'.directories.lookup id = some p → h.directories.lookup id = some p
  present : ∀ q e, h'.deref q = some e →
    ∃ d, h.deref q = some d ∧ d.id = e.id ∧ d.isFile = e.isFile
  links : ∀ p q, Lists h' p q → Lists h p q

theorem Shrinks.refl (h : Handler) : Shrinks h h :=
  ⟨rfl, fun _ _ known => known, fun _ d object => ⟨d, object, rfl, rfl⟩, fun _ _ link => link⟩

theorem Shrinks.trans {h'' : Handler} (first : Shrinks h h') (second : Shrinks h' h'') :
    Shrinks h h'' where
  root := second.root.trans first.root
  directories id p known := first.directories id p (second.directories id p known)
  present q e object := by
    obtain ⟨d, object, ident, file⟩ := second.present q e object
    obtain ⟨c, object, ident', file'⟩ := first.present q d object
    exact ⟨c, object, ident'.trans ident, file'.trans file⟩
  links p q link := first.links p q (second.links p q link)

theorem Alike.shrinks (alike : Alike h h') : Shrinks h h' where
  root := alike.root
  directories id p known := by rwa [alike.directories] at known
  present q e object := (alike.present q e.id e.isFile).mp ⟨e, object, rfl, rfl⟩
  links p q := (alike.links p q).mp

theorem Shrinks.kept (shrinks : Shrinks h h') (inside : ∀ p q, Lists h p q → S p q)
    (sound : Sound h') : Kept S h' :=
  ⟨sound, fun p q link => inside p q (shrinks.links p q link)⟩

theorem Shrinks.isDir (shrinks : Shrinks h h') (dir : IsDir h' q) : IsDir h q := by
  obtain ⟨e, object, file⟩ := dir
  obtain ⟨d, object, -, same⟩ := shrinks.present q e object
  exact ⟨d, object, same.trans file⟩

theorem shrinks_deleteEntry {name : Str}
    (updated : h.update p (Dirent.deleteEntry name) = some h') : Shrinks h h' := by
  have kind : ∀ d, (Dirent.deleteEntry name d).id = d.id ∧
    (Dirent.deleteEntry name d).isFile = d.isFile := fun _ => ⟨rfl, rfl⟩
  refine ⟨?_, fun id x known => ?_, fun q e object => ?_, fun x y link => ?_⟩
  · obtain ⟨x, d, rfl, object, rfl⟩ := update_some.mp updated
    rfl
  · rwa [update_directories updated] at known
  · exact (present_update updated kind).mp ⟨e, object, rfl, rfl⟩
  · obtain ⟨dir, has | ⟨rfl, d, other, object, entry⟩⟩ := lists_update updated kind link
    · exact ⟨has, dir⟩
    · by_cases same : other = name
      · rw [same, Dirent.deleteEntry, AList.lookup_erase] at entry
        cases entry
      · exact ⟨⟨d, other, object, (AList.lookup_erase_ne same).symm.trans entry⟩, dir⟩

/-! Looking up -/

/-- An entry that is not there is made, and points nowhere. -/
theorem getEntry_links {name : Str} {r : Option Ptr × Handler} (sound : Sound h)
    (got : h.getEntry p name = some r) : Sound r.2 ∧ Alike h r.2 ∧ Has r.2 p r.1 := by
  obtain ⟨d, object, got⟩ := Option.bind_eq_some_iff.mp got
  split at got
  · rename_i entry known
    cases got
    exact ⟨sound, .refl h, d, name, object, known⟩
  · rename_i absent
    obtain ⟨h', added, rfl⟩ := Option.map_eq_some_iff.mp got
    have kind : ∀ d, (Dirent.addEntry name none d).id = d.id ∧
      (Dirent.addEntry name none d).isFile = d.isFile := fun _ => ⟨rfl, rfl⟩
    have kept : Kept (Lists h) h' := Kept.addEntry ⟨sound, fun _ _ link => link⟩ added (.inl rfl)
    have now : h'.deref p = some (Dirent.addEntry name none d) := by
      rw [deref_update added, if_pos rfl, object]
      rfl
    refine ⟨kept.toSound, ⟨?_, update_directories added, fun q id isFile => present_update added kind,
      fun x y => ⟨kept.inside x y, fun link => ?_⟩⟩, _, name, now, AList.lookup_insert _⟩
    · obtain ⟨x, d, rfl, -, rfl⟩ := update_some.mp added
      rfl
    · obtain ⟨⟨e, other, stored, entry⟩, dir⟩ := link
      refine ⟨?_, (isDir_update added kind).mpr dir⟩
      by_cases same : x = p
      · subst same
        cases object.symm.trans stored
        have apart : other ≠ name := by
          rintro rfl
          rw [absent] at entry
          cases entry
        exact ⟨_, other, now, (AList.lookup_insert_ne apart).trans entry⟩
      · exact ⟨e, other, by rw [deref_update added, if_neg same]; exact stored, entry⟩

/-- What a lookup has found, and what it has done to the handler. -/
structure Looked (h : Handler) (found : Found) : Prop where
  sound : Sound found.handler
  alike : Alike h found.handler
  entry : found.valid = true → Has found.handler found.parentDir found.dir
  parent : found.valid = false → found.parentDir = none ∨
    ∃ d, found.handler.deref found.parentDir = some d

theorem looked_walk {relativePath token path : Str} {found : Found} (sound : Sound h)
    (walked : walk h p relativePath token path = some found) : Looked h found := by
  induction path generalizing p relativePath token with
  | nil =>
    rw [StorageMetadata.walk] at walked
    obtain ⟨known, asked, walked⟩ := Option.bind_eq_some_iff.mp walked
    split at walked
    · obtain ⟨r, got, rfl⟩ := Option.map_eq_some_iff.mp walked
      obtain ⟨sound, alike, has⟩ := getEntry_links sound got
      exact ⟨sound, alike, fun _ => has, fun invalid => by cases invalid⟩
    · rename_i absent
      cases walked
      refine ⟨sound, .refl h, fun valid => (by cases valid), fun _ => .inr ?_⟩
      split at asked
      · cases asked
        exact absurd rfl absent
      · obtain ⟨d, object, -⟩ := Option.map_eq_some_iff.mp asked
        exact ⟨d, object⟩
  | cons c path ih =>
    rw [StorageMetadata.walk] at walked
    split at walked
    · split at walked
      · exact ih walked
      · obtain ⟨d, -, walked⟩ := Option.bind_eq_some_iff.mp walked
        split at walked
        · exact ih walked
        · cases walked
          exact ⟨sound, .refl h, fun valid => (by cases valid), fun _ => .inl rfl⟩
    · exact ih walked

theorem looked_of_validate {path : Str} {found : Found} (sound : Sound h)
    (looked : h.validatePathAndGetDir path = some found) (notRoot : path ≠ "/".toList) :
    Looked h found := by
  rw [Handler.validatePathAndGetDir, if_neg notRoot] at looked
  exact looked_walk sound looked

/-- The root folder is found without a look at its links. -/
theorem validate_root : h.validatePathAndGetDir "/".toList = some ⟨true, h.root, h.root, [], h⟩ := by
  rw [Handler.validatePathAndGetDir, if_pos rfl]

theorem validate_alike {path : Str} {found : Found} (sound : Sound h)
    (looked : h.validatePathAndGetDir path = some found) :
    Sound found.handler ∧ Alike h found.handler := by
  by_cases isRoot : path = "/".toList
  · rw [isRoot, validate_root] at looked
    cases looked
    exact ⟨sound, .refl h⟩
  · have looked := looked_of_validate sound looked isRoot
    exact ⟨looked.sound, looked.alike⟩

/-! Making and freeing objects -/

/-- A new object without entries, with an id that no object has. -/
theorem sound_allocate {d : Dirent} (empty : d.entries = ∅)
    (bounded : ∀ p e, h.memory.lookup p = some e → p < h.nextPtr)
    (registered : ∀ id p, id ≠ d.id → h.directories.lookup id = some p →
      ∃ e, h.memory.lookup p = some e ∧ e.id = id)
    (below : ∀ p e name q, h.memory.lookup p = some e → e.entries.lookup name = some (some q) →
      q < h.nextPtr)
    (others : ∀ p e, h.memory.lookup p = some e → e.id ≠ d.id ∧
      h.directories.lookup e.id = some p) :
    Sound { (h.allocate d).1 with directories := h.directories.insert d.id (h.allocate d).2 } := by
  refine ⟨tidy_allocate bounded registered, fun p e name q stored entry => ?_,
    fun p e stored => ?_⟩
  · by_cases same : p = h.nextPtr
    · subst same
      cases (AList.lookup_insert h.memory).symm.trans stored
      rw [empty] at entry
      cases entry
    · have old := (AList.lookup_insert_ne same).symm.trans stored
      exact Nat.lt_succ_of_lt (below p e name q old entry)
  · by_cases same : p = h.nextPtr
    · subst same
      cases (AList.lookup_insert h.memory).symm.trans stored
      exact AList.lookup_insert _
    · obtain ⟨apart, known⟩ := others p e ((AList.lookup_insert_ne same).symm.trans stored)
      exact (AList.lookup_insert_ne apart).trans known

theorem lists_allocate {d : Dirent} {dirs : UMap Nat Ptr} (empty : d.entries = ∅)
    (below : ∀ p e name q, h.memory.lookup p = some e → e.entries.lookup name = some (some q) →
      q < h.nextPtr)
    (link : Lists { (h.allocate d).1 with directories := dirs } p q) : Lists h p q := by
  obtain ⟨⟨e, name, stored, entry⟩, c, target, file⟩ := link
  obtain ⟨x, rfl, stored⟩ := deref_some.mp stored
  obtain ⟨y, rfl, target⟩ := deref_some.mp target
  have old : x ≠ h.nextPtr := by
    rintro rfl
    cases (AList.lookup_insert h.memory).symm.trans stored
    rw [empty] at entry
    cases entry
  have object := (AList.lookup_insert_ne old).symm.trans stored
  have notNew : y ≠ h.nextPtr := Nat.ne_of_lt (below x e name y object entry)
  exact ⟨⟨e, name, object, entry⟩, c, (AList.lookup_insert_ne notNew).symm.trans target, file⟩

theorem lookup_free {x : Ptr} {d : Dirent} (stored : (h.free q).memory.lookup x = some d) :
    h.memory.lookup x = some d ∧ q ≠ some x := by
  cases q with
  | none => exact ⟨stored, by simp⟩
  | some z =>
    by_cases same : x = z
    · rw [same, Handler.free, AList.lookup_erase] at stored
      cases stored
    · exact ⟨(AList.lookup_erase_ne same).symm.trans stored, by simpa using Ne.symm same⟩

theorem free_directories (q : Option Ptr) : (h.free q).directories = h.directories ∧
    (h.free q).root = h.root ∧ (h.free q).nextPtr = h.nextPtr := by
  cases q with
  | none => exact ⟨rfl, rfl, rfl⟩
  | some z => exact ⟨rfl, rfl, rfl⟩

/-- Freeing the object of an id leaves no other with the id. -/
theorem Sound.unnamed {id : Nat} (sound : Sound h) {x : Ptr} {d : Dirent}
    (stored : (h.free (h.directories.lookup id)).memory.lookup x = some d) :
    h.memory.lookup x = some d ∧ d.id ≠ id := by
  obtain ⟨old, apart⟩ := lookup_free stored
  refine ⟨old, ?_⟩
  rintro rfl
  exact apart (sound.whole x d old)

theorem lists_free {dirs : UMap Nat Ptr} {text : Str} {latest : Option Nat} {r : Option Ptr}
    (link : Lists { h.free r with directories := dirs, metadataStr := text, latestId := latest } p q) :
    Lists h p q := by
  obtain ⟨⟨e, name, stored, entry⟩, c, target, file⟩ := link
  obtain ⟨x, rfl, stored⟩ := deref_some.mp stored
  obtain ⟨y, rfl, target⟩ := deref_some.mp target
  exact ⟨⟨e, name, (lookup_free stored).1, entry⟩, c, (lookup_free target).1, file⟩

theorem Sound.free (sound : Sound h) (id : Nat) :
    Sound { h.free (h.directories.lookup id) with directories := h.directories.erase id } := by
  refine ⟨sound.toTidy.free rfl, fun p e name q stored entry => ?_, fun p e stored => ?_⟩
  · rw [(free_directories (h := h) (h.directories.lookup id)).2.2]
    exact sound.below p e name q (sound.unnamed stored).1 entry
  · obtain ⟨old, apart⟩ := sound.unnamed stored
    exact (AList.lookup_erase_ne apart).trans (sound.whole p e old)

end Operations

/-! Reading a text -/

/-- The links of the directories are among some pairs of ids. -/
def Tied (R : Nat → Nat → Prop) (h : Handler) : Prop :=
  ∀ p q d e, h.deref p = some d → d.isFile = false → Lists h p q → h.deref q = some e → R d.id e.id

/-- On a cycle are directories only. -/
theorem acyclic_of_tied {R : Nat → Nat → Prop} {h : Handler} (acyclic : Acyclic R)
    (tied : Tied R h) : Acyclic (Lists h) := by
  let ident (p : Option Ptr) : Nat := ((h.deref p).map Dirent.id).getD 0
  have inner : ∀ p q, IsDir h p → TransGen (Lists h) p q → TransGen R (ident p) (ident q) := by
    intro p q dir way
    have edge : ∀ x y, IsDir h x → Lists h x y → R (ident x) (ident y) := by
      rintro x y ⟨d, object, file⟩ link
      obtain ⟨e, target, -⟩ := link.2
      simp only [ident, object, target, Option.map_some, Option.getD_some]
      exact tied x y d e object file link target
    induction way with
    | single link => exact .single (edge _ _ dir link)
    | tail way link ih =>
      refine ih.tail (edge _ _ ?_ link)
      cases way with
      | single first => exact first.2
      | tail _ last => exact last.2
  intro p cycle
  have dir : IsDir h p := by
    cases cycle with
    | single link => exact link.2
    | tail _ link => exact link.2
  exact acyclic (ident p) (inner p p dir cycle)

section Reading
variable {R : Nat → Nat → Prop} {h h' : Handler} {env : Env}

/-- An object of the id is at the pointer. -/
def At (h : Handler) (p : Ptr) (id : Nat) : Prop := ∃ d, h.deref (some p) = some d ∧ d.id = id

theorem At.update {x : Ptr} {id : Nat} {p : Option Ptr} {f : Dirent → Dirent} (here : At h x id)
    (updated : h.update p f = some h')
    (kind : ∀ d, (f d).id = d.id ∧ (f d).isFile = d.isFile) : At h' x id := by
  obtain ⟨d, object, ident⟩ := here
  obtain ⟨e, object, ident', -⟩ :=
    (present_update updated kind).mpr ⟨d, object, rfl, rfl⟩
  exact ⟨e, object, ident'.trans ident⟩

theorem findOrCreate_links {id : Nat} {name : Str} {isFile : Bool} (sound : Sound h)
    (tied : Tied R h) {found : Handler × Ptr}
    (same : h.findOrCreateDirMapping id name isFile = found) :
    Sound found.1 ∧ Tied R found.1 ∧ At found.1 found.2 id ∧ found.1.root = h.root ∧
      ∀ p i, At h p i → At found.1 p i := by
  unfold Handler.findOrCreateDirMapping at same
  split at same
  · rename_i p known
    subst same
    obtain ⟨d, object, ident⟩ := sound.registered id p known
    exact ⟨sound, tied, ⟨d, object, ident⟩, rfl, fun _ _ there => there⟩
  · rename_i absent
    subst same
    have old : ∀ p d, h.memory.lookup p = some d → p ≠ h.nextPtr :=
      fun p d stored => Nat.ne_of_lt (sound.bounded p d stored)
    refine ⟨?_, fun p q d e object file link target => ?_, ⟨_, AList.lookup_insert _, rfl⟩, rfl,
      fun p i there => ?_⟩
    · refine sound_allocate (d := { relativePath := name, id := id, isFile := isFile }) rfl
        sound.bounded (fun i p _ => sound.registered i p) sound.below fun p d stored => ⟨?_, ?_⟩
      · intro ident
        have registered := sound.whole p d stored
        rw [ident, absent] at registered
        cases registered
      · exact sound.whole p d stored
    · have link := lists_allocate rfl sound.below link
      obtain ⟨⟨d', name', stored, entry⟩, e', target', file'⟩ := link
      obtain ⟨x, rfl, stored⟩ := deref_some.mp stored
      obtain ⟨y, rfl, target'⟩ := deref_some.mp target'
      have object := (AList.lookup_insert_ne (old x d' stored)).symm.trans object
      have target := (AList.lookup_insert_ne (old y e' target')).symm.trans target
      exact tied (some x) (some y) d e object file ⟨⟨d', name', stored, entry⟩, e', target', file'⟩
        target
    · obtain ⟨d, object, ident⟩ := there
      exact ⟨d, (AList.lookup_insert_ne (old p d object)).trans object, ident⟩

/-- One entry more. -/
theorem tied_update {p : Option Ptr} {f : Dirent → Dirent} (tied : Tied R h)
    (updated : h.update p f = some h')
    (kind : ∀ d, (f d).id = d.id ∧ (f d).isFile = d.isFile)
    (entries : ∀ d name q e, h.deref p = some d → (f d).entries.lookup name = some q →
      h.deref q = some e → Has h p q ∨ R d.id e.id) : Tied R h' := by
  intro x y d e object file link target
  obtain ⟨d', old, ident, file'⟩ := (present_update updated kind).mp ⟨d, object, rfl, file⟩
  obtain ⟨e', old', ident', -⟩ := (present_update updated kind).mp ⟨e, target, rfl, rfl⟩
  rw [← ident, ← ident']
  obtain ⟨dir, has | ⟨rfl, c, name, found, entry⟩⟩ := lists_update updated kind link
  · exact tied x y d' e' old file' ⟨has, dir⟩ old'
  · cases old.symm.trans found
    rcases entries d' name y e' old entry old' with has | new
    · exact tied x y d' e' old file' ⟨has, dir⟩ old'
    · exact new

theorem parseDirEntry_links {parent : Ptr} {i : Nat} {line : Str} (sound : Sound h)
    (tied : Tied R h) (here : At h parent i) (pairs : ∀ j, itemId line = some j → R i j)
    (parsed : h.parseDirEntry env parent line = some h') :
    Sound h' ∧ Tied R h' ∧ At h' parent i := by
  unfold Handler.parseDirEntry at parsed
  split at parsed
  · rename_i name number type matched
    obtain ⟨id, isId, parsed⟩ := Option.bind_eq_some_iff.mp parsed
    obtain ⟨path, -, parsed⟩ := Option.bind_eq_some_iff.mp parsed
    obtain ⟨added, first, second⟩ := Option.bind_eq_some_iff.mp parsed
    have pair : R i id := pairs id (by rw [itemId, matched]; exact isId)
    obtain ⟨made, tied₁, item, -, others⟩ := findOrCreate_links sound tied rfl
    have here₁ := others parent i here
    have keeps : ∀ (q : Option Ptr) (d : Dirent), (Dirent.addEntry name q d).id = d.id ∧
      (Dirent.addEntry name q d).isFile = d.isFile := fun _ _ => ⟨rfl, rfl⟩
    have keeps' : ∀ (q : Option Ptr) (d : Dirent), (Dirent.updateParent q d).id = d.id ∧
      (Dirent.updateParent q d).isFile = d.isFile := fun _ _ => ⟨rfl, rfl⟩
    have all : ∀ g : Handler, Sound g → Kept (fun _ _ => True) g :=
      fun g sound => ⟨sound, fun _ _ _ => trivial⟩
    obtain ⟨e, object, ident⟩ := item
    have kept := (all _ made).addEntry first (.inr ⟨⟨e, object⟩, fun _ => trivial⟩)
    have tied₂ : Tied R added := by
      refine tied_update tied₁ first (keeps _) fun d other q c stored entry target => ?_
      by_cases same : other = name
      · rw [same, Dirent.addEntry, AList.lookup_insert, Option.some.injEq] at entry
        subst entry
        obtain ⟨d', stored', ident'⟩ := here₁
        cases stored.symm.trans stored'
        cases object.symm.trans target
        exact .inr (by rw [ident', ident]; exact pair)
      · exact .inl ⟨d, other, stored, (AList.lookup_insert_ne same).symm.trans entry⟩
    have here₂ := here₁.update first (keeps _)
    refine ⟨(kept.updateParent second).toSound, ?_, here₂.update second (keeps' _)⟩
    exact tied_update tied₂ second (keeps' _) fun d other q c stored entry _ =>
      .inl ⟨d, other, stored, entry⟩
  · cases parsed
    exact ⟨sound, tied, here⟩

theorem parseItems_links {parent : Ptr} {i n : Nat} {lines : List Str} {r : Handler × List Str}
    (sound : Sound h) (tied : Tied R h) (here : At h parent i)
    (pairs : ∀ line ∈ lines.take n, ∀ j, itemId line = some j → R i j)
    (parsed : parseItems env parent n lines h = some r) :
    Sound r.1 ∧ Tied R r.1 ∧ r.2 = lines.drop n := by
  induction n generalizing h lines with
  | zero =>
    cases parsed
    exact ⟨sound, tied, rfl⟩
  | succ n ih =>
    cases lines with
    | nil =>
      cases parsed
      exact ⟨sound, tied, rfl⟩
    | cons line lines =>
      obtain ⟨h', first, rest⟩ := Option.bind_eq_some_iff.mp parsed
      obtain ⟨now, later⟩ := List.forall_mem_cons.mp pairs
      obtain ⟨sound', tied', here'⟩ := parseDirEntry_links sound tied here now first
      exact ih sound' tied' here' later rest

theorem parseDirectory_links {captures : List Str} {isRoot : Bool} {lines : List Str}
    {r : Handler × Ptr × List Str} (sound : Sound h) (tied : Tied R h)
    (pairs : ∀ x ∈ (block captures lines).1, R x.1 x.2)
    (parsed : h.parseDirectory env captures isRoot lines = some r) :
    Sound r.1 ∧ Tied R r.1 ∧ r.2.2 = (block captures lines).2 := by
  unfold Handler.parseDirectory at parsed
  split at parsed
  · rename_i path number items
    obtain ⟨id, isId, parsed⟩ := Option.bind_eq_some_iff.mp parsed
    obtain ⟨count, isCount, parsed⟩ := Option.bind_eq_some_iff.mp parsed
    obtain ⟨marked, root, parsed⟩ := Option.bind_eq_some_iff.mp parsed
    obtain ⟨read, each, rfl⟩ := Option.map_eq_some_iff.mp parsed
    obtain ⟨made, tied₁, here, -, -⟩ := findOrCreate_links sound tied
      (rfl : h.findOrCreateDirMapping id (lastName path) false = _)
    have told : block [path, number, items] lines = ((lines.take count).filterMap fun line =>
        (itemId line).map fun item => (id, item), lines.drop count) := by
      simp only [block, isId, isCount]
    have each' : ∀ line ∈ lines.take count, ∀ j, itemId line = some j → R id j := by
      intro line mem j item
      refine pairs (id, j) ?_
      rw [told]
      exact List.mem_filterMap.mpr ⟨line, mem, by rw [item]; rfl⟩
    have keeps : ∀ d, (Dirent.setIsRoot d).id = d.id ∧ (Dirent.setIsRoot d).isFile = d.isFile :=
      fun _ => ⟨rfl, rfl⟩
    have ready : Sound marked ∧ Tied R marked ∧
        At marked (h.findOrCreateDirMapping id (lastName path) false).2 id := by
      split at root
      · have kept : Kept (fun _ _ => True) (h.findOrCreateDirMapping id (lastName path) false).1 :=
          ⟨made, fun _ _ _ => trivial⟩
        refine ⟨(kept.setIsRoot root).toSound, ?_, here.update root keeps⟩
        exact tied_update tied₁ root keeps fun d other q c stored entry _ =>
          .inl ⟨d, other, stored, entry⟩
      · cases root
        exact ⟨made, tied₁, here⟩
    obtain ⟨sound', tied', rest⟩ := parseItems_links ready.1 ready.2.1 ready.2.2 each' each
    exact ⟨sound', tied', by rw [told]; exact rest⟩
  · cases parsed

theorem parseLines_links {fuel : Nat} {lines : List Str} (sound : Sound h) (tied : Tied R h)
    (pairs : ∀ x ∈ listedLines fuel lines, R x.1 x.2)
    (parsed : parseLines env fuel lines h = some h') : Sound h' ∧ Tied R h' := by
  induction fuel generalizing h lines with
  | zero =>
    cases parsed
    exact ⟨sound, tied⟩
  | succ fuel ih =>
    cases lines with
    | nil =>
      cases parsed
      exact ⟨sound, tied⟩
    | cons line lines =>
      rw [StorageMetadata.parseLines] at parsed
      rw [listedLines] at pairs
      split at parsed
      · rename_i captures latest
        rw [latest] at pairs
        obtain ⟨id, -, rest⟩ := Option.bind_eq_some_iff.mp parsed
        refine ih ?_ ?_ pairs rest
        · exact ⟨⟨sound.bounded, sound.registered⟩, sound.below, sound.whole⟩
        · exact tied
      · rename_i latest
        rw [latest] at pairs
        split at parsed
        · rename_i captures header
          rw [header] at pairs
          obtain ⟨first, later⟩ := List.forall_mem_append.mp pairs
          obtain ⟨r, read, rest⟩ := Option.bind_eq_some_iff.mp parsed
          obtain ⟨sound', tied', after⟩ := parseDirectory_links sound tied first read
          rw [after] at rest
          refine ih ?_ ?_ later rest
          · exact ⟨⟨sound'.bounded, sound'.registered⟩, sound'.below, sound'.whole⟩
          · exact tied'
        · rename_i header
          rw [header] at pairs
          split at parsed
          · rename_i captures folder
            rw [folder] at pairs
            obtain ⟨first, later⟩ := List.forall_mem_append.mp pairs
            obtain ⟨r, read, rest⟩ := Option.bind_eq_some_iff.mp parsed
            obtain ⟨sound', tied', after⟩ := parseDirectory_links sound tied first read
            rw [after] at rest
            exact ih sound' tied' later rest
          · rename_i folder
            rw [folder] at pairs
            exact ih sound tied pairs parsed

/-- The text and what the handler holds have no cycle together. -/
theorem parseMetadataFile_links {r : Bool × Handler} (sound : Sound h)
    (acyclic : Acyclic (Joined h h.metadataStr)) (parsed : h.parseMetadataFile env = some r) :
    Sound r.2 ∧ Acyclic (Lists r.2) := by
  have tied : Tied (Joined h h.metadataStr) h := fun p q d e object file link target =>
    .inl ⟨p, q, d, e, object, file, link, target, rfl, rfl⟩
  unfold Handler.parseMetadataFile at parsed
  split at parsed
  · cases parsed
    exact ⟨sound, acyclic_of_tied acyclic tied⟩
  · obtain ⟨h', read, rfl⟩ := Option.map_eq_some_iff.mp parsed
    obtain ⟨sound', tied'⟩ := parseLines_links sound tied (fun x mem => .inr mem) read
    exact ⟨sound', acyclic_of_tied acyclic tied'⟩

end Reading

end StorageLinks
