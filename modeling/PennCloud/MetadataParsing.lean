import PennCloud.HandlerObjects
import PennCloud.MetadataPrinting

/-!
# Parsing a printed tree

The parser makes the object of an entry where it is listed, and gives it its own
entries where its block comes, after the block that lists it. What it has read is a
part of the tree that grows item by item.
-/

namespace MetadataParsing

open Text UnorderedMap StorageMetadata StorageTree MetadataText MetadataPrinting BreadthFirst
  HandlerObjects
open Pattern (matchWhole)

/-! Reading an item -/

/-- What `ParseDirEntry` does with an item that it matched. -/
def attach (h : Handler) (parent : Ptr) (item : Item) : Option Handler :=
  let found := h.findOrCreateDirMapping item.id item.name item.isFile
  (found.1.update (some parent) (Dirent.addEntry item.name (some found.2))).bind fun h =>
    h.update (some found.2) (Dirent.updateParent (some parent))

theorem parseDirEntry_item {env : Env} {h : Handler} {parent : Ptr} {item : Item} {path : Str}
    (spelled : ∀ c ∈ item.name, pathChar c = true) (small : item.id ≤ INT_MAX)
    (computed : h.path env (some parent) = some path) :
    h.parseDirEntry env parent item.line = attach h parent item := by
  have kind : decide (typeChar item.isFile = 'F') = item.isFile := by
    cases item.isFile <;> rfl
  rw [Handler.parseDirEntry, Item.line, match_itemLine item.id item.isFile spelled]
  simp only [stoi_toDecimal, if_pos small, Option.bind_some, computed, kind, attach]

/-! The part of the tree that was read -/

/-- The object that an entry has before it is read: the one with its id, or a new one. -/
def objectBefore (h₀ : Handler) (id : Nat) (n : Node) : Dirent :=
  ((h₀.directories.lookup id).bind h₀.memory.lookup).getD
    { relativePath := n.name, id := id, isFile := n.isFile }

/-- What was read was added to the object: its directory, and its entries among the ids. -/
structure Reads (t : Tree) (ids : List Nat) (h₀ h : Handler) (id : Nat) (n : Node) (d : Dirent) :
    Prop where
  relativePath : d.relativePath = (objectBefore h₀ id n).relativePath
  ident : d.id = id
  isFile : d.isFile = (objectBefore h₀ id n).isFile
  isRoot : d.isRoot = ((objectBefore h₀ id n).isRoot || decide (id = t.root))
  parent : ∀ q, n.parent = some q → d.parent = some (ptrOf h q)
  top : n.parent = none → d.parent = (objectBefore h₀ id n).parent
  listed : ∀ c m, c ∈ ids → t.node c = some m → m.parent = some id →
    d.entries.lookup m.name = some (some (ptrOf h c))
  unlisted : ∀ name, (∀ c m, c ∈ ids → t.node c = some m → m.parent = some id → m.name ≠ name) →
    d.entries.lookup name = (objectBefore h₀ id n).entries.lookup name

/-- The entries in the list were read into the first handler. -/
structure Grown (t : Tree) (ids : List Nat) (h₀ h : Handler) : Prop where
  top : t.Top ids
  within : ∀ id ∈ ids, (t.node id).isSome
  tidy : Tidy h
  known : ∀ id, (h.directories.lookup id).isSome ↔ id ∈ ids ∨ (h₀.directories.lookup id).isSome
  pointers : ∀ id p, h₀.directories.lookup id = some p → h.directories.lookup id = some p
  unread : ∀ id p, id ∉ ids → h₀.directories.lookup id = some p →
    h.memory.lookup p = h₀.memory.lookup p
  read : ∀ id n, id ∈ ids → t.node id = some n →
    ∃ d, h.memory.lookup (ptrOf h id) = some d ∧ Reads t ids h₀ h id n d

/-- Reading more does not move objects. -/
structure Kept (ids : List Nat) (h h' : Handler) : Prop where
  ptr : ∀ id ∈ ids, ptrOf h' id = ptrOf h id
  root : h'.root = h.root
  latestId : h'.latestId = h.latestId
  usr : h'.usr = h.usr

theorem Kept.trans {ids ids' : List Nat} {h h' h'' : Handler} (first : Kept ids h h')
    (second : Kept ids' h' h'') (more : ids ⊆ ids') : Kept ids h h'' where
  ptr id mem := (second.ptr id (more mem)).trans (first.ptr id mem)
  root := second.root.trans first.root
  latestId := second.latestId.trans first.latestId
  usr := second.usr.trans first.usr

theorem update_of_lookup {h : Handler} {p : Ptr} {d : Dirent} (f : Dirent → Dirent)
    (object : h.memory.lookup p = some d) :
    h.update (some p) f = some { h with memory := h.memory.insert p (f d) } := by
  rw [Handler.update, Option.bind_some, object]
  rfl

section Taken
variable {h₀ h h₁ : Handler} {id : Nat} {n : Node} {p : Ptr}

/-- The object of an entry, found or made. -/
structure Taken (h₀ h : Handler) (id : Nat) (n : Node) (h₁ : Handler) (p : Ptr) : Prop where
  tidy : Tidy h₁
  pointer : h₁.directories.lookup id = some p
  object : h₁.memory.lookup p = some (objectBefore h₀ id n)
  directories : ∀ other, other ≠ id → h₁.directories.lookup other = h.directories.lookup other
  memory : ∀ q, q ≠ p → h₁.memory.lookup q = h.memory.lookup q
  old : ∀ q, h₀.directories.lookup id = some q → p = q
  root : h₁.root = h.root
  latestId : h₁.latestId = h.latestId
  usr : h₁.usr = h.usr

theorem ptrOf_of_lookup (known : h.directories.lookup id = some p) : ptrOf h id = p := by
  rw [ptrOf, known]
  rfl

theorem taken_findOrCreate (h₀ : Handler) (tidy : Tidy h)
    (known : (h.directories.lookup id).isSome → (h₀.directories.lookup id).isSome)
    (unread : ∀ p, h₀.directories.lookup id = some p →
      h.directories.lookup id = some p ∧ h.memory.lookup p = h₀.memory.lookup p) :
    Taken h₀ h id n (h.findOrCreateDirMapping id n.name n.isFile).1
      (h.findOrCreateDirMapping id n.name n.isFile).2 := by
  have tidy' : Tidy (h.findOrCreateDirMapping id n.name n.isFile).1 := tidy.findOrCreate
  rw [Handler.findOrCreateDirMapping] at tidy' ⊢
  cases pointer : h.directories.lookup id with
  | some p =>
    rw [pointer] at tidy'
    obtain ⟨p₀, old⟩ := Option.isSome_iff_exists.mp (known (by rw [pointer]; rfl))
    obtain ⟨same, object⟩ := unread p₀ old
    cases pointer.symm.trans same
    obtain ⟨d, stored, -⟩ := tidy.registered id p pointer
    refine ⟨tidy', pointer, ?_, fun _ _ => rfl, fun _ _ => rfl, fun q known => ?_, rfl, rfl, rfl⟩
    · rw [objectBefore, old, Option.bind_some, ← object, stored]
      rfl
    · exact Option.some.inj (old.symm.trans known)
  | none =>
    rw [pointer] at tidy'
    have new : h₀.directories.lookup id = none := by
      cases old : h₀.directories.lookup id with
      | none => rfl
      | some p => cases pointer.symm.trans (unread p old).1
    refine ⟨tidy', AList.lookup_insert _, ?_, fun other apart => AList.lookup_insert_ne apart,
      fun q apart => AList.lookup_insert_ne apart, fun q old => ?_, rfl, rfl, rfl⟩
    · rw [objectBefore, new]
      exact AList.lookup_insert _
    · cases new.symm.trans old

end Taken

section Attach
variable {t : Tree} {ids : List Nat} {h₀ h : Handler} {q : Nat} {item : Item}

/-- The object of an item. -/
def Item.object (item : Item) (parent : Option Ptr) : Dirent :=
  ⟨item.name, item.id, item.isFile, parent, false, ∅⟩

/-- The handler with the object of a new item. -/
def attached (h : Handler) (parent : Ptr) (d : Dirent) (item : Item) : Handler :=
  { h with
    memory := ((h.memory.insert h.nextPtr (Item.object item none)).insert parent
      (d.addEntry item.name (some h.nextPtr))).insert h.nextPtr (Item.object item (some parent))
    directories := h.directories.insert item.id h.nextPtr
    nextPtr := h.nextPtr + 1 }

theorem attach_new {parent : Ptr} {d : Dirent} (unknown : h.directories.lookup item.id = none)
    (object : h.memory.lookup parent = some d) (old : parent ≠ h.nextPtr) :
    attach h parent item = some (attached h parent d item) := by
  rw [attach, Handler.findOrCreateDirMapping, unknown]
  simp only [Handler.allocate, Handler.update, Option.bind_some, AList.lookup_insert_ne old,
    object, Option.map_some, AList.lookup_insert_ne old.symm, AList.lookup_insert,
    Dirent.updateParent]
  rfl

theorem memory_attached {parent : Ptr} {d : Dirent} (p : Ptr) :
    (attached h parent d item).memory.lookup p =
      if p = h.nextPtr then some (Item.object item (some parent))
      else if p = parent then some (d.addEntry item.name (some h.nextPtr))
      else h.memory.lookup p := by
  rw [attached]
  by_cases new : p = h.nextPtr
  · rw [if_pos new, new, AList.lookup_insert]
  · rw [if_neg new, AList.lookup_insert_ne new]
    by_cases above : p = parent
    · rw [if_pos above, above, AList.lookup_insert]
    · rw [if_neg above, AList.lookup_insert_ne above, AList.lookup_insert_ne new]

/-- The links of an item. -/
theorem linked_of_attach {h₁ : Handler} {p parent : Ptr} {n : Node} {d : Dirent} {id : Nat}
    (taken : Taken h₀ h id n h₁ p) (above : h.memory.lookup parent = some d) (apart : parent ≠ p)
    (name : Str) : ∃ h', ((h₁.update (some parent) (Dirent.addEntry name (some p))).bind fun h =>
        h.update (some p) (Dirent.updateParent (some parent))) = some h' ∧
      Tidy h' ∧ h'.directories = h₁.directories ∧
      (h'.root = h.root ∧ h'.latestId = h.latestId ∧ h'.usr = h.usr) ∧ ∀ r, h'.memory.lookup r =
        if r = p then some ((objectBefore h₀ id n).updateParent (some parent))
        else if r = parent then some (d.addEntry name (some p)) else h.memory.lookup r := by
  have first := update_of_lookup (Dirent.addEntry name (some p))
    ((taken.memory parent apart).trans above)
  have object : (h₁.memory.insert parent (d.addEntry name (some p))).lookup p =
      some (objectBefore h₀ id n) := (AList.lookup_insert_ne apart.symm).trans taken.object
  have second := update_of_lookup (h := { h₁ with memory := _ })
    (Dirent.updateParent (some parent)) object
  refine ⟨_, ?_, (taken.tidy.update first fun _ => rfl).update second fun _ => rfl, rfl,
    ⟨taken.root, taken.latestId, taken.usr⟩, fun r => ?_⟩
  · rw [first]
    exact second
  · by_cases new : r = p
    · rw [if_pos new, new]
      exact AList.lookup_insert _
    · rw [if_neg new]
      refine (AList.lookup_insert_ne new).trans ?_
      by_cases up : r = parent
      · rw [if_pos up, up]
        exact AList.lookup_insert _
      · rw [if_neg up]
        exact (AList.lookup_insert_ne up).trans (taken.memory r new)

theorem Grown.pointer (grown : Grown t ids h₀ h) {id : Nat} (mem : id ∈ ids) :
    h.directories.lookup id = some (ptrOf h id) := by
  obtain ⟨p, pointer⟩ := Option.isSome_iff_exists.mp ((grown.known id).mpr (.inl mem))
  rw [ptrOf_of_lookup pointer, pointer]

/-- Another item is read in another directory. -/
theorem Reads.elsewhere {h' : Handler} {id x : Nat} {n m : Node} {d : Dirent}
    (reads : Reads t ids h₀ h id n d) (top : t.Top ids) (mem : id ∈ ids) (node : t.node id = some n)
    (kept : ∀ c ∈ ids, ptrOf h' c = ptrOf h c) (here : t.node x = some m)
    (other : m.parent ≠ some id) : Reads t (x :: ids) h₀ h' id n d where
  relativePath := reads.relativePath
  ident := reads.ident
  isFile := reads.isFile
  isRoot := reads.isRoot
  parent q up := by rw [kept q (top.closed mem node up), reads.parent q up]
  top := reads.top
  listed c k listed child up := by
    rcases List.mem_cons.mp listed with rfl | old
    · cases here.symm.trans child
      exact absurd up other
    · rw [kept c old]
      exact reads.listed c k old child up
  unlisted name free :=
    reads.unlisted name fun c k old => free c k (List.mem_cons_of_mem _ old)

/-- Another item is read in the directory. -/
theorem Reads.entry {h' : Handler} {id x : Nat} {n m : Node} {d : Dirent} (wf : t.WellFormed)
    (reads : Reads t ids h₀ h id n d) (top : t.Top ids) (mem : id ∈ ids) (node : t.node id = some n)
    (kept : ∀ c ∈ ids, ptrOf h' c = ptrOf h c) (here : t.node x = some m)
    (parent : m.parent = some id) (new : x ∉ ids) :
    Reads t (x :: ids) h₀ h' id n (d.addEntry m.name (some (ptrOf h' x))) where
  relativePath := reads.relativePath
  ident := reads.ident
  isFile := reads.isFile
  isRoot := reads.isRoot
  parent q up := by
    rw [kept q (top.closed mem node up)]
    exact reads.parent q up
  top := reads.top
  listed c k listed child up := by
    rw [Dirent.addEntry]
    rcases List.mem_cons.mp listed with rfl | old
    · cases here.symm.trans child
      rw [AList.lookup_insert]
    · have apart : k.name ≠ m.name := by
        intro same
        obtain rfl := wf.distinct child here (up.trans parent.symm) same
        exact new old
      rw [AList.lookup_insert_ne apart, kept c old]
      exact reads.listed c k old child up
  unlisted name free := by
    have apart : name ≠ m.name := (free x m List.mem_cons_self here parent).symm
    rw [Dirent.addEntry, AList.lookup_insert_ne apart]
    exact reads.unlisted name fun c k old => free c k (List.mem_cons_of_mem _ old)

/-- The entries of an item are not read yet. -/
theorem reads_item {h' h₁ : Handler} {x : Nat} {n : Node} {p : Ptr} (wf : t.WellFormed)
    (top : t.Top ids) (mem : q ∈ ids) (kept : ∀ c ∈ ids, ptrOf h' c = ptrOf h c)
    (here : t.node x = some n) (parent : n.parent = some q) (new : x ∉ ids)
    (taken : Taken h₀ h x n h₁ p) :
    Reads t (x :: ids) h₀ h' x n ((objectBefore h₀ x n).updateParent (some (ptrOf h q))) where
  relativePath := rfl
  ident := by
    obtain ⟨d, stored, ident⟩ := taken.tidy.registered x p taken.pointer
    cases stored.symm.trans taken.object
    exact ident
  isFile := rfl
  isRoot := by
    rw [decide_eq_false (wf.ne_root here parent), Bool.or_false]
    rfl
  parent q' up := by
    cases parent.symm.trans up
    rw [kept q mem]
    rfl
  top none := by
    rw [parent] at none
    cases none
  listed c k listed child up := by
    rcases List.mem_cons.mp listed with rfl | old
    · exact absurd rfl (wf.ne_parent child up)
    · exact absurd (top.closed old child up) new
  unlisted name _ := rfl

/-- The parser links an item that it has not read yet. -/
theorem grown_attach (wf : t.WellFormed) (grown : Grown t ids h₀ h) (mem : q ∈ ids) {o n : Node}
    (above : t.node q = some o) (here : t.node item.id = some n) (parent : n.parent = some q)
    (named : n.name = item.name) (kind : n.isFile = item.isFile) (new : item.id ∉ ids) :
    ∃ h', attach h (ptrOf h q) item = some h' ∧ Grown t (item.id :: ids) h₀ h' ∧ Kept ids h h' := by
  obtain ⟨d, object, reads⟩ := grown.read q o mem above
  obtain ⟨h₁, p, same⟩ : ∃ h₁ p, h.findOrCreateDirMapping item.id n.name n.isFile = (h₁, p) :=
    ⟨_, _, rfl⟩
  have taken : Taken h₀ h item.id n h₁ p := by
    have found := taken_findOrCreate h₀ (n := n) grown.tidy
      (fun some => ((grown.known item.id).mp some).resolve_left new)
      fun p old => ⟨grown.pointers item.id p old, grown.unread item.id p new old⟩
    rwa [same] at found
  have notSelf : ∀ id ∈ ids, id ≠ item.id := fun id mem same => new (same ▸ mem)
  -- the object of the item is none of those that were read
  have apart : ∀ id ∈ ids, ptrOf h id ≠ p := by
    intro id mem same
    have registered := (taken.directories id (notSelf id mem)).trans (grown.pointer mem)
    exact notSelf id mem (taken.tidy.distinct (same ▸ registered) taken.pointer)
  obtain ⟨h', linked, tidy, directories, ⟨root, latest, usr⟩, memory⟩ :=
    linked_of_attach taken object (apart q mem) item.name
  have kept : ∀ id ∈ ids, ptrOf h' id = ptrOf h id := by
    intro id mem
    rw [ptrOf, directories, taken.directories id (notSelf id mem), ptrOf]
  have own : ptrOf h' item.id = p := ptrOf_of_lookup (directories ▸ taken.pointer)
  refine ⟨h', ?_, ⟨⟨List.mem_cons_of_mem _ grown.top.root_mem, fun listed node up => ?_⟩,
    List.forall_mem_cons.mpr ⟨by rw [here]; rfl, grown.within⟩, tidy, fun id => ?_,
    fun id r old => ?_, fun id r unlisted old => ?_, fun id m listed node => ?_⟩, kept, root, latest,
    usr⟩
  · rw [attach, ← named, ← kind, same, named]
    exact linked
  · rcases List.mem_cons.mp listed with rfl | old
    · cases here.symm.trans node
      cases parent.symm.trans up
      exact List.mem_cons_of_mem _ mem
    · exact List.mem_cons_of_mem _ (grown.top.closed old node up)
  · rw [directories, List.mem_cons]
    by_cases self : id = item.id
    · rw [self, taken.pointer]
      simp
    · rw [taken.directories id self, grown.known, or_iff_right self]
  · rw [directories]
    by_cases self : id = item.id
    · subst self
      rw [taken.pointer, taken.old r old]
    · rw [taken.directories id self, grown.pointers id r old]
  · obtain ⟨unread, others⟩ := not_or.mp (List.mem_cons.not.mp unlisted)
    have pointer := grown.pointers id r old
    have registered := (taken.directories id unread).trans pointer
    have notItem : r ≠ p := by
      rintro rfl
      exact unread (taken.tidy.distinct registered taken.pointer)
    have notParent : r ≠ ptrOf h q := by
      rintro rfl
      exact others (grown.tidy.distinct pointer (grown.pointer mem) ▸ mem)
    rw [memory, if_neg notItem, if_neg notParent]
    exact grown.unread id r others old
  · by_cases self : id = item.id
    · subst self
      cases here.symm.trans node
      refine ⟨_, ?_, reads_item wf grown.top mem kept here parent new taken⟩
      rw [own, memory, if_pos rfl]
    · have old := (List.mem_cons.mp listed).resolve_left self
      rw [kept id old, memory, if_neg (apart id old)]
      by_cases up : id = q
      · subst up
        cases above.symm.trans node
        rw [if_pos rfl, ← own, ← named]
        exact ⟨_, rfl, reads.entry wf grown.top mem above kept here parent new⟩
      · obtain ⟨e, stored, reads'⟩ := grown.read id m old node
        have notParent : ptrOf h id ≠ ptrOf h q := fun same =>
          up (grown.tidy.distinct (same ▸ grown.pointer old) (grown.pointer mem))
        rw [if_neg notParent]
        refine ⟨e, stored, reads'.elsewhere grown.top old node kept here ?_⟩
        rw [parent]
        exact fun same => up (Option.some.inj same).symm

/-- Only the objects and the map from ids matter. -/
theorem Grown.congr {h₀' h' : Handler} (grown : Grown t ids h₀ h)
    (directories₀ : h₀'.directories = h₀.directories) (memory₀ : h₀'.memory = h₀.memory)
    (directories : h'.directories = h.directories) (memory : h'.memory = h.memory)
    (nextPtr : h'.nextPtr = h.nextPtr) : Grown t ids h₀' h' := by
  have objects : objectBefore h₀' = objectBefore h₀ := by
    funext id n
    rw [objectBefore, directories₀, memory₀, objectBefore]
  have pointers : ptrOf h' = ptrOf h := by
    funext id
    rw [ptrOf, directories, ptrOf]
  refine ⟨grown.top, grown.within, ⟨?_, ?_⟩, ?_, ?_, ?_, fun id n mem node => ?_⟩
  · rw [memory, nextPtr]
    exact grown.tidy.bounded
  · rw [memory, directories]
    exact grown.tidy.registered
  · rw [directories, directories₀]
    exact grown.known
  · rw [directories, directories₀]
    exact grown.pointers
  · rw [directories₀, memory, memory₀]
    exact grown.unread
  · obtain ⟨d, object, reads⟩ := grown.read id n mem node
    refine ⟨d, by rw [memory, pointers, object], ?_⟩
    constructor
    case relativePath => rw [objects, reads.relativePath]
    case ident => exact reads.ident
    case isFile => rw [objects, reads.isFile]
    case isRoot => rw [objects, reads.isRoot]
    case parent => rw [pointers]; exact reads.parent
    case top => rw [objects]; exact reads.top
    case listed => rw [pointers]; exact reads.listed
    case unlisted => rw [objects]; exact reads.unlisted

/-- The path of an object that was read. -/
theorem Grown.path (grown : Grown t ids h₀ h) {env : Env} (wf : t.WellFormed)
    (enough : INT_MAX < env.fuel) (mem : q ∈ ids) {o : Node} (here : t.node q = some o) :
    ∃ path, h.path env (some (ptrOf h q)) = some path := by
  have walks : ∀ {k}, t.Depth q k → ∀ {fuel}, k < fuel →
      ∃ path, pathOf h fuel (some (ptrOf h q)) = some path := by
    intro k depth
    induction depth generalizing o with
    | root =>
      intro fuel some
      obtain ⟨fuel, rfl⟩ := Nat.exists_eq_succ_of_ne_zero (by omega : fuel ≠ 0)
      obtain ⟨d, object, reads⟩ := grown.read _ o mem here
      have top : d.isRoot = true := by rw [reads.isRoot, decide_eq_true rfl, Bool.or_true]
      refine ⟨'/' :: d.relativePath, ?_⟩
      rw [pathOf, Handler.deref, Option.bind_some, object, Option.bind_some, if_pos top]
    | @entry x p k n a here' parent above directory depth ih =>
      intro fuel some
      obtain ⟨fuel, rfl⟩ := Nat.exists_eq_succ_of_ne_zero (by omega : fuel ≠ 0)
      obtain ⟨d, object, reads⟩ := grown.read x n mem here'
      obtain ⟨path, computed⟩ := ih (grown.top.closed mem here' parent) above (by omega : k < fuel)
      rw [pathOf, Handler.deref, Option.bind_some, object, Option.bind_some, reads.parent p parent,
        Option.bind_some, computed]
      split
      · exact ⟨_, rfl⟩
      · exact ⟨_, rfl⟩
  obtain ⟨k, depth⟩ := wf.rooted here
  exact walks depth (lt_of_le_of_lt (wf.depth_le depth) enough)

end Attach

/-! Reading the blocks -/

/-- Names that the patterns of the lines let through. -/
structure Spelled (t : Tree) : Prop where
  names : ∀ id n, t.node id = some n → ∀ c ∈ n.name, pathChar c = true
  root : ∀ n, t.node t.root = some n → '/' ∉ n.name

/-- A path begins with a slash. -/
theorem Spelled.path {t : Tree} (spelled : Spelled t) {id : Nat} {path : Str}
    (isPath : t.PathOf id path) :
    ∃ tail, path = '/' :: tail ∧ ∀ c ∈ tail, pathChar c = true := by
  induction isPath with
  | root here => exact ⟨_, rfl, spelled.names _ _ here⟩
  | entry here parent above ih =>
    obtain ⟨tail, rfl, each⟩ := ih
    refine ⟨tail ++ '/' :: _, rfl, fun c mem => ?_⟩
    rcases List.mem_append.mp mem with old | new
    · exact each c old
    · rcases List.mem_cons.mp new with rfl | name
      · decide
      · exact spelled.names _ _ here c name

/-- The names of a tree: not empty, and over the characters of the patterns but for the slash. -/
def Named (t : Tree) : Prop :=
  ∀ id n, t.node id = some n → n.name ≠ [] ∧ ∀ c ∈ n.name, pathChar c = true ∧ c ≠ '/'

theorem Named.spelled {t : Tree} (named : Named t) : Spelled t where
  names id n here c mem := ((named id n here).2 c mem).1
  root n here mem := ((named t.root n here).2 '/' mem).2 rfl

section Blocks
variable {t : Tree} {env : Env} {h₀ : Handler}

/-- The items of a block are new, and all in one directory. -/
def News (t : Tree) (q : Nat) (ids : List Nat) (items : List Item) : Prop :=
  (items.map Item.id).Nodup ∧ ∀ item ∈ items, item.id ∉ ids ∧ ∃ n, t.node item.id = some n ∧
    n.parent = some q ∧ n.name = item.name ∧ n.isFile = item.isFile

theorem parse_items (wf : t.WellFormed) (spelled : Spelled t) (enough : INT_MAX < env.fuel)
    {q : Nat} {o : Node} (above : t.node q = some o) (rest : List Str) {items : List Item}
    {ids : List Nat} {h : Handler} (grown : Grown t ids h₀ h) (mem : q ∈ ids)
    (news : News t q ids items) :
    ∃ h' ids', parseItems env (ptrOf h q) items.length (items.map Item.line ++ rest) h =
        some (h', rest) ∧ Grown t ids' h₀ h' ∧ Kept ids h h' ∧
      ∀ id, id ∈ ids' ↔ id ∈ ids ∨ id ∈ items.map Item.id := by
  induction items generalizing ids h with
  | nil => exact ⟨h, ids, rfl, grown, ⟨fun _ _ => rfl, rfl, rfl, rfl⟩, by simp⟩
  | cons item items ih =>
    obtain ⟨nodup, each⟩ := news
    obtain ⟨⟨new, n, here, parent, named, kind⟩, later⟩ := List.forall_mem_cons.mp each
    obtain ⟨unlike, nodup⟩ := List.nodup_cons.mp nodup
    obtain ⟨path, computed⟩ := grown.path wf enough mem above
    obtain ⟨next, attached, grown', kept⟩ :=
      grown_attach wf grown mem above here parent named kind new
    have news' : News t q (item.id :: ids) items := by
      refine ⟨nodup, fun other listed => ?_⟩
      obtain ⟨fresh, node⟩ := later other listed
      refine ⟨fun no => ?_, node⟩
      rcases List.mem_cons.mp no with same | old
      · exact unlike (same ▸ List.mem_map_of_mem listed)
      · exact fresh old
    obtain ⟨h', ids', parsed, final, kept', all⟩ := ih grown' (List.mem_cons_of_mem _ mem) news'
    refine ⟨h', ids', ?_, final, kept.trans kept' (List.subset_cons_self _ _), fun id => ?_⟩
    · rw [kept.ptr q mem] at parsed
      have letters : ∀ c ∈ item.name, pathChar c = true := named ▸ spelled.names _ _ here
      rw [List.length_cons, List.map_cons, List.cons_append, parseItems,
        parseDirEntry_item letters (wf.inInt here) computed, attached, Option.bind_some, parsed]
    · rw [all id, List.map_cons, List.mem_cons, List.mem_cons]
      tauto

/-- As many items as there are ids besides the root folder. -/
theorem items_length (wf : t.WellFormed) {q : Nat} {ids : List Nat} {items : List Item}
    (known : t.root ∈ ids) (news : News t q ids items) : items.length ≤ INT_MAX := by
  have nodup : (t.root :: items.map Item.id).Nodup := by
    refine List.nodup_cons.mpr ⟨fun mem => ?_, news.1⟩
    obtain ⟨item, listed, same⟩ := List.mem_map.mp mem
    exact (news.2 item listed).1 (same ▸ known)
  obtain ⟨name, root⟩ := wf.root
  have fits := length_le_of_inInt nodup fun id mem => by
    rcases List.mem_cons.mp mem with rfl | mem
    · exact wf.inInt root
    · obtain ⟨item, listed, rfl⟩ := List.mem_map.mp mem
      obtain ⟨-, n, here, -⟩ := news.2 item listed
      exact wf.inInt here
  rw [List.length_cons, List.length_map] at fits
  omega

/-- The block of a directory that was listed before. -/
theorem parse_block (wf : t.WellFormed) (spelled : Spelled t) (enough : INT_MAX < env.fuel)
    {q : Nat} {o : Node} (above : t.node q = some o) (rest : List Str) {items : List Item}
    {ids : List Nat} {h : Handler} (path : Str) (grown : Grown t ids h₀ h) (mem : q ∈ ids)
    (news : News t q ids items) :
    ∃ h' ids', h.parseDirectory env [path, toDecimal q, toDecimal items.length] false
        (items.map Item.line ++ rest) = some (h', ptrOf h q, rest) ∧ Grown t ids' h₀ h' ∧
      Kept ids h h' ∧ ∀ id, id ∈ ids' ↔ id ∈ ids ∨ id ∈ items.map Item.id := by
  obtain ⟨h', ids', parsed, final⟩ := parse_items wf spelled enough above rest grown mem news
  refine ⟨h', ids', ?_, final⟩
  have count := items_length wf grown.top.root_mem news
  have found : h.findOrCreateDirMapping q (lastName path) false = (h, ptrOf h q) := by
    rw [Handler.findOrCreateDirMapping, grown.pointer mem]
  simp only [Handler.parseDirectory, stoi_toDecimal, if_pos (wf.inInt above), if_pos count,
    Option.bind_some, found, Bool.false_eq_true, if_false, parsed, Option.map_some]

/-- The root folder is read first. -/
theorem grown_root (wf : t.WellFormed) {h : Handler} (tidy : Tidy h) {name : Str}
    (here : t.node t.root = some ⟨name, false, none⟩) :
    ∃ h', (h.findOrCreateDirMapping t.root name false).1.update
        (some (h.findOrCreateDirMapping t.root name false).2) Dirent.setIsRoot = some h' ∧
      (h.findOrCreateDirMapping t.root name false).2 = ptrOf h' t.root ∧
      Grown t [t.root] h h' ∧ h'.latestId = h.latestId ∧ h'.usr = h.usr := by
  obtain ⟨h₁, p, same⟩ : ∃ h₁ p, h.findOrCreateDirMapping t.root name false = (h₁, p) :=
    ⟨_, _, rfl⟩
  have taken : Taken h h t.root ⟨name, false, none⟩ h₁ p := by
    have found := taken_findOrCreate h (n := ⟨name, false, none⟩) tidy id
      fun p pointer => (⟨pointer, rfl⟩ : h.directories.lookup t.root = some p ∧ _)
    rwa [same] at found
  rw [same]
  have updated := update_of_lookup Dirent.setIsRoot taken.object
  have pointer : ∀ memory, ptrOf { h₁ with memory := memory } t.root = p :=
    fun _ => ptrOf_of_lookup taken.pointer
  refine ⟨_, updated, (pointer _).symm, ⟨⟨List.mem_singleton_self _, fun mem node up => ?_⟩,
    fun id mem => ?_, taken.tidy.update updated fun _ => rfl, fun id => ?_, fun id r old => ?_,
    fun id r unread old => ?_, fun id n mem node => ?_⟩, taken.latestId, taken.usr⟩
  · rw [List.mem_singleton.mp mem] at node
    exact absurd rfl (wf.ne_root node up)
  · rw [List.mem_singleton.mp mem, here]
    rfl
  · rw [List.mem_singleton]
    by_cases self : id = t.root
    · rw [self, taken.pointer]
      simp
    · rw [taken.directories id self, or_iff_right self]
  · by_cases self : id = t.root
    · subst self
      exact taken.pointer.trans (congrArg some (taken.old r old))
    · exact (taken.directories id self).trans old
  · have other := List.mem_singleton.not.mp unread
    have registered := (taken.directories id other).trans old
    have apart : r ≠ p := by
      rintro rfl
      exact other (taken.tidy.distinct registered taken.pointer)
    exact (AList.lookup_insert_ne apart).trans (taken.memory r apart)
  · obtain rfl := List.mem_singleton.mp mem
    cases here.symm.trans node
    refine ⟨(objectBefore h t.root ⟨name, false, none⟩).setIsRoot, ?_, rfl, ?_, rfl, ?_, nofun,
      fun _ => rfl, fun c m listed child up => ?_, fun _ _ => rfl⟩
    · rw [pointer]
      exact AList.lookup_insert _
    · obtain ⟨d, stored, ident⟩ := taken.tidy.registered t.root p taken.pointer
      cases stored.symm.trans taken.object
      exact ident
    · rw [decide_eq_true rfl, Bool.or_true]
      rfl
    · rw [List.mem_singleton.mp listed] at child
      exact absurd rfl (wf.ne_root child up)

theorem parse_root (wf : t.WellFormed) (spelled : Spelled t) (enough : INT_MAX < env.fuel)
    {name : Str} (here : t.node t.root = some ⟨name, false, none⟩) (rest : List Str)
    {items : List Item} {h : Handler} (tidy : Tidy h) (news : News t t.root [t.root] items) :
    ∃ h' ids', h.parseDirectory env [name, toDecimal t.root, toDecimal items.length] true
        (items.map Item.line ++ rest) = some (h', ptrOf h' t.root, rest) ∧ Grown t ids' h h' ∧
      (h'.latestId = h.latestId ∧ h'.usr = h.usr) ∧
      ∀ id, id ∈ ids' ↔ id = t.root ∨ id ∈ items.map Item.id := by
  obtain ⟨h₁, marked, pointer, grown₁, latest, usr⟩ := grown_root wf tidy here
  obtain ⟨h', ids', parsed, grown, kept, all⟩ := parse_items wf spelled enough here rest grown₁
    (List.mem_singleton_self _) news
  refine ⟨h', ids', ?_, grown, ⟨kept.latestId.trans latest, kept.usr.trans usr⟩,
    by simpa using all⟩
  have count := items_length wf (List.mem_singleton_self _) news
  have last : lastName name = name := by
    have letters : ∀ c ∈ name.reverse, decide (c ≠ '/') = true := by
      intro c mem
      have apart : c ≠ '/' := fun same => spelled.root _ here (same ▸ List.mem_reverse.mp mem)
      exact decide_eq_true apart
    rw [lastName, List.takeWhile_eq_self_iff.mpr letters, List.reverse_reverse]
  rw [pointer] at marked
  rw [kept.ptr _ (List.mem_singleton_self _)]
  simp only [Handler.parseDirectory, stoi_toDecimal, if_pos (wf.inInt here), if_pos count,
    Option.bind_some, last, if_true, marked, pointer, parsed, Option.map_some]

/-- The entries that are listed in the blocks of these directories. -/
def ListedIn (t : Tree) (order : List Nat) (id : Nat) : Prop :=
  ∃ p ∈ order, ∃ n, t.node id = some n ∧ n.parent = some p

theorem mem_items {id q : Nat} {items : List Item} (lists : Lists t q items) :
    id ∈ items.map Item.id ↔ ∃ n, t.node id = some n ∧ n.parent = some q := by
  rw [List.mem_map]
  constructor
  · rintro ⟨item, mem, rfl⟩
    obtain ⟨n, here, parent, -⟩ := (lists.mem item).mp mem
    exact ⟨n, here, parent⟩
  · rintro ⟨n, here, parent⟩
    exact ⟨⟨n.name, id, n.isFile⟩, (lists.mem _).mpr ⟨n, here, parent, rfl, rfl⟩, rfl⟩

/-- The entries of a directory are new as long as its block was not read. -/
theorem news_of_unread (wf : t.WellFormed) {q : Nat} {items : List Item}
    (lists : Lists t q items) {before ids : List Nat} (unread : q ∉ before)
    (all : ∀ id ∈ ids, id = t.root ∨ ListedIn t before id) : News t q ids items := by
  refine ⟨lists.nodup, fun item mem => ?_⟩
  obtain ⟨n, here, parent, named, kind⟩ := (lists.mem item).mp mem
  refine ⟨fun known => ?_, n, here, parent, named, kind⟩
  rcases all item.id known with root | ⟨p, read, m, here', parent'⟩
  · exact wf.ne_root here parent root
  · cases here.symm.trans here'
    cases parent.symm.trans parent'
    exact unread read

/-- One turn of the parser for each directory, in any order that lists an entry first. -/
theorem parse_folders (wf : t.WellFormed) (spelled : Spelled t) (enough : INT_MAX < env.fuel)
    {block : Nat → Block} {order : List Nat} (printed : Printed t block order)
    {before after : List Nat} (split : order = before ++ after) {fuel : Nat} {ids : List Nat}
    {h : Handler} (lines : (after.flatMap fun id => (block id).lines folderWords).length ≤ fuel)
    (grown : Grown t ids h₀ h) (all : ∀ id, id ∈ ids ↔ id = t.root ∨ ListedIn t before id) :
    ∃ h' ids', parseLines env fuel (after.flatMap fun id => (block id).lines folderWords) h =
        some h' ∧ Grown t ids' h₀ h' ∧ Kept ids h h' ∧
      ∀ id, id ∈ ids' ↔ id = t.root ∨ ListedIn t order id := by
  induction after generalizing before fuel ids h with
  | nil =>
    refine ⟨h, ids, by cases fuel <;> rfl, grown, ⟨fun _ _ => rfl, rfl, rfl, rfl⟩, ?_⟩
    rw [split, List.append_nil]
    exact all
  | cons q after ih =>
    obtain ⟨o, above, directory⟩ := (printed.directories q).mp (by simp [split])
    obtain ⟨number, isPath, lists⟩ := printed.blocks q o above directory
    obtain ⟨tail, path, letters⟩ := spelled.path isPath
    have known : q ∈ ids := by
      rw [all]
      rcases printed.ordered before q after split with root | ⟨p, read, listed⟩
      · exact .inl root
      · obtain ⟨o', above', directory'⟩ := (printed.directories p).mp (by simp [split, read])
        obtain ⟨m, here, parent, -⟩ := (mem_folders (printed.blocks p o' above' directory').2.2).mp
          listed
        exact .inr ⟨p, read, m, here, parent⟩
    have unread : q ∉ before := by
      intro read
      have nodup := printed.nodup
      rw [split] at nodup
      exact List.disjoint_of_nodup_append nodup read List.mem_cons_self
    have news := news_of_unread wf lists unread fun id mem => (all id).mp mem
    rw [List.flatMap_cons, Block.lines, number, path] at lines ⊢
    obtain ⟨fuel, rfl⟩ := Nat.exists_eq_succ_of_ne_zero (by
      simp only [List.length_append, List.length_cons] at lines
      omega : fuel ≠ 0)
    obtain ⟨next, ids₁, parsed, grown₁, kept₁, all₁⟩ := parse_block wf spelled enough above
      (after.flatMap fun id => (block id).lines folderWords) tail grown known news
    have turned : ∀ id, id ∈ ids₁ ↔ id = t.root ∨ ListedIn t (before ++ [q]) id := by
      intro id
      rw [all₁, all, mem_items lists, ListedIn, ListedIn]
      constructor
      · rintro ((root | ⟨p, read, node⟩) | node)
        · exact .inl root
        · exact .inr ⟨p, List.mem_append_left _ read, node⟩
        · exact .inr ⟨q, by simp, node⟩
      · rintro (root | ⟨p, read, node⟩)
        · exact .inl (.inl root)
        · rcases List.mem_append.mp read with old | new
          · exact .inl (.inr ⟨p, old, node⟩)
          · exact .inr (List.mem_singleton.mp new ▸ node)
    have fewer : (after.flatMap fun id => (block id).lines folderWords).length ≤ fuel := by
      simp only [List.length_append, List.length_cons] at lines
      omega
    obtain ⟨h', ids', rest, final, kept', all'⟩ := ih (by simpa using split) fewer grown₁ turned
    refine ⟨h', ids', ?_, final, kept₁.trans kept' fun id mem => (all₁ id).mpr (.inl mem), all'⟩
    rw [List.cons_append, parseLines, latest_ne_folder, root_ne_folder,
      match_folderHeader q _ letters]
    simp only [parsed, Option.bind_some, rest]

theorem spelled_block (spelled : Spelled t) {b : Block} {id : Nat} (isPath : t.PathOf id b.path)
    (lists : Lists t id b.items) : b.Spelled where
  path := by
    obtain ⟨tail, same, letters⟩ := spelled.path isPath
    rw [same]
    exact List.forall_mem_cons.mpr ⟨by decide, letters⟩
  names item mem := by
    obtain ⟨n, here, -, named, -⟩ := (lists.mem item).mp mem
    exact named ▸ spelled.names _ n here

theorem metadataStr_ne_nil (latest : Nat) (root : Block) (folders : List Block) :
    unlines (metadataLines latest root folders) ≠ [] := by
  rw [metadataLines, unlines_cons]
  simp

/-- What a printed tree adds to the handler that reads it. -/
theorem parse_merged (wf : t.WellFormed) (spelled : Spelled t) (enough : INT_MAX < env.fuel)
    {block : Nat → Block} {order : List Nat} (printed : Printed t block (t.root :: order))
    {latest : Nat} (small : latest ≤ INT_MAX) {h : Handler} (tidy : Tidy h)
    (text : h.metadataStr = unlines (metadataLines latest (block t.root) (order.map block))) :
    ∃ h' ids, h.parseMetadataFile env = some (true, h') ∧ Grown t ids h h' ∧
      (∀ id, id ∈ ids ↔ (t.node id).isSome) ∧ h'.root = some (ptrOf h' t.root) ∧
      h'.latestId = some latest ∧ h'.usr = h.usr := by
  obtain ⟨name, here⟩ := wf.root
  obtain ⟨number, isPath, lists⟩ := printed.blocks t.root _ here rfl
  have path : (block t.root).path = '/' :: name := isPath.unique wf.toRooted (.root here)
  have letters : ∀ c ∈ name, pathChar c = true := spelled.names _ _ here
  have single : ∀ line ∈ metadataLines latest (block t.root) (order.map block), '\n' ∉ line := by
    refine newline_metadataLines (spelled_block spelled isPath lists) fun b mem => ?_
    obtain ⟨id, listed, rfl⟩ := List.mem_map.mp mem
    obtain ⟨o, above, directory⟩ := (printed.directories id).mp (List.mem_cons_of_mem _ listed)
    obtain ⟨-, isPath, lists⟩ := printed.blocks id o above directory
    exact spelled_block spelled isPath lists
  have unread : ∀ id ∈ [t.root], id = t.root ∨ ListedIn t [] id := by simp
  have news := news_of_unread wf lists List.not_mem_nil unread
  obtain ⟨h₁, ids₁, first, grown₁, ⟨latest₁, usr₁⟩, all₁⟩ := parse_root wf spelled enough here
    (order.flatMap fun id => (block id).lines folderWords)
    (h := { h with latestId := some latest }) ⟨tidy.bounded, tidy.registered⟩ news
  have turned : ∀ id, id ∈ ids₁ ↔ id = t.root ∨ ListedIn t [t.root] id := by
    intro id
    rw [all₁, mem_items lists]
    simp [ListedIn]
  have fuel : (order.flatMap fun id => (block id).lines folderWords).length ≤
      ((block t.root).items.map Item.line ++
        order.flatMap fun id => (block id).lines folderWords).length := by
    rw [List.length_append]
    exact Nat.le_add_left _ _
  have rooted : Grown t ids₁ h { h₁ with root := some (ptrOf h₁ t.root) } :=
    grown₁.congr rfl rfl rfl rfl rfl
  obtain ⟨h₂, ids₂, rest, grown, kept, all⟩ := parse_folders wf spelled enough printed
    (rfl : t.root :: order = [t.root] ++ order) fuel rooted turned
  have everything : ∀ id n, t.node id = some n → id ∈ ids₂ := by
    intro id n node
    rw [all]
    by_cases root : id = t.root
    · exact .inl root
    · obtain ⟨q, o, parent, above, directory⟩ := wf.parent_of node root
      exact .inr ⟨q, (printed.directories q).mpr ⟨o, above, directory⟩, n, node, parent⟩
  refine ⟨h₂, ids₂, ?_, grown, fun id => ⟨grown.within id, fun some => ?_⟩, ?_,
    kept.latestId.trans latest₁, kept.usr.trans usr₁⟩
  · have ended : h.metadataStr ≠ [] := by
      rw [text]
      exact metadataStr_ne_nil _ _ _
    have header : (block t.root).lines rootWords = headerLine rootWords ('/' :: name) t.root
        (block t.root).items.length :: (block t.root).items.map Item.line := by
      rw [Block.lines, path, number]
    rw [Handler.parseMetadataFile, if_neg ended, text, split_unlines single]
    simp only [metadataLines, List.length_cons, parseLines, match_latestLine, List.headD_cons,
      stoi_toDecimal, if_pos small, Option.bind_some, header, List.cons_append, latest_ne_root,
      match_rootHeader t.root _ letters, List.flatMap_map, first, rest, Option.map_some]
  · obtain ⟨n, node⟩ := Option.isSome_iff_exists.mp some
    exact everything id n node
  · rw [kept.root, kept.ptr t.root grown₁.top.root_mem]
    rfl

theorem eq_empty_of_lookup {K V : Type} [DecidableEq K] {m : UMap K V}
    (nothing : ∀ k, m.lookup k = none) : m = ∅ := by
  refine AList.ext (List.eq_nil_iff_forall_not_mem.mpr fun e mem => ?_)
  exact AList.lookup_eq_none.mp (nothing e.1) (List.mem_map_of_mem (f := Sigma.fst) mem)

/-- The object that an entry has before it is read has nothing that the tree does not say. -/
def FitsEntry (t : Tree) (id : Nat) (n : Node) (d : Dirent) : Prop :=
  d.relativePath = n.name ∧ d.isFile = n.isFile ∧ (d.isRoot = true → id = t.root) ∧
    ∀ name entry, d.entries.lookup name = some entry →
      ∃ c m, t.node c = some m ∧ m.parent = some id ∧ m.name = name

section Complete
variable {ids : List Nat} {h h' : Handler}

/-- The entries of an object are those of the tree. -/
theorem Reads.lookup_iff {id : Nat} {n : Node} {d : Dirent} (reads : Reads t ids h h' id n d)
    (mem : ∀ id n, t.node id = some n → id ∈ ids) (fits : FitsEntry t id n (objectBefore h id n))
    (name : Str) (p : Option Ptr) : d.entries.lookup name = some p ↔
      ∃ c m, t.node c = some m ∧ m.parent = some id ∧ m.name = name ∧ p = some (ptrOf h' c) := by
  have listed : ∀ c m, t.node c = some m → m.parent = some id → m.name = name →
      d.entries.lookup name = some (some (ptrOf h' c)) := by
    rintro c m child up rfl
    exact reads.listed c m (mem c m child) child up
  constructor
  · intro entry
    by_cases known : ∃ c m, t.node c = some m ∧ m.parent = some id ∧ m.name = name
    · obtain ⟨c, m, child, up, named⟩ := known
      rw [listed c m child up named, Option.some.injEq] at entry
      exact ⟨c, m, child, up, named, entry.symm⟩
    · rw [reads.unlisted name fun c m _ child up named => known ⟨c, m, child, up, named⟩] at entry
      exact absurd (fits.2.2.2 name p entry) known
  · rintro ⟨c, m, child, up, named, rfl⟩
    exact listed c m child up named

/-- Where the objects that were there before fit, the handler holds the tree. -/
theorem holds_of_grown (wf : t.WellFormed) (grown : Grown t ids h h')
    (mem : ∀ id n, t.node id = some n → id ∈ ids) (root : h'.root = some (ptrOf h' t.root))
    (fits : ∀ id n, t.node id = some n → FitsEntry t id n (objectBefore h id n)) :
    Holds t h' (ptrOf h') ∧ ∀ id n d, t.node id = some n → n.isFile = true →
      h'.memory.lookup (ptrOf h' id) = some d → d.entries = ∅ := by
  refine ⟨⟨root, fun id n node => ?_⟩, fun id n d node file object => ?_⟩
  · obtain ⟨d, object, reads⟩ := grown.read id n (mem id n node) node
    obtain ⟨named, kind, marked, -⟩ := fits id n node
    refine ⟨d, object, reads.relativePath.trans named, reads.ident, reads.isFile.trans kind, ?_,
      reads.parent, fun _ => reads.lookup_iff mem (fits id n node)⟩
    rw [reads.isRoot]
    by_cases root : id = t.root
    · rw [decide_eq_true root, Bool.or_true]
    · rw [decide_eq_false root, Bool.or_false, Bool.eq_false_iff]
      exact fun yes => root (marked yes)
  · obtain ⟨d', object', reads⟩ := grown.read id n (mem id n node) node
    cases object.symm.trans object'
    refine eq_empty_of_lookup fun name => Option.eq_none_iff_forall_ne_some.mpr fun p entry => ?_
    obtain ⟨c, m, child, up, -⟩ := (reads.lookup_iff mem (fits id n node) name p).mp entry
    obtain ⟨o, above, directory⟩ := wf.directory child up
    cases node.symm.trans above
    rw [file] at directory
    cases directory

theorem exact_of_grown (wf : t.WellFormed) (grown : Grown t ids h h')
    (all : ∀ id, id ∈ ids ↔ (t.node id).isSome) (root : h'.root = some (ptrOf h' t.root))
    (unused : ∀ id, (h.directories.lookup id).isSome → (t.node id).isSome)
    (fits : ∀ id n, t.node id = some n → FitsEntry t id n (objectBefore h id n))
    (top : ∀ n, t.node t.root = some n → (objectBefore h t.root n).parent = none) : Exact t h' := by
  have mem : ∀ id n, t.node id = some n → id ∈ ids := fun id n node =>
    (all id).mpr (by rw [node]; rfl)
  obtain ⟨holds, files⟩ := holds_of_grown wf grown mem root fits
  refine ⟨holds, fun id => ?_, files, fun d object => ?_⟩
  · rw [grown.known, all]
    exact or_iff_left_of_imp (unused id)
  · obtain ⟨name, here⟩ := wf.root
    obtain ⟨d', object', reads⟩ := grown.read _ _ (mem _ _ here) here
    cases object.symm.trans object'
    rw [reads.top rfl]
    exact top _ here

/-- A new object fits. -/
theorem fitsEntry_new (t : Tree) (id : Nat) (n : Node) :
    FitsEntry t id n { relativePath := n.name, id := id, isFile := n.isFile } :=
  ⟨rfl, rfl, nofun, nofun⟩

end Complete

/-- A printed tree is parsed back. -/
theorem parse_printed (wf : t.WellFormed) (spelled : Spelled t) (enough : INT_MAX < env.fuel)
    {block : Nat → Block} {order : List Nat} (printed : Printed t block (t.root :: order))
    {latest : Nat} (small : latest ≤ INT_MAX) {h : Handler}
    (unused : h.directories = ∅ ∧ h.memory = ∅)
    (text : h.metadataStr = unlines (metadataLines latest (block t.root) (order.map block))) :
    ∃ h', h.parseMetadataFile env = some (true, h') ∧ Exact t h' ∧ h'.latestId = some latest := by
  obtain ⟨noIds, noObjects⟩ := unused
  have tidy : Tidy h := by
    constructor
    · rw [noObjects]
      nofun
    · rw [noIds]
      nofun
  obtain ⟨h', ids, parsed, grown, all, root, latest', -⟩ :=
    parse_merged wf spelled enough printed small tidy text
  have new : ∀ id n, objectBefore h id n =
      { relativePath := n.name, id := id, isFile := n.isFile } := by
    intro id n
    rw [objectBefore, noIds]
    rfl
  refine ⟨h', parsed, exact_of_grown wf grown all root ?_ (fun id n _ => ?_) fun n _ => ?_, latest'⟩
  · rw [noIds]
    nofun
  · rw [new]
    exact fitsEntry_new t id n
  · rw [new]

/-- A new handler parses the text to the tree. -/
def Says (t : Tree) (latest : Nat) (text : Str) : Prop :=
  ∀ (env : Env) (usr : Str) (fd : Int), INT_MAX < env.fuel →
    ∃ h, Handler.parseMetadataFile env { usr := usr, backendFd := fd, metadataStr := text } =
      some (true, h) ∧ Exact t h ∧ h.latestId = some latest

/-- The text is one that the tree is printed as. -/
def WrittenFor (t : Tree) (latest : Nat) (text : Str) : Prop :=
  ∃ block order, Printed t block (t.root :: order) ∧
    text = unlines (metadataLines latest (block t.root) (order.map block))

theorem says_of_written (wf : t.WellFormed) (spelled : Spelled t) {latest : Nat}
    (small : latest ≤ INT_MAX) {text : Str} (written : WrittenFor t latest text) :
    Says t latest text := by
  obtain ⟨block, order, printed, rfl⟩ := written
  intro env' usr fd enough'
  exact parse_printed wf spelled enough' printed small
    (h := { usr := usr, backendFd := fd, metadataStr := _ }) ⟨rfl, rfl⟩ rfl

theorem written_of_holds (wf : t.Rooted) {h : Handler} {ptr : Nat → Ptr} (holds : Holds t h ptr)
    {latest : Nat} (known : h.latestId = some latest) (enough : INT_MAX < env.fuel) :
    ∃ text, h.getMetadataStr env = some text ∧ WrittenFor t latest text := by
  obtain ⟨block, order, printed, text⟩ := printed_metadata wf holds enough known
  exact ⟨_, text, block, order, printed, rfl⟩

/-- What is printed of a tree says it. -/
theorem said_of_holds (wf : t.WellFormed) (spelled : Spelled t) {h : Handler} {ptr : Nat → Ptr}
    (holds : Holds t h ptr) {latest : Nat} (known : h.latestId = some latest)
    (small : latest ≤ INT_MAX) (enough : INT_MAX < env.fuel) :
    ∃ text, h.getMetadataStr env = some text ∧ Says t latest text := by
  obtain ⟨text, printed, written⟩ := written_of_holds wf.toRooted holds known enough
  exact ⟨text, printed, says_of_written wf spelled small written⟩

end Blocks

end MetadataParsing
