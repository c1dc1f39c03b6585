import PennCloud.StorageCreate
import PennCloud.StorageFailure
import PennCloud.StorageRename

/-!
# What a refused change leaves

A handler whose CPUT is refused takes its change back and parses the new text into the
objects that it has. Taking back may lose an entry that was replaced, but adds nothing.
Where the new tree has all entries of the old one, unchanged, the handler has the new
tree after the reload.
-/

namespace StorageReload

open Text KvInterface UnorderedMap StorageMetadata StorageHandler StorageCommit Dialogue
  StorageTree MetadataText MetadataPrinting MetadataParsing HandlerText HandlerObjects
  MetadataMerging StorageCreate StorageDelete StorageMove StorageRename

/-- The text is printed of a well-formed tree whose ids are given out. -/
structure MetadataOf (t : Tree) (latest : Nat) (text : Str) : Prop where
  wf : t.WellFormed
  named : Named t
  used : ∀ {id n}, t.node id = some n → id ≤ latest
  small : latest ≤ INT_MAX
  written : WrittenFor t latest text

theorem MetadataOf.says {t : Tree} {latest : Nat} {text : Str} (known : MetadataOf t latest text) :
    Says t latest text :=
  says_of_written known.wf known.named.spelled known.small known.written

theorem MetadataOf.without {t : Tree} {latest x b : Nat} {n : Node} {new : Str}
    (known : MetadataOf t latest new)
    (here : t.node x = some n) (parent : n.parent = some b) {text : Str}
    (written : WrittenFor (t.without x) latest text) : MetadataOf (t.without x) latest text :=
  ⟨known.wf.without (known.wf.ne_root here parent), named_without known.named x,
    fun node => known.used (node_without.mp node).2, known.small, written⟩

/-! The tree of a text -/

section Unique
variable {t t' : Tree} {h : Handler} {latest latest' : Nat} {text : Str}

theorem exact_known (exact : Exact t h) (exact' : Exact t' h) {id : Nat} {n : Node}
    (here : t.node id = some n) : ∃ m, t'.node id = some m :=
  Option.isSome_iff_exists.mp ((exact'.ids id).mp ((exact.ids id).mpr (by rw [here]; rfl)))

/-- A handler that has two trees has one of them twice. -/
theorem exact_node (wf : t.Rooted) (wf' : t'.Rooted) (exact : Exact t h) (exact' : Exact t' h)
    {id : Nat} {n : Node} (here : t.node id = some n) : t'.node id = some n := by
  obtain ⟨m, here'⟩ := exact_known exact exact' here
  obtain ⟨d, object, shows⟩ := exact.laid id n here
  obtain ⟨d', object', shows'⟩ := exact'.laid id m here'
  cases object.symm.trans object'
  have top : id = t.root ↔ id = t'.root := by
    have marked := shows.isRoot.symm.trans shows'.isRoot
    rwa [decide_eq_decide] at marked
  have parent : m.parent = n.parent := by
    by_cases root : id = t.root
    · obtain rfl := root
      rw [(wf.parent_root here).1]
      rw [top.mp rfl] at here'
      exact (wf'.parent_root here').1
    · obtain ⟨q, o, up, above, -⟩ := wf.parent_of here root
      obtain ⟨q', o', up', above', -⟩ := wf'.parent_of here' fun same => root (top.mpr same)
      obtain ⟨k, held⟩ := exact_known exact' exact above'
      have pointer := (shows.parent q up).symm.trans (shows'.parent q' up')
      rw [up, up', exact.laid.injective above held (Option.some.inj pointer)]
  obtain ⟨name, isFile, up⟩ := n
  obtain ⟨name', isFile', up'⟩ := m
  have spelled : name' = name := shows'.relativePath.symm.trans shows.relativePath
  have kind : isFile' = isFile := shows'.isFile.symm.trans shows.isFile
  rw [here', spelled, kind, show up' = up from parent]

theorem exact_unique (wf : t.Rooted) (wf' : t'.Rooted) (exact : Exact t h) (exact' : Exact t' h) :
    t = t' := by
  have nodes : t.node = t'.node := funext fun id => Option.ext fun n =>
    ⟨exact_node wf wf' exact exact', exact_node wf' wf exact' exact⟩
  obtain ⟨name, here⟩ := wf.root
  have root : t.root = t'.root := by
    by_contra other
    obtain ⟨q, -, parent, -⟩ := wf'.parent_of (nodes ▸ here) other
    cases parent
  obtain ⟨root₁, node₁⟩ := t
  obtain ⟨root₂, node₂⟩ := t'
  cases show root₁ = root₂ from root
  cases show node₁ = node₂ from nodes
  rfl

/-- A text is that of one tree, and says one last id. -/
theorem MetadataOf.unique (known : MetadataOf t latest text) (known' : MetadataOf t' latest' text) :
    t' = t ∧ latest' = latest := by
  let env : Env := ⟨Iteration.stored Ptr, INT_MAX + 1⟩
  have enough : INT_MAX < env.fuel := Nat.lt_succ_self _
  obtain ⟨h, parsed, exact, last⟩ := known.says env [] 0 enough
  obtain ⟨h', parsed', exact', last'⟩ := known'.says env [] 0 enough
  cases parsed.symm.trans parsed'
  exact ⟨exact_unique known'.wf.toRooted known.wf.toRooted exact' exact,
    Option.some.inj (last'.symm.trans last)⟩

end Unique

/-! A handler that took its change back -/

/-- The handler has nothing that the tree does not say. -/
structure Restored (t : Tree) (h : Handler) : Prop where
  tidy : Tidy h
  ids : ∀ id, (h.directories.lookup id).isSome → (t.node id).isSome
  agrees : Agrees t h
  top : ∀ p d, h.directories.lookup t.root = some p → h.memory.lookup p = some d → d.parent = none

/-- The object may have lost entries. -/
structure Lessened (d d' : Dirent) : Prop where
  relativePath : d'.relativePath = d.relativePath
  isFile : d'.isFile = d.isFile
  isRoot : d'.isRoot = d.isRoot
  parent : d'.parent = d.parent
  entries : ∀ name entry, d'.entries.lookup name = some entry →
    ∃ before, d.entries.lookup name = some before

theorem Lessened.refl (d : Dirent) : Lessened d d :=
  ⟨rfl, rfl, rfl, rfl, fun _ entry listed => ⟨entry, listed⟩⟩

section Restored
variable {t t' : Tree} {h h' : Handler} {env : Env} {latest : Nat} {text : Str}

/-- The objects are those of a handler that has the tree, but for entries that were lost. -/
theorem restored_of_lessened (wf : t.WellFormed) (exact : Exact t h) (tidy : Tidy h')
    (directories : ∀ id, h'.directories.lookup id = h.directories.lookup id)
    (objects : ∀ id n d, t.node id = some n → h.memory.lookup (ptrOf h id) = some d →
      ∃ d', h'.memory.lookup (ptrOf h id) = some d' ∧ Lessened d d') : Restored t h' := by
  -- the object of an entry, and the one that it was
  have lost : ∀ id n p d', t.node id = some n → h'.directories.lookup id = some p →
      h'.memory.lookup p = some d' → ∃ d, h.memory.lookup (ptrOf h id) = some d ∧
        Shows t (ptrOf h) id n d ∧ Lessened d d' := by
    intro id n p d' here pointer stored
    obtain ⟨d, object, shows⟩ := exact.laid id n here
    obtain ⟨e, stored', lessened⟩ := objects id n d here object
    rw [directories] at pointer
    rw [ptrOf_of_lookup pointer, stored, Option.some.injEq] at stored'
    subst stored'
    exact ⟨d, object, shows, lessened⟩
  refine ⟨tidy, fun id known => ?_, fun id n p d' here pointer stored => ?_,
    fun p d' pointer stored => ?_⟩
  · rw [directories] at known
    exact (exact.ids id).mp known
  · obtain ⟨d, object, shows, lessened⟩ := lost id n p d' here pointer stored
    refine ⟨lessened.relativePath.trans shows.relativePath, lessened.isFile.trans shows.isFile,
      fun marked => ?_, fun name entry listed => ?_⟩
    · rw [lessened.isRoot, shows.isRoot] at marked
      exact of_decide_eq_true marked
    · obtain ⟨before, known⟩ := lessened.entries name entry listed
      obtain ⟨c, m, child, up, named, -⟩ := (exact.laid.lookup_iff wf.toRooted exact.filesEmpty here
        object name before).mp known
      exact ⟨c, m, child, up, named⟩
  · obtain ⟨name, here⟩ := wf.root
    obtain ⟨d, object, -, lessened⟩ := lost _ _ p d' here pointer stored
    exact lessened.parent.trans (exact.top d object)

theorem restored_of_exact (wf : t.WellFormed) (exact : Exact t h) (tidy : Tidy h) : Restored t h :=
  restored_of_lessened wf exact tidy (fun _ => rfl) fun _ _ d _ object => ⟨d, object, .refl d⟩

/-- What the object of an id was before it is read. -/
theorem objectBefore_cases (tidy : Tidy h) (id : Nat) (n : Node) :
    (h.directories.lookup id = none ∧
      objectBefore h id n = { relativePath := n.name, id := id, isFile := n.isFile }) ∨
    ∃ p d, h.directories.lookup id = some p ∧ h.memory.lookup p = some d ∧
      objectBefore h id n = d := by
  rw [objectBefore]
  cases pointer : h.directories.lookup id with
  | none => exact .inl ⟨rfl, rfl⟩
  | some p =>
    obtain ⟨d, object, -⟩ := tidy.registered id p pointer
    refine .inr ⟨p, d, rfl, object, ?_⟩
    rw [Option.bind_some, object]
    rfl

/-- After the reload of a tree that has all of the old one the handler has that tree. -/
theorem Restored.reload (restored : Restored t h) (extends' : Extends t' t)
    (known : MetadataOf t' latest text) (enough : INT_MAX < env.fuel) :
    ∃ h', Handler.parseMetadataFile env { h with metadataStr := text } = some (true, h') ∧
      Serves t' latest h' ∧ SameText { h with metadataStr := text } h' := by
  obtain ⟨block, order, printed, written⟩ := known.written
  obtain ⟨h', ids, parsed, grown, all, root, latest', -⟩ := parse_merged known.wf
    known.named.spelled enough printed known.small (h := { h with metadataStr := text })
    ⟨restored.tidy.bounded, restored.tidy.registered⟩ written
  have old : ∀ {id n p}, t'.node id = some n → h.directories.lookup id = some p →
      t.node id = some n := by
    intro id n p here pointer
    obtain ⟨m, node⟩ := Option.isSome_iff_exists.mp (restored.ids id (by rw [pointer]; rfl))
    cases here.symm.trans (extends'.node node)
    exact node
  have fits : ∀ id n, t'.node id = some n → FitsEntry t' id n (objectBefore h id n) := by
    intro id n here
    rcases objectBefore_cases restored.tidy id n with ⟨-, new⟩ | ⟨p, d, pointer, object, before⟩
    · rw [new]
      exact fitsEntry_new t' id n
    · obtain ⟨named, kind, marked, listed⟩ :=
        restored.agrees id n p d (old here pointer) pointer object
      rw [before]
      refine ⟨named, kind, fun yes => (marked yes).trans extends'.root.symm,
        fun name entry entered => ?_⟩
      obtain ⟨c, m, child, up, spelled⟩ := listed name entry entered
      exact ⟨c, m, extends'.node child, up, spelled⟩
  have unused : ∀ id, (h.directories.lookup id).isSome → (t'.node id).isSome := by
    intro id some
    obtain ⟨n, node⟩ := Option.isSome_iff_exists.mp (restored.ids id some)
    rw [extends'.node node]
    rfl
  have top : ∀ n, t'.node t'.root = some n → (objectBefore h t'.root n).parent = none := by
    intro n here
    rcases objectBefore_cases restored.tidy t'.root n with ⟨-, new⟩ | ⟨p, d, pointer, object, before⟩
    · rw [new]
    · rw [before]
      exact restored.top p d (extends'.root ▸ pointer) object
  have exact : Exact t' h' := exact_of_grown known.wf grown all root unused fits top
  exact ⟨h', parsed, ⟨known.wf, known.named, exact, grown.tidy, latest'⟩,
    sameText_parseMetadataFile parsed⟩

/-- The objects of the entries are the old ones, but for entries that were lost. -/
theorem restored_of_objects (wf : t.WellFormed) (exact : Exact t h) (tidy : Tidy h')
    (same : SameBut h h') {object object' : Nat → Dirent} (objects : Objects t h (ptrOf h) object)
    (objects' : Objects t h' (ptrOf h) object')
    (lessened : ∀ x n, t.node x = some n → Lessened (object x) (object' x)) : Restored t h' := by
  refine restored_of_lessened wf exact tidy (fun id => by rw [same.directories])
    fun id n d here known => ?_
  obtain rfl : object id = d := Option.some.inj ((objects id n here).symm.trans known)
  exact ⟨_, objects' id n here, lessened id n here⟩

/-- A rename is taken back. An entry that had the new name is lost. -/
theorem restored_rename (wf : t.WellFormed) (exact : Exact t h) (tidy : Tidy h)
    (enough : INT_MAX < env.fuel) {id p : Nat} {n : Node} {newName : Str} (here : t.node id = some n)
    (parent : n.parent = some p)
    (changed : renameEntry env h (some (ptrOf h p)) (some (ptrOf h id)) n.name newName = some h') :
    ∃ back, revertRename h' (some (ptrOf h p)) (some (ptrOf h id)) n.name newName = some back ∧
      Restored t back ∧ SameText h back := by
  have apart : ∀ a b m n, t.node a = some m → t.node b = some n → ptrOf h a = ptrOf h b → a = b :=
    fun a b m n first second => exact.laid.injective first second
  obtain ⟨o, above, directory⟩ := wf.directory here parent
  obtain ⟨object, objects⟩ := exact.laid.objects
  obtain ⟨h₀, changed', same, objects₀⟩ :=
    renameEntry_objects wf.toRooted exact.laid enough objects here above n.name newName
  cases changed.symm.trans changed'
  obtain ⟨h₁, first, same₁, objects₁⟩ := objects₀.update apart here
    (Dirent.updateRelativePath n.name)
  obtain ⟨h₂, second, same₂, objects₂⟩ := objects₁.update apart above (Dirent.deleteEntry newName)
  obtain ⟨h₃, third, same₃, objects₃⟩ := objects₂.update apart above
    (Dirent.addEntry n.name (some (ptrOf h id)))
  have reverted : revertRename h' (some (ptrOf h p)) (some (ptrOf h id)) n.name newName =
      some h₃ := by
    simp only [revertRename, first, Option.bind_some, second, third]
  have back : SameBut h h₃ := ((same.trans same₁).trans same₂).trans same₃
  have again : Objects t h₃ (ptrOf h) (renamed (ptrOf h) id p newName n.name
      (renamed (ptrOf h) id p n.name newName object)) := objects₃
  refine ⟨h₃, reverted, restored_of_objects wf exact
    ((tidy.renameEntry changed).revertRename reverted) back objects again fun x k node => ?_,
    ⟨back.usr, back.metadataStr⟩⟩
  obtain ⟨d, known, shows⟩ := exact.laid x k node
  obtain rfl : object x = d := Option.some.inj ((objects x k node).symm.trans known)
  constructor
  case relativePath =>
    rw [renamed_relativePath, renamed_relativePath]
    split
    · rename_i moved
      subst moved
      cases here.symm.trans node
      exact shows.relativePath.symm
    · rfl
  case isFile =>
    rw [renamed_field Dirent.isFile (fun _ _ _ => rfl) (fun _ _ => rfl) (fun _ _ => rfl),
      renamed_field Dirent.isFile (fun _ _ _ => rfl) (fun _ _ => rfl) (fun _ _ => rfl)]
  case isRoot =>
    rw [renamed_field Dirent.isRoot (fun _ _ _ => rfl) (fun _ _ => rfl) (fun _ _ => rfl),
      renamed_field Dirent.isRoot (fun _ _ _ => rfl) (fun _ _ => rfl) (fun _ _ => rfl)]
  case parent =>
    rw [renamed_field Dirent.parent (fun _ _ _ => rfl) (fun _ _ => rfl) (fun _ _ => rfl),
      renamed_field Dirent.parent (fun _ _ _ => rfl) (fun _ _ => rfl) (fun _ _ => rfl)]
  case entries =>
    intro other entry listed
    rw [renamed_entries, renamed_entries] at listed
    by_cases old : x = p ∧ other = n.name
    · obtain ⟨rfl, rfl⟩ := old
      cases node.symm.trans above
      exact ⟨_, (shows.entries directory n.name _).mpr ⟨id, n, here, parent, rfl, rfl⟩⟩
    · rw [if_neg old] at listed
      split at listed
      · cases listed
      · exact ⟨entry, listed⟩

/-- A move is taken back. Where the entry was in its new directory already, it is lost there. -/
theorem restored_move (wf : t.WellFormed) (exact : Exact t h) (tidy : Tidy h)
    (enough : INT_MAX < env.fuel) {id p q : Nat} {n o : Node} (here : t.node id = some n)
    (parent : n.parent = some p) (above : t.node q = some o)
    (moved : moveEntry env h (some (ptrOf h p)) (some (ptrOf h id)) (some (ptrOf h q)) n.name =
      some h') :
    ∃ back, revertMove h' (some (ptrOf h p)) (some (ptrOf h id)) (some (ptrOf h q)) n.name =
        some back ∧ Restored t back ∧ SameText h back := by
  have apart : ∀ a b m n, t.node a = some m → t.node b = some n → ptrOf h a = ptrOf h b → a = b :=
    fun a b m n first second => exact.laid.injective first second
  obtain ⟨m, before, directory⟩ := wf.directory here parent
  obtain ⟨object, objects⟩ := exact.laid.objects
  obtain ⟨h₀, moved', same, objects₀⟩ :=
    moveEntry_objects wf.toRooted exact.laid enough objects here before above n.name
  cases moved.symm.trans moved'
  obtain ⟨h₁, first, same₁, objects₁⟩ := objects₀.update apart here
    (Dirent.updateParent (some (ptrOf h p)))
  obtain ⟨h₂, second, same₂, objects₂⟩ := objects₁.update apart before
    (Dirent.addEntry n.name (some (ptrOf h id)))
  obtain ⟨h₃, third, same₃, objects₃⟩ := objects₂.update apart above (Dirent.deleteEntry n.name)
  have reverted : revertMove h' (some (ptrOf h p)) (some (ptrOf h id)) (some (ptrOf h q)) n.name =
      some h₃ := by
    simp only [revertMove, first, Option.bind_some, second, third]
  have back : SameBut h h₃ := ((same.trans same₁).trans same₂).trans same₃
  have objects₃ : Objects t h₃ (ptrOf h) fun x => onlyAt q x (Dirent.deleteEntry n.name)
      (onlyAt p x (Dirent.addEntry n.name (some (ptrOf h id)))
        (onlyAt id x (Dirent.updateParent (some (ptrOf h p)))
          (relinked (ptrOf h) id p q n.name object x))) := objects₃
  refine ⟨h₃, reverted, restored_of_objects wf exact ((tidy.moveEntry moved).revertMove reverted)
    back objects objects₃ fun x k node => ?_, ⟨back.usr, back.metadataStr⟩⟩
  obtain ⟨d, known, shows⟩ := exact.laid x k node
  obtain rfl : object x = d := Option.some.inj ((objects x k node).symm.trans known)
  have field : ∀ {α : Type} (field : Dirent → α),
      (∀ name entry d, field (Dirent.addEntry name entry d) = field d) →
      (∀ name d, field (Dirent.deleteEntry name d) = field d) →
      (∀ parent d, field (Dirent.updateParent parent d) = field d) →
      field (onlyAt q x (Dirent.deleteEntry n.name)
        (onlyAt p x (Dirent.addEntry n.name (some (ptrOf h id)))
          (onlyAt id x (Dirent.updateParent (some (ptrOf h p)))
            (relinked (ptrOf h) id p q n.name object x)))) = field (object x) := by
    intro α field add delete move
    rw [onlyAt_field field (delete _), onlyAt_field field (add _ _), onlyAt_field field (move _),
      relinked_field field add delete move]
  constructor
  case relativePath =>
    exact field Dirent.relativePath (fun _ _ _ => rfl) (fun _ _ => rfl) fun _ _ => rfl
  case isFile => exact field Dirent.isFile (fun _ _ _ => rfl) (fun _ _ => rfl) fun _ _ => rfl
  case isRoot => exact field Dirent.isRoot (fun _ _ _ => rfl) (fun _ _ => rfl) fun _ _ => rfl
  case parent =>
    rw [onlyAt_field Dirent.parent (f := Dirent.deleteEntry _) fun _ => rfl,
      onlyAt_field Dirent.parent (f := Dirent.addEntry _ _) fun _ => rfl, onlyAt]
    split
    · rename_i self
      subst self
      cases here.symm.trans node
      exact (shows.parent p parent).symm
    · rename_i other
      rw [relinked_parent, if_neg other]
  case entries =>
    intro other entry listed
    have unmoved := onlyAt_field (fun d => d.entries.lookup other)
      (f := Dirent.updateParent (some (ptrOf h p))) (fun _ => rfl) id x
      (relinked (ptrOf h) id p q n.name object x)
    rw [onlyAt_deleteEntry, onlyAt_addEntry, unmoved, relinked_entries] at listed
    split at listed
    · cases listed
    · split at listed
      · rename_i back
        obtain ⟨rfl, rfl⟩ := back
        cases node.symm.trans before
        exact ⟨_, (shows.entries directory n.name _).mpr ⟨id, n, here, parent, rfl, rfl⟩⟩
      · exact ⟨entry, listed⟩

/-- A creation is taken back. -/
theorem restored_create (wf : t.WellFormed) (exact : Exact t h) (tidy : Tidy h) {id q : Nat}
    {o : Node} {name : Str} {isFile : Bool} (new : t.node id = none) (above : t.node q = some o)
    (made : createEntry h (some (ptrOf h q)) name id isFile = some h') :
    ∃ back, revertCreate h' (some (ptrOf h q)) name id = some back ∧ Restored t back ∧
      SameText h back := by
  have unknown : h.directories.lookup id = none := by
    rw [← Option.not_isSome_iff_eq_none, exact.ids, new]
    exact Bool.false_ne_true
  have small : id ≤ INT_MAX := by
    by_contra large
    rw [createEntry, if_pos (Nat.not_le.mp large)] at made
    cases made
  obtain ⟨d, object, -⟩ := exact.laid q o above
  have old : ∀ {p e}, h.memory.lookup p = some e → p ≠ h.nextPtr := fun stored =>
    Nat.ne_of_lt (tidy.bounded _ _ stored)
  -- the new object, and its name in the directory
  have attached' := made
  rw [createEntry_eq _ ⟨name, id, isFile⟩ unknown small, attach_new unknown object (old object),
    Option.map_some, Option.some.injEq] at attached'
  have directories : h'.directories = h.directories.insert id h.nextPtr := by
    rw [← attached']
    rfl
  have memory : ∀ p, p ≠ h.nextPtr → h'.memory.lookup p =
      if p = ptrOf h q then some (d.addEntry name (some h.nextPtr)) else h.memory.lookup p := by
    intro p apart
    rw [← attached']
    refine (memory_attached _).trans ?_
    rw [if_neg apart]
  have listing := memory (ptrOf h q) (old object)
  rw [if_pos rfl] at listing
  have reverted : revertCreate h' (some (ptrOf h q)) name id = some { h' with
      memory := (h'.memory.insert (ptrOf h q)
        ((d.addEntry name (some h.nextPtr)).deleteEntry name)).erase h.nextPtr
      directories := h'.directories.erase id
      latestId := h'.latestId.map (· - 1) } := by
    have known : h'.directories.lookup id = some h.nextPtr := by
      rw [directories, AList.lookup_insert]
    rw [revertCreate, update_of_lookup _ listing, Option.map_some]
    simp only [known, Handler.free]
  refine ⟨_, reverted, restored_of_lessened wf exact ((tidy.createEntry made).revertCreate reverted)
    (fun c => ?_) (fun x n e here stored => ?_),
    (sameText_createEntry made).trans (sameText_revertCreate reverted)⟩
  · show (h'.directories.erase id).lookup c = _
    by_cases same : c = id
    · rw [same, AList.lookup_erase, unknown]
    · rw [AList.lookup_erase_ne same, directories, AList.lookup_insert_ne same]
  · show ∃ d', ((h'.memory.insert _ _).erase _).lookup _ = some d' ∧ _
    rw [AList.lookup_erase_ne (old stored)]
    by_cases same : ptrOf h x = ptrOf h q
    · rw [same, object, Option.some.injEq] at stored
      rw [same, AList.lookup_insert]
      refine ⟨_, rfl, ?_⟩
      rw [← stored]
      refine ⟨rfl, rfl, rfl, rfl, fun other entry entered => ?_⟩
      rw [Dirent.deleteEntry, Dirent.addEntry] at entered
      by_cases taken : other = name
      · rw [taken, AList.lookup_erase] at entered
        cases entered
      · rw [AList.lookup_erase_ne taken, AList.lookup_insert_ne taken] at entered
        exact ⟨entry, entered⟩
    · rw [AList.lookup_insert_ne same, memory _ (old stored), if_neg same]
      exact ⟨e, stored, .refl e⟩

end Restored

end StorageReload
