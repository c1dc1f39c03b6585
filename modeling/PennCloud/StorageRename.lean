import PennCloud.EntryPaths
import PennCloud.StorageMove

/-!
# What a rename stores

A rename gives an entry another name in its directory and stores the tree. Nothing is
asked of the new name: an entry that had it is lost, and an entry whose new name is
empty or has a slash is not found by its path any more.
-/

namespace StorageTree

open Text UnorderedMap StorageMetadata

/-- The tree with another name for an entry. -/
def Tree.rename (t : Tree) (id : Nat) (name : Str) : Tree where
  root := t.root
  node c := if c = id then (t.node id).map fun n => { n with name := name } else t.node c

section Rename
variable {t : Tree} {id p : Nat} {n : Node}

theorem rename_eq_place (here : t.node id = some n) (parent : n.parent = some p) (name : Str) :
    t.rename id name = t.place id p name := by
  simp only [Tree.rename, Tree.place, here, Option.map_some, parent]

end Rename

end StorageTree

namespace StorageRename

open Text KvInterface UnorderedMap StorageMetadata StorageHandler StorageCommit Dialogue
  StorageTree MetadataText MetadataPrinting MetadataParsing MetadataRoundTrip HandlerText StorageMove

section Links
variable {t : Tree} {h : Handler} {ptr : Nat → Ptr} {env : Env}

/-- The name of the object and its key in the directory changed. -/
def renamed (ptr : Nat → Ptr) (id p : Nat) (old new : Str) (object : Nat → Dirent) (x : Nat) :
    Dirent :=
  onlyAt p x (Dirent.addEntry new (some (ptr id)))
    (onlyAt p x (Dirent.deleteEntry old)
      (onlyAt id x (Dirent.updateRelativePath new) (object x)))

theorem renamed_field {α : Type} (field : Dirent → α)
    (add : ∀ name entry d, field (Dirent.addEntry name entry d) = field d)
    (delete : ∀ name d, field (Dirent.deleteEntry name d) = field d)
    (update : ∀ name d, field (Dirent.updateRelativePath name d) = field d) (id p : Nat)
    (old new : Str) (object : Nat → Dirent) (x : Nat) :
    field (renamed ptr id p old new object x) = field (object x) := by
  rw [renamed, onlyAt_field field (add _ _), onlyAt_field field (delete _),
    onlyAt_field field (update _)]

theorem renamed_relativePath (id p : Nat) (old new : Str) (object : Nat → Dirent) (x : Nat) :
    (renamed ptr id p old new object x).relativePath =
      if x = id then new else (object x).relativePath := by
  rw [renamed, onlyAt_field Dirent.relativePath (f := Dirent.addEntry _ _) fun _ => rfl,
    onlyAt_field Dirent.relativePath (f := Dirent.deleteEntry _) fun _ => rfl, onlyAt]
  split <;> rfl

theorem renamed_entries (id p : Nat) (old new : Str) (object : Nat → Dirent) (x : Nat)
    (other : Str) : (renamed ptr id p old new object x).entries.lookup other =
      if x = p ∧ other = new then some (some (ptr id))
      else if x = p ∧ other = old then none else (object x).entries.lookup other := by
  have updated := onlyAt_field (fun d => d.entries.lookup other)
    (f := Dirent.updateRelativePath new) (fun _ => rfl) id x (object x)
  rw [renamed, onlyAt_addEntry, onlyAt_deleteEntry, updated]

/-- A rename of an entry that exists changes its objects. -/
theorem renameEntry_objects (wf : t.Rooted) (laid : Laid t h ptr) (enough : INT_MAX < env.fuel)
    {object : Nat → Dirent} (objects : Objects t h ptr object) {id p : Nat} {n m : Node}
    (here : t.node id = some n) (above : t.node p = some m) (old newName : Str) :
    ∃ h', renameEntry env h (some (ptr p)) (some (ptr id)) old newName = some h' ∧
      SameBut h h' ∧ Objects t h' ptr (renamed ptr id p old newName object) := by
  have apart : ∀ a b m n, t.node a = some m → t.node b = some n → ptr a = ptr b → a = b :=
    fun a b m n first second => laid.injective first second
  obtain ⟨path, -, computed⟩ := laid.path wf enough above
  obtain ⟨h₁, first, same₁, objects₁⟩ := objects.update apart here
    (Dirent.updateRelativePath newName)
  obtain ⟨h₂, second, same₂, objects₂⟩ := objects₁.update apart above (Dirent.deleteEntry old)
  obtain ⟨h₃, third, same₃, objects₃⟩ := objects₂.update apart above
    (Dirent.addEntry newName (some (ptr id)))
  refine ⟨h₃, ?_, (same₁.trans same₂).trans same₃, objects₃⟩
  simp only [renameEntry, computed, Option.bind_some, first, second, third]

/-- A rename changes the links of the entry within its directory. -/
theorem relinked_of_rename (wf : t.Rooted) (laid : Laid t h ptr) (enough : INT_MAX < env.fuel)
    {id p : Nat} {n m : Node} (here : t.node id = some n) (parent : n.parent = some p)
    (above : t.node p = some m) (newName : Str) :
    ∃ h', renameEntry env h (some (ptr p)) (some (ptr id)) n.name newName = some h' ∧
      SameBut h h' ∧ Relinked t ptr id p p n.name newName h h' := by
  obtain ⟨object, objects⟩ := laid.objects
  obtain ⟨h', changed, same, after⟩ :=
    renameEntry_objects wf laid enough objects here above n.name newName
  refine ⟨h', changed, same, same.root, same.latestId, fun {x k d} node known => ?_⟩
  obtain rfl : object x = d := Option.some.inj ((objects x k node).symm.trans known)
  refine ⟨_, after x k node, renamed_field Dirent.id (fun _ _ _ => rfl) (fun _ _ => rfl) (fun _ _ => rfl) ..,
    renamed_field Dirent.isFile (fun _ _ _ => rfl) (fun _ _ => rfl) (fun _ _ => rfl) ..,
    renamed_field Dirent.isRoot (fun _ _ _ => rfl) (fun _ _ => rfl) (fun _ _ => rfl) ..,
    renamed_relativePath .., ?_, fun other => renamed_entries ..⟩
  rw [renamed_field Dirent.parent (fun _ _ _ => rfl) (fun _ _ => rfl) (fun _ _ => rfl)]
  split
  · rename_i moved
    subst moved
    obtain ⟨d, known', shows⟩ := laid x k node
    cases known.symm.trans known'
    cases here.symm.trans node
    exact shows.parent p parent
  · rfl

end Links

/-! What is stored -/

/-- Every entry but the root folder is found by its own path. -/
def SelfResolving (env : Env) (t : Tree) (h : Handler) : Prop :=
  ∀ id n, t.node id = some n → id ≠ t.root → ∃ path own found,
    h.path env (some (ptrOf h id)) = some path ∧ belowRoot path = some own ∧
      h.validatePathAndGetDir own = some found ∧ found.valid = true ∧
        found.dir = some (ptrOf h id)

/-- The text says the tree, and in what is parsed from it every entry is found by its own path. -/
def SaysResolving (t : Tree) (latest : Nat) (text : Str) : Prop :=
  Says t latest text ∧ ∀ (env : Env) (usr : Str) (fd : Int) (h : Handler), INT_MAX < env.fuel →
    Handler.parseMetadataFile env { usr := usr, backendFd := fd, metadataStr := text } =
      some (true, h) → SelfResolving env t h

/-- Where the rename is answered with SUCCESS, it has stored the tree with the one name changed as
the metadata of its user, in place of the text that the handler has read, and every entry is found
there by its own path. -/
def RenamesExactly (env : Env) (t : Tree) (latest : Nat) (h : Handler) (oldPath newName : Str)
    (id : Nat) : Prop :=
  ∀ resp calls r,
    Conversation (handleRename env oldPath newName (kMaxAttempt + 1) h resp) calls r →
      Accepting calls → r.2.getStatus = .success →
        ∃ text reply, calls = [(.cput h.usr kMetadataFp h.metadataStr text, reply)] ∧
          SaysResolving (t.rename id newName) latest text

/-- The new name is one of a path, and no other entry of the directory has it. -/
def NewNameFits (t : Tree) (id : Nat) (newName : Str) : Prop :=
  Plain newName ∧ ∀ n c k, t.node id = some n → t.node c = some k → k.parent = n.parent →
    k.name = newName → c = id

/-- The only call of a rename that is accepted stores the tree with the changed name. -/
theorem renamesExactly_stored {env : Env} {t : Tree} {h h' : Handler} {oldPath newName : Str}
    {parentDir dir : Option Ptr} {relativePath : Str}
    (found : h.validatePathAndGetDir oldPath = some ⟨true, parentDir, dir, relativePath, h⟩)
    (renamed : renameEntry env h parentDir dir relativePath newName = some h') {latest id : Nat} :
    RenamesExactly env t latest h oldPath newName id ↔
      ∀ text, h'.getMetadataStr env = some text → SaysResolving (t.rename id newName) latest text := by
  have run : ∀ resp, handleRename env oldPath newName (kMaxAttempt + 1) h resp =
      (writeMetadataToKv env h').bind fun written =>
        if written.1 then .done ({ h' with metadataStr := written.2 }, populateSuccessResp h' resp)
        else (Dialogue.ofOption (revertRename h' parentDir dir relativePath newName)).bind fun h =>
          (readMetadata env h).bind fun read =>
            if read.1 then handleRename env oldPath newName kMaxAttempt read.2 .cleared
            else .done (read.2, .cleared) := by
    intro resp
    simp only [handleRename, found, Dialogue.ofOption, Dialogue.bind, Bool.not_true,
      Bool.false_eq_true, if_false, renamed]
  exact stores_iff (sameText_renameEntry renamed) run

section Resolving
variable {t : Tree} {h : Handler} {env : Env}

theorem selfResolving_of_plain (wf : t.WellFormed)
    (plain : ∀ id n, t.node id = some n → Plain n.name) (exact : Exact t h)
    (enough : INT_MAX < env.fuel) : SelfResolving env t h := by
  intro id n here below
  obtain ⟨path, isPath, computed⟩ := exact.laid.path wf.toRooted enough here
  obtain ⟨own, stripped, entry⟩ := isPath.own wf.toRooted plain below
  rcases validate_entryAt wf.toRooted exact.toHolds entry with ⟨-, root⟩ | ⟨m, p, -, -, found⟩
  · exact absurd root below
  · exact ⟨path, own, _, computed, stripped, found, rfl, rfl⟩

/-- An entry below the root folder is found under its name, which stands between two slashes or
after the last one; where nothing does, it is looked up with no name. -/
theorem found_name (wf : t.WellFormed) (exact : Exact t h) {path : Str} {id : Nat} {n : Node}
    (here : t.node id = some n) (below : id ≠ t.root) {found : Found}
    (looked : h.validatePathAndGetDir path = some found) (valid : found.valid = true)
    (dir : found.dir = some (ptrOf h id)) : path ≠ "/".toList ∧
      (Plain n.name ∨ n.name = [] ∧ ∀ c ∈ path, c = '/') := by
  obtain ⟨name, top⟩ := wf.root
  obtain ⟨plain, noSlash⟩ := way_plain [] path List.not_mem_nil
  have same : ∀ c m, t.node c = some m → found.dir = some (ptrOf h c) → c = id :=
    fun c m child pointer =>
      exact.laid.injective child here (Option.some.inj (pointer.symm.trans dir))
  have notRoot : path ≠ "/".toList := by
    intro root
    rw [Handler.validatePathAndGetDir, if_pos root, exact.root] at looked
    cases looked
    exact below (same _ _ top rfl).symm
  refine ⟨notRoot, ?_⟩
  by_cases missing : ∃ c, t.Leads t.root (components path) c
  · obtain ⟨b, leads⟩ := missing
    by_cases trailing : Trailing path
    · obtain ⟨dir', h', looked', other⟩ :=
        validate_trailing wf exact.toHolds exact.filesEmpty trailing notRoot leads
      cases looked.symm.trans looked'
      rcases other with null | ⟨c, m, child, -, named, pointer⟩
      · rw [null] at dir
        cases dir
      · obtain rfl := same c m child pointer
        cases here.symm.trans child
        rw [named]
        rcases List.eq_nil_or_concat (way [] path).1 with none | ⟨init, last, spelled⟩
        · exact .inr ⟨by rw [none]; rfl, (all_slashes [] path none ((way_eq_nil path).mpr trailing)).2⟩
        · rw [List.concat_eq_append] at spelled
          refine .inl ?_
          rw [spelled, List.getLast?_concat]
          exact plain last (by simp [spelled])
    · rcases validate_entryAt wf.toRooted exact.toHolds (entryAt_of_named trailing leads) with
        ⟨looked', root⟩ | ⟨m, p, child, -, looked'⟩
      · cases looked.symm.trans looked'
        subst root
        exact absurd (same _ _ top rfl).symm below
      · cases looked.symm.trans looked'
        obtain rfl := same b m child rfl
        cases here.symm.trans child
        rw [components_of_named trailing] at leads
        obtain ⟨q, -, final⟩ := leads.of_append
        obtain ⟨m', child', -, named⟩ := final.last
        cases child.symm.trans child'
        rw [named]
        exact .inl ⟨fun empty => trailing ((way_eq_nil path).mp empty), noSlash⟩
  · obtain ⟨parentDir, name', looked', -⟩ := validate_missing wf exact.toHolds exact.filesEmpty missing
    cases looked.symm.trans looked'
    cases valid

/-- An empty name is not found. -/
theorem not_selfResolving_of_nameless (wf : t.WellFormed) (exact : Exact t h)
    (enough : INT_MAX < env.fuel) {id : Nat} {n : Node} (here : t.node id = some n)
    (below : id ≠ t.root) (nameless : ¬ Plain n.name)
    (plain : ∀ c m, t.node c = some m → c ≠ id → Plain m.name) : ¬ SelfResolving env t h := by
  intro resolving
  obtain ⟨path, own, found, computed, stripped, looked, valid, dir⟩ := resolving id n here below
  obtain ⟨name, top⟩ := wf.root
  obtain ⟨path', isPath, computed'⟩ := exact.laid.path wf.toRooted enough here
  cases computed.symm.trans computed'
  obtain ⟨names, leads, rfl⟩ := isPath.names top
  obtain ⟨init, n', p, rfl, here', parent, before⟩ := leads.last_name below
  cases here.symm.trans here'
  rw [belowRoot_path (plain _ _ top below.symm).2 (by simp)] at stripped
  obtain rfl := Option.some.inj stripped
  obtain ⟨notRoot, named | ⟨empty, slashes⟩⟩ := found_name wf exact here below looked valid dir
  · exact nameless named
  · -- the directory of the entry has a name that is in the path
    rw [empty] at notRoot slashes
    by_cases top' : p = t.root
    · subst top'
      rcases List.eq_nil_or_concat init with rfl | ⟨init', last, rfl⟩
      · exact notRoot (by decide +kernel)
      · rw [List.concat_eq_append] at before
        obtain ⟨q, -, final⟩ := before.of_append
        obtain ⟨m, above, up, -⟩ := final.last
        exact wf.ne_root above up rfl
    · obtain ⟨init', m, q, rfl, above, -⟩ := before.last_name top'
      have named := plain p m above (wf.ne_parent here parent).symm
      obtain ⟨c, rest, spelled⟩ := List.exists_cons_of_ne_nil named.1
      have slash := slashes c (by simp [slashed_append, spelled])
      exact named.2 (by rw [spelled, slash]; exact List.mem_cons_self)

end Resolving

/-! Exact renames -/

section Exact
variable {t : Tree} {h : Handler} {ptr : Nat → Ptr} {env : Env} {latest : Nat}

theorem spelled_place (named : Named t) {id p : Nat} {newName : Str} (below : id ≠ t.root)
    (letters : ∀ c ∈ newName, pathChar c = true) : Spelled (t.place id p newName) where
  names c m node := by
    obtain ⟨k, before, rfl⟩ := node_place node
    split
    · exact letters
    · exact named.spelled.names c k before
  root n here := named.spelled.root n ((node_place_ne below.symm).symm.trans here)

theorem spelled_without (spelled : Spelled t) (top : Nat) : Spelled (t.without top) where
  names c m node := spelled.names c m (node_without.mp node).2
  root n here := spelled.root n (node_without.mp here).2

theorem plain_place (named : Named t) {id p c : Nat} {newName : Str} {m : Node}
    (node : (t.place id p newName).node c = some m) (other : c ≠ id) : Plain m.name :=
  plain_of_named named ((node_place_ne other).symm.trans node)

/-- Where the new name is that of another entry, the tree is stored without that one. -/
theorem lost_sibling (wf : t.WellFormed) (named : Named t) (holds : Holds t h ptr)
    (known : h.latestId = some latest) (small : latest ≤ INT_MAX) (enough : INT_MAX < env.fuel)
    {id p c : Nat} {n m k : Node} {newName : Str} {h' : Handler} (here : t.node id = some n)
    (parent : n.parent = some p) (above : t.node p = some m) (directory : m.isFile = false)
    (letters : ∀ c ∈ newName, pathChar c = true) (same : SameBut h h')
    (relinked : Relinked t ptr id p p n.name newName h h') (there : t.node c = some k)
    (up : k.parent = some p) (spelled : k.name = newName) (other : c ≠ id) :
    ∃ text, h'.getMetadataStr env = some text ∧ ¬ Says (t.place id p newName) latest text := by
  have below := wf.ne_root here parent
  have apart := wf.not_under_parent here parent
  have gone : ((t.place id p newName).without c).node c = none := by
    cases node : ((t.place id p newName).without c).node c with
    | none => rfl
    | some m => exact absurd .self (node_without.mp node).1
  obtain ⟨text, printed, said⟩ := said_of_holds
    (wf.place_without below above directory apart there up spelled)
    (spelled_without (spelled_place named below letters) c)
    ⟨same.root.trans holds.root, laid_of_relinked holds.laid relinked rfl
      (fun x m node => node_place (node_without.mp node).2)
      (links_place_without wf here parent rfl there up spelled other)⟩
    (same.latestId.trans known) small enough
  refine ⟨text, printed, not_said_of_lost said gone ?_⟩
  rw [node_place_ne other, there]
  rfl

/-- What is stored by a rename says the renamed tree, with all entries found by their own paths,
exactly where the new name fits. -/
theorem rename_stored_iff (wf : t.WellFormed) (named : Named t) (holds : Holds t h ptr)
    (known : h.latestId = some latest) (small : latest ≤ INT_MAX) (enough : INT_MAX < env.fuel)
    {newName : Str} {id p : Nat} {n : Node} (here : t.node id = some n) (parent : n.parent = some p)
    (letters : ∀ c ∈ newName, pathChar c = true) :
    ∃ h', renameEntry env h (some (ptr p)) (some (ptr id)) n.name newName = some h' ∧
      ((∀ text, h'.getMetadataStr env = some text → SaysResolving (t.rename id newName) latest text) ↔
        NewNameFits t id newName) := by
  have below := wf.ne_root here parent
  have apart := wf.not_under_parent here parent
  obtain ⟨m, above, directory⟩ := wf.directory here parent
  obtain ⟨h', renamed, same, relinked⟩ :=
    relinked_of_rename wf.toRooted holds.laid enough here parent above newName
  refine ⟨h', renamed, ?_⟩
  rw [rename_eq_place here parent]
  have fresh : (∀ c k, t.node c = some k → k.parent = some p → k.name = newName → c = id) →
      (t.place id p newName).WellFormed ∧ ∃ text, h'.getMetadataStr env = some text ∧
        Says (t.place id p newName) latest text := by
    intro free
    have wf' := wf.place below above directory apart free
    refine ⟨wf', said_of_holds wf' (spelled_place named below letters)
      ⟨same.root.trans holds.root, ?_⟩ (same.latestId.trans known) small enough⟩
    exact laid_of_relinked holds.laid relinked rfl (fun x m node => node_place node)
      (links_place wf here parent rfl free)
  constructor
  · intro all
    have free : ∀ c k, t.node c = some k → k.parent = some p → k.name = newName → c = id := by
      intro c k there up spelled
      by_contra other
      obtain ⟨text, printed, lost⟩ := lost_sibling wf named holds known small enough here parent
        above directory letters same relinked there up spelled other
      exact lost (all text printed).1
    refine ⟨?_, fun n' c k here' there up spelled => ?_⟩
    · by_contra nameless
      obtain ⟨wf', text, printed, said⟩ := fresh free
      obtain ⟨h'', parsed, exact, -⟩ := said env [] 0 enough
      have resolving := (all text printed).2 env [] 0 h'' enough parsed
      exact not_selfResolving_of_nameless wf' exact enough (node_place_self here) below nameless
        (fun c m node other => plain_place named node other) resolving
    · cases here.symm.trans here'
      exact free c k there (up.trans parent) spelled
  · rintro ⟨plain, free⟩ text printed
    obtain ⟨wf', text', printed', said⟩ := fresh fun c k there up spelled =>
      free n c k here there (up.trans parent.symm) spelled
    cases printed.symm.trans printed'
    refine ⟨said, fun env' usr fd h'' enough' parsed => ?_⟩
    obtain ⟨h₁, parsed', exact, -⟩ := said env' usr fd enough'
    cases parsed.symm.trans parsed'
    refine selfResolving_of_plain wf' (fun c m node => ?_) exact enough'
    by_cases moved : c = id
    · subst moved
      cases (node_place_self here).symm.trans node
      exact plain
    · exact plain_place named node moved

/-- A rename that is accepted stores the tree with the one name changed, in which all entries are
found by their own paths, if and only if the new name is a plain one that no other entry of the
directory has. -/
theorem renames_exactly_iff (wf : t.WellFormed) (named : Named t) (holds : Holds t h ptr)
    (known : h.latestId = some latest) (small : latest ≤ INT_MAX) (enough : INT_MAX < env.fuel)
    {oldPath newName : Str} {id : Nat} (source : t.EntryAt oldPath id) (below : id ≠ t.root)
    (letters : ∀ c ∈ newName, pathChar c = true) :
    RenamesExactly env t latest h oldPath newName id ↔ NewNameFits t id newName := by
  rcases validate_entryAt wf.toRooted holds source with ⟨-, root⟩ | ⟨n, p, here, parent, found⟩
  · exact absurd root below
  · obtain ⟨h', renamed, stored⟩ :=
      rename_stored_iff wf named holds known small enough here parent letters
    rw [renamesExactly_stored found renamed]
    exact stored

end Exact

/-- The file is given the name g. -/
theorem renames_exactly_file :
    RenamesExactly deepEnv bobsTree 3 bobsHandler "/d/f".toList ['g'] 3 := by
  refine (renames_exactly_iff wellFormed_bobsTree named_bobsTree holds_bobsTree rfl (by decide)
    (Nat.lt_succ_self _) entryAt_file (by decide) (by decide)).mpr ⟨by decide, ?_⟩
  rintro n c k here there up spelled
  cases here
  rcases node_bobsTree.mp there with ⟨rfl, rfl⟩ | ⟨rfl, rfl⟩ | ⟨rfl, rfl⟩ <;> simp_all

/-- The file is given the name x/y, and is not found any more. -/
theorem not_renames_exactly_slash : bobsTree.WellFormed ∧ Named bobsTree ∧
    Holds bobsTree bobsHandler id ∧ bobsTree.EntryAt "/d/f".toList 3 ∧
    (∀ c ∈ ['x', '/', 'y'], pathChar c = true) ∧
    ¬ RenamesExactly deepEnv bobsTree 3 bobsHandler "/d/f".toList ['x', '/', 'y'] 3 := by
  have letters : ∀ c ∈ ['x', '/', 'y'], pathChar c = true := by decide
  refine ⟨wellFormed_bobsTree, named_bobsTree, holds_bobsTree, entryAt_file, letters,
    fun exact => ?_⟩
  have enough : INT_MAX < deepEnv.fuel := Nat.lt_succ_self _
  obtain ⟨h', renamed, stored⟩ := rename_stored_iff wellFormed_bobsTree named_bobsTree
    holds_bobsTree rfl (by decide) enough node_file rfl letters
  have found : bobsHandler.validatePathAndGetDir "/d/f".toList =
      some ⟨true, some 2, some 3, ['f'], bobsHandler⟩ := by
    rcases validate_entryAt wellFormed_bobsTree.toRooted holds_bobsTree entryAt_file with
      ⟨-, root⟩ | ⟨n, p, here, parent, found⟩
    · cases root
    · cases here
      cases parent
      exact found
  have fits := stored.mp ((renamesExactly_stored found renamed).mp exact)
  exact absurd fits.1 (by decide)

end StorageRename
