import PennCloud.StorageCreate

/-!
# What a reload leaves of the old tree

A reload parses the new text into the objects that are there. It forgets the old tree
where no object says anything else about its entry than the new text: names, kinds and
entries that the text does not have any more stay otherwise.
-/

namespace MetadataMerging

open Text KvInterface UnorderedMap StorageMetadata StorageHandler StorageCommit Dialogue
  StorageTree MetadataText MetadataPrinting MetadataParsing MetadataRoundTrip HandlerObjects

/-! Two handlers with one tree -/

/-- Two objects are the same but for the pointers, which are related. -/
structure SameObject (R : Ptr → Ptr → Prop) (d d' : Dirent) : Prop where
  relativePath : d.relativePath = d'.relativePath
  ident : d.id = d'.id
  isFile : d.isFile = d'.isFile
  isRoot : d.isRoot = d'.isRoot
  parent : d.isRoot = false → Option.Rel R d.parent d'.parent
  entries : ∀ name, Option.Rel (Option.Rel R) (d.entries.lookup name) (d'.entries.lookup name)

/-- The trees that can be reached from the root folders are the same. -/
def SameTree (h h' : Handler) : Prop :=
  ∃ R : Ptr → Ptr → Prop, Option.Rel R h.root h'.root ∧
    ∀ p p', R p p' → Option.Rel (SameObject R) (h.memory.lookup p) (h'.memory.lookup p')

theorem rel_some {α β : Type} {R : α → β → Prop} {a : α} {b : β} :
    Option.Rel R (some a) (some b) ↔ R a b := by
  constructor
  · rintro ⟨related⟩
    assumption
  · exact .some

section Same
variable {t : Tree} {h h' : Handler} {ptr ptr' : Nat → Ptr}

theorem sameTree_of_holds (wf : t.Rooted) (holds : Holds t h ptr) (files : FilesEmpty t h ptr)
    (holds' : Holds t h' ptr') (files' : FilesEmpty t h' ptr') : SameTree h h' := by
  refine ⟨fun p p' => ∃ id n, t.node id = some n ∧ p = ptr id ∧ p' = ptr' id, ?_, ?_⟩
  · obtain ⟨name, top⟩ := wf.root
    rw [holds.root, holds'.root]
    exact .some ⟨_, _, top, rfl, rfl⟩
  · rintro p p' ⟨id, n, here, rfl, rfl⟩
    obtain ⟨d, object, shows⟩ := holds.laid id n here
    obtain ⟨d', object', shows'⟩ := holds'.laid id n here
    rw [object, object', rel_some]
    refine ⟨shows.relativePath.trans shows'.relativePath.symm, shows.ident.trans shows'.ident.symm,
      shows.isFile.trans shows'.isFile.symm, shows.isRoot.trans shows'.isRoot.symm, fun below => ?_,
      fun name => ?_⟩
    · have notRoot : id ≠ t.root := by
        rintro rfl
        rw [shows.isRoot, decide_eq_true rfl] at below
        cases below
      obtain ⟨q, o, parent, above, -⟩ := wf.parent_of here notRoot
      rw [shows.parent q parent, shows'.parent q parent]
      exact .some ⟨q, o, above, rfl, rfl⟩
    · have one := holds.laid.lookup_iff wf files here object name
      have other := holds'.laid.lookup_iff wf files' here object' name
      by_cases known : ∃ c m, t.node c = some m ∧ m.parent = some id ∧ m.name = name
      · obtain ⟨c, m, child, parent, named⟩ := known
        rw [(one _).mpr ⟨c, m, child, parent, named, rfl⟩,
          (other _).mpr ⟨c, m, child, parent, named, rfl⟩]
        exact .some (.some ⟨c, m, child, rfl, rfl⟩)
      · have nothing : d.entries.lookup name = none :=
          Option.eq_none_iff_forall_ne_some.mpr fun p entry =>
            let ⟨c, m, child, parent, named, _⟩ := (one p).mp entry
            known ⟨c, m, child, parent, named⟩
        have nothing' : d'.entries.lookup name = none :=
          Option.eq_none_iff_forall_ne_some.mpr fun p entry =>
            let ⟨c, m, child, parent, named, _⟩ := (other p).mp entry
            known ⟨c, m, child, parent, named⟩
        rw [nothing, nothing']
        exact .none

end Same

/-! What a reload forgets -/

/-- No object of an id of the tree has anything that the tree does not say of its entry. -/
def Agrees (t : Tree) (h : Handler) : Prop :=
  ∀ id n p d, t.node id = some n → h.directories.lookup id = some p → h.memory.lookup p = some d →
    FitsEntry t id n d

/-- After the reload the handler has the tree of a new handler that parses the text, and the same
last id. -/
def Forgets (env : Env) (h : Handler) (text : Str) : Prop :=
  ∃ h₁ h₂, (readMetadata env h).converse [⟨.finished, text⟩] =
      some ((true, h₁), [(.gets h.usr kMetadataFp, ⟨.finished, text⟩)]) ∧
    Handler.parseMetadataFile env { usr := h.usr, backendFd := h.backendFd, metadataStr := text } =
      some (true, h₂) ∧
    SameTree h₁ h₂ ∧ h₁.latestId = h₂.latestId

section Reload
variable {t : Tree} {h : Handler} {env : Env} {latest : Nat} {text : Str}

theorem read_finished {h' : Handler} (parsed : Handler.parseMetadataFile env { h with
    metadataStr := text } = some (true, h')) : (readMetadata env h).converse [⟨.finished, text⟩] =
      some ((true, h'), [(.gets h.usr kMetadataFp, ⟨.finished, text⟩)]) := by
  simp [readMetadata, Dialogue.question, Dialogue.bind, converse, parsed, Dialogue.ofOption]

/-- The relation of the two trees relates the objects of each entry. -/
theorem related {ids : List Nat} {h₀ h₁ h₂ : Handler} {R : Ptr → Ptr → Prop}
    (grown : Grown t ids h₀ h₁) (mem : ∀ id n, t.node id = some n → id ∈ ids)
    (root : h₁.root = some (ptrOf h₁ t.root)) (exact : Exact t h₂)
    (top : Option.Rel R h₁.root h₂.root) (objects : ∀ p p', R p p' →
      Option.Rel (SameObject R) (h₁.memory.lookup p) (h₂.memory.lookup p'))
    {id k : Nat} (depth : t.Depth id k) : R (ptrOf h₁ id) (ptrOf h₂ id) := by
  induction depth with
  | root => rwa [root, exact.root, rel_some] at top
  | @entry id q k n o here parent above directory depth ih =>
    obtain ⟨d, object, reads⟩ := grown.read q o (mem q o above) above
    obtain ⟨d', object', shows⟩ := exact.laid q o above
    have same := objects _ _ ih
    rw [object, object', rel_some] at same
    have entry := same.entries n.name
    rwa [reads.listed id n (mem id n here) here parent,
      (shows.entries directory n.name _).mpr ⟨id, n, here, parent, rfl, rfl⟩, rel_some,
      rel_some] at entry

theorem fits_of_agrees (agrees : Agrees t h) (tidy : Tidy h) {id : Nat} {n : Node}
    (here : t.node id = some n) : FitsEntry t id n (objectBefore h id n) := by
  rw [objectBefore]
  cases pointer : h.directories.lookup id with
  | none => exact fitsEntry_new t id n
  | some p =>
    obtain ⟨d, object, -⟩ := tidy.registered id p pointer
    rw [Option.bind_some, object]
    exact agrees id n p d here pointer object

/-- A reload forgets the old tree if and only if the old objects agree with the new one. -/
theorem forgets_iff (wf : t.WellFormed) (spelled : Spelled t) (small : latest ≤ INT_MAX)
    (enough : INT_MAX < env.fuel) (tidy : Tidy h) (written : WrittenFor t latest text) :
    Forgets env h text ↔ Agrees t h := by
  obtain ⟨block, order, printed, written⟩ := written
  obtain ⟨h₁, ids, parsed, grown, all, root, latest₁, -⟩ := parse_merged wf spelled enough printed small
    (h := { h with metadataStr := text }) ⟨tidy.bounded, tidy.registered⟩ written
  obtain ⟨h₂, parsed', exact, latest₂⟩ := parse_printed wf spelled enough printed small
    (h := { usr := h.usr, backendFd := h.backendFd, metadataStr := text }) ⟨rfl, rfl⟩ written
  have mem : ∀ id n, t.node id = some n → id ∈ ids := fun id n node =>
    (all id).mpr (by rw [node]; rfl)
  constructor
  · rintro ⟨h₁', h₂', ran, fresh, ⟨R, top, objects⟩, -⟩ id n p d here pointer object
    cases (read_finished parsed).symm.trans ran
    cases parsed'.symm.trans fresh
    obtain ⟨k, depth⟩ := wf.rooted here
    obtain ⟨e, stored, reads⟩ := grown.read id n (mem id n here) here
    obtain ⟨e', stored', shows⟩ := exact.laid id n here
    have before : objectBefore { h with metadataStr := text } id n = d := by
      rw [objectBefore, pointer, Option.bind_some, object]
      rfl
    have same := objects _ _ (related grown mem root exact top objects depth)
    rw [stored, stored', rel_some] at same
    refine ⟨?_, ?_, fun marked => ?_, fun name entry listed => ?_⟩
    · rw [← before, ← reads.relativePath, same.relativePath, shows.relativePath]
    · rw [← before, ← reads.isFile, same.isFile, shows.isFile]
    · have root : e.isRoot = true := by rw [reads.isRoot, before, marked, Bool.true_or]
      rw [same.isRoot, shows.isRoot] at root
      exact of_decide_eq_true root
    · by_contra unknown
      have kept := reads.unlisted name fun c m _ child up named => unknown ⟨c, m, child, up, named⟩
      have entries := same.entries name
      rw [kept, before, listed] at entries
      obtain ⟨p', known⟩ : ∃ p', e'.entries.lookup name = some p' := by
        cases fresh : e'.entries.lookup name with
        | none =>
          rw [fresh] at entries
          cases entries
        | some p' => exact ⟨p', rfl⟩
      obtain ⟨c, m, child, up, named, -⟩ :=
        (exact.laid.lookup_iff wf.toRooted exact.filesEmpty here stored' name p').mp known
      exact unknown ⟨c, m, child, up, named⟩
  · intro agrees
    have fits : ∀ id n, t.node id = some n →
        FitsEntry t id n (objectBefore { h with metadataStr := text } id n) :=
      fun id n here => fits_of_agrees agrees tidy here
    obtain ⟨holds, files⟩ := holds_of_grown wf grown mem root fits
    exact ⟨h₁, h₂, read_finished parsed, parsed',
      sameTree_of_holds wf.toRooted holds files exact.toHolds exact.filesEmpty,
      latest₁.trans latest₂.symm⟩

end Reload

/-! A reload that changes nothing -/

/-- The objects have the same fields and the same entries. -/
structure Alike (d d' : Dirent) : Prop where
  relativePath : d'.relativePath = d.relativePath
  ident : d'.id = d.id
  isFile : d'.isFile = d.isFile
  isRoot : d'.isRoot = d.isRoot
  parent : d'.parent = d.parent
  entries : ∀ name, d'.entries.lookup name = d.entries.lookup name

/-- The object has all that the tree says of the entry. -/
structure KnowsEntry (t : Tree) (h : Handler) (id : Nat) (n : Node) (d : Dirent) : Prop where
  marked : id = t.root → d.isRoot = true
  parent : ∀ q, n.parent = some q → d.parent = some (ptrOf h q)
  listed : ∀ c m, t.node c = some m → m.parent = some id →
    d.entries.lookup m.name = some (some (ptrOf h c))

/-- The handler has the tree, and maybe more. -/
def Knows (t : Tree) (h : Handler) : Prop :=
  ∀ id n, t.node id = some n → ∃ p d, h.directories.lookup id = some p ∧
    h.memory.lookup p = some d ∧ KnowsEntry t h id n d

theorem knows_part {t s : Tree} {h : Handler} (wf : t.Rooted) (exact : Exact t h)
    (root : s.root = t.root) (part : ∀ id n, s.node id = some n → t.node id = some n) :
    Knows s h := by
  intro id n node
  have here := part id n node
  obtain ⟨p, pointer⟩ := Option.isSome_iff_exists.mp ((exact.ids id).mpr (by rw [here]; rfl))
  obtain ⟨d, object, shows⟩ := exact.laid id n here
  refine ⟨p, d, pointer, ptrOf_of_lookup pointer ▸ object, fun top => ?_, shows.parent,
    fun c m child up => ?_⟩
  · rw [shows.isRoot, decide_eq_true (top.trans root)]
  · obtain ⟨o, above, directory⟩ := wf.directory (part c m child) up
    cases here.symm.trans above
    exact (shows.entries directory m.name _).mpr ⟨c, m, part c m child, up, rfl, rfl⟩

/-- What is known already is read again. -/
theorem reread {t : Tree} {h : Handler} {env : Env} {latest : Nat} {text : Str}
    (wf : t.WellFormed) (spelled : Spelled t) (small : latest ≤ INT_MAX)
    (enough : INT_MAX < env.fuel) (tidy : Tidy h) (written : WrittenFor t latest text)
    (knows : Knows t h) : ∃ h', Handler.parseMetadataFile env { h with metadataStr := text } =
        some (true, h') ∧ Tidy h' ∧
      (∀ id, h'.directories.lookup id = h.directories.lookup id) ∧
      (∀ id p d, h.directories.lookup id = some p → h.memory.lookup p = some d →
        ∃ d', h'.memory.lookup p = some d' ∧ Alike d d') ∧
      h'.root = some (ptrOf h t.root) ∧ h'.latestId = some latest ∧ h'.usr = h.usr := by
  obtain ⟨block, order, printed, written⟩ := written
  obtain ⟨h', ids, parsed, grown, all, root, latest', usr⟩ := parse_merged wf spelled enough printed
    small (h := { h with metadataStr := text }) ⟨tidy.bounded, tidy.registered⟩ written
  have directories : ∀ id, h'.directories.lookup id = h.directories.lookup id := by
    intro id
    cases pointer : h.directories.lookup id with
    | some p => exact grown.pointers id p pointer
    | none =>
      refine Option.not_isSome_iff_eq_none.mp fun new => ?_
      rcases (grown.known id).mp new with read | old
      · obtain ⟨n, node⟩ := Option.isSome_iff_exists.mp ((all id).mp read)
        obtain ⟨p, d, known, -⟩ := knows id n node
        cases pointer.symm.trans known
      · rw [pointer] at old
        cases old
  have pointers : ∀ id, ptrOf h' id = ptrOf h id := by
    intro id
    rw [ptrOf, directories, ptrOf]
  refine ⟨h', parsed, grown.tidy, directories, fun id p d pointer object => ?_, ?_, latest', usr⟩
  · by_cases mem : id ∈ ids
    · obtain ⟨n, node⟩ := Option.isSome_iff_exists.mp ((all id).mp mem)
      obtain ⟨p', d₀, pointer', object', knowsEntry⟩ := knows id n node
      cases pointer.symm.trans pointer'
      cases object.symm.trans object'
      have before : objectBefore { h with metadataStr := text } id n = d := by
        rw [objectBefore, pointer, Option.bind_some, object]
        rfl
      obtain ⟨e, stored, reads⟩ := grown.read id n mem node
      rw [pointers, ptrOf_of_lookup pointer] at stored
      obtain ⟨d', object', ident⟩ := tidy.registered id p pointer
      cases object.symm.trans object'
      refine ⟨e, stored, ?_, reads.ident.trans ident.symm, ?_, ?_, ?_, fun name => ?_⟩
      · rw [reads.relativePath, before]
      · rw [reads.isFile, before]
      · rw [reads.isRoot, before]
        by_cases top : id = t.root
        · rw [knowsEntry.marked top, Bool.true_or]
        · rw [decide_eq_false top, Bool.or_false]
      · cases up : n.parent with
        | none => rw [reads.top up, before]
        | some q => rw [reads.parent q up, knowsEntry.parent q up, pointers]
      · by_cases listed : ∃ c m, t.node c = some m ∧ m.parent = some id ∧ m.name = name
        · obtain ⟨c, m, child, up, rfl⟩ := listed
          have read : c ∈ ids := (all c).mpr (by rw [child]; rfl)
          rw [reads.listed c m read child up, knowsEntry.listed c m child up, pointers]
        · rw [reads.unlisted name fun c m _ child up named => listed ⟨c, m, child, up, named⟩, before]
    · exact ⟨d, (grown.unread id p mem pointer).trans object, rfl, rfl, rfl, rfl, rfl, fun _ => rfl⟩
  · rw [root, pointers]

/-! The states of a handler -/

/-- The states that a handler comes through: it reads metadata, looks up paths, changes its tree and
takes changes back. -/
inductive Served (env : Env) : Handler → Prop where
  | new (usr : Str) (fd : Int) : Served env { usr := usr, backendFd := fd }
  | text {h : Handler} (served : Served env h) (value : Str) :
      Served env { h with metadataStr := value }
  | parsed {h : Handler} (served : Served env h) {r : Bool × Handler}
      (parsed : h.parseMetadataFile env = some r) : Served env r.2
  | lookedUp {h : Handler} (served : Served env h) {path : Str} {found : Found}
      (looked : h.validatePathAndGetDir path = some found) : Served env found.handler
  | created {h h' : Handler} (served : Served env h) {parentDir : Option Ptr} {name : Str} {id : Nat}
      {isFile : Bool} (created : createEntry h parentDir name id isFile = some h') : Served env h'
  | revertedCreate {h h' : Handler} (served : Served env h) {parentDir : Option Ptr} {name : Str}
      {id : Nat} (reverted : revertCreate h parentDir name id = some h') : Served env h'
  | renamed {h h' : Handler} (served : Served env h) {parentDir curDir : Option Ptr}
      {old new : Str} (renamed : renameEntry env h parentDir curDir old new = some h') :
      Served env h'
  | revertedRename {h h' : Handler} (served : Served env h) {parentDir curDir : Option Ptr}
      {old new : Str} (reverted : revertRename h parentDir curDir old new = some h') :
      Served env h'
  | moved {h h' : Handler} (served : Served env h) {oldParentDir curEntry newDir : Option Ptr}
      {name : Str} (moved : moveEntry env h oldParentDir curEntry newDir name = some h') :
      Served env h'
  | revertedMove {h h' : Handler} (served : Served env h)
      {oldParentDir curEntry newDir : Option Ptr} {name : Str}
      (reverted : revertMove h oldParentDir curEntry newDir name = some h') : Served env h'
  | removed {h h' : Handler} (served : Served env h) {parentDir : Option Ptr} {name : Str} {id : Nat}
      (removed : removeEntry h parentDir name id = some h') (value : Str) :
      Served env { h'.free (h.directories.lookup id) with metadataStr := value }
  | revertedRemove {h h' h'' : Handler} (served : Served env h) {parentDir : Option Ptr} {name : Str}
      {id : Nat} (removed : removeEntry h parentDir name id = some h')
      (reverted : revertRemove h' parentDir name id (h.directories.lookup id) = some h'') :
      Served env h''

theorem tidy_served {env : Env} {h : Handler} (served : Served env h) : Tidy h := by
  induction served with
  | new usr fd => exact tidy_new usr fd []
  | text served value ih => exact ⟨ih.bounded, ih.registered⟩
  | parsed served parsed ih => exact ih.parseMetadataFile parsed
  | lookedUp served looked ih => exact ih.validate looked
  | created served created ih => exact ih.createEntry created
  | revertedCreate served reverted ih => exact ih.revertCreate reverted
  | renamed served renamed ih => exact ih.renameEntry renamed
  | revertedRename served reverted ih => exact ih.revertRename reverted
  | moved served moved ih => exact ih.moveEntry moved
  | revertedMove served reverted ih => exact ih.revertMove reverted
  | removed served removed value ih => exact ih.freeRemoved removed value
  | revertedRemove served removed reverted ih => exact ih.revertRemove removed reverted

/-- In every state a reload of the metadata of a tree forgets the old tree if and only if the objects
that are there agree with the new one. -/
theorem reload_forgets_iff {t : Tree} {h : Handler} {env : Env} {latest : Nat} {text : Str}
    (served : Served env h) (wf : t.WellFormed) (named : Named t) (small : latest ≤ INT_MAX)
    (enough : INT_MAX < env.fuel) (written : WrittenFor t latest text) :
    Forgets env h text ↔ Agrees t h :=
  forgets_iff wf named.spelled small enough (tidy_served served) written

/-- The root folder of bob, without his folder. -/
def bobsRoot : Tree where
  root := 1
  node id := if id = 1 then some ⟨['b', 'o', 'b'], false, none⟩ else none

theorem node_bobsRoot {id : Nat} {n : Node} :
    bobsRoot.node id = some n ↔ id = 1 ∧ n = ⟨['b', 'o', 'b'], false, none⟩ := by
  rw [bobsRoot]
  grind

theorem wellFormed_bobsRoot : bobsRoot.WellFormed where
  root := ⟨_, rfl⟩
  rooted here := by
    obtain ⟨rfl, -⟩ := node_bobsRoot.mp here
    exact ⟨0, .root⟩
  distinct first second _ _ := (node_bobsRoot.mp first).1.trans (node_bobsRoot.mp second).1.symm
  inInt here := by
    obtain ⟨rfl, -⟩ := node_bobsRoot.mp here
    decide

theorem named_bobsRoot : Named bobsRoot := by
  intro id n here
  obtain ⟨-, rfl⟩ := node_bobsRoot.mp here
  decide

def rootHandler : Handler where
  usr := ['b', 'o', 'b']
  backendFd := 5
  root := some 1
  latestId := some 3
  memory := (∅ : UMap Ptr Dirent).insert 1 ⟨['b', 'o', 'b'], 1, false, none, true, ∅⟩

theorem holds_bobsRoot : Holds bobsRoot rootHandler id where
  root := rfl
  laid := by
    intro id n here
    obtain ⟨rfl, rfl⟩ := node_bobsRoot.mp here
    refine ⟨_, rfl, rfl, rfl, rfl, rfl, nofun, fun _ name p => ⟨nofun, ?_⟩⟩
    rintro ⟨c, m, child, parent, -⟩
    obtain ⟨-, rfl⟩ := node_bobsRoot.mp child
    cases parent

/-- A tree that some handler holds can be printed and parsed. -/
theorem served_text {t : Tree} {h₀ : Handler} (wf : t.WellFormed) (named : Named t)
    (holds : Holds t h₀ id) (latest : h₀.latestId = some 3) :
    ∃ h text, Served deepEnv h ∧ Exact t h ∧ WrittenFor t 3 text := by
  have enough : INT_MAX < deepEnv.fuel := Nat.lt_succ_self _
  obtain ⟨block, order, printed, -⟩ := printed_metadata wf.toRooted holds enough latest
  obtain ⟨h, parsed, exact, -⟩ := parse_printed wf named.spelled enough printed
    (by decide : 3 ≤ INT_MAX) (h := { usr := [], backendFd := 0, metadataStr := _ })
    ⟨rfl, rfl⟩ rfl
  exact ⟨h, _, ((Served.new [] 0).text _).parsed parsed, exact, block, order, printed, rfl⟩

/-- A handler that has the root folder reads that a folder and a file were made. -/
theorem reload_forgets_grown : ∃ h text, Exact bobsRoot h ∧ WrittenFor bobsTree 3 text ∧
    Forgets deepEnv h text := by
  obtain ⟨h, -, served, exact, -⟩ := served_text wellFormed_bobsRoot named_bobsRoot holds_bobsRoot rfl
  obtain ⟨-, text, -, -, written⟩ :=
    served_text wellFormed_bobsTree named_bobsTree holds_bobsTree rfl
  refine ⟨h, text, exact, written, (reload_forgets_iff served wellFormed_bobsTree named_bobsTree
    (by decide) (Nat.lt_succ_self _) written).mpr fun id n p d here pointer object => ?_⟩
  have known : bobsRoot.node id ≠ none := by
    have held := (exact.ids id).mp (by rw [pointer]; rfl)
    intro missing
    rw [missing] at held
    cases held
  obtain ⟨n', old⟩ := Option.ne_none_iff_exists'.mp known
  obtain ⟨rfl, rfl⟩ := node_bobsRoot.mp old
  obtain rfl : (⟨['b', 'o', 'b'], false, none⟩ : Node) = n := Option.some.inj here
  obtain ⟨d', stored, shows⟩ := exact.laid 1 _ old
  rw [ptrOf_of_lookup pointer, object, Option.some.injEq] at stored
  subst stored
  refine ⟨shows.relativePath, shows.isFile, fun _ => rfl, fun name entry listed => ?_⟩
  -- the old root folder lists nothing
  rw [← ptrOf_of_lookup pointer] at object
  obtain ⟨c, m, child, up, -⟩ := (exact.laid.lookup_iff wellFormed_bobsRoot.toRooted
    exact.filesEmpty old object name entry).mp listed
  obtain ⟨-, rfl⟩ := node_bobsRoot.mp child
  cases up

/-- The folder that was deleted stays in the tree after the reload. -/
theorem not_reload_forgets_deleted : ∃ h text, Served deepEnv h ∧ Exact bobsTree h ∧
    bobsRoot.WellFormed ∧ Named bobsRoot ∧ WrittenFor bobsRoot 3 text ∧ ¬ Forgets deepEnv h text := by
  have enough : INT_MAX < deepEnv.fuel := Nat.lt_succ_self _
  obtain ⟨h, -, served, exact, -⟩ := served_text wellFormed_bobsTree named_bobsTree holds_bobsTree rfl
  obtain ⟨block, order, printed, -⟩ :=
    printed_metadata wellFormed_bobsRoot.toRooted holds_bobsRoot enough rfl
  have written : WrittenFor bobsRoot 3 _ := ⟨block, order, printed, rfl⟩
  refine ⟨h, _, served, exact, wellFormed_bobsRoot, named_bobsRoot, written, fun forgets => ?_⟩
  have agrees := (forgets_iff wellFormed_bobsRoot named_bobsRoot.spelled (by decide) enough
    (tidy_served served) written).mp forgets
  obtain ⟨p, pointer⟩ := Option.isSome_iff_exists.mp ((exact.ids 1).mpr rfl)
  obtain ⟨d, object, shows⟩ := exact.laid 1 _ rfl
  rw [ptrOf_of_lookup pointer] at object
  -- the root folder still lists the folder
  have listed := (shows.entries rfl ['d'] _).mpr ⟨2, _, rfl, rfl, rfl, rfl⟩
  obtain ⟨c, m, child, parent, -⟩ := (agrees 1 _ p d rfl pointer object).2.2.2 ['d'] _ listed
  obtain ⟨-, rfl⟩ := node_bobsRoot.mp child
  cases parent

end MetadataMerging
