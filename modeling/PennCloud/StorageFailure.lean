import PennCloud.MetadataMerging
import PennCloud.StorageDelete

/-!
# What a failed deletion leaves

The content of a file is removed before the metadata without its entry are stored. A
deletion that fails in between has put the entry back, but not the content. The store
is changed by the deletion alone here, and may carry out a call that it reports as failed.
-/

namespace StorageFailure

open Text KvInterface UnorderedMap StorageMetadata StorageHandler StorageCommit Dialogue
  StorageTree MetadataText MetadataPrinting MetadataParsing MetadataRoundTrip HandlerObjects
  MetadataMerging StorageDelete

/-! An entry that is put back -/

section Objects
variable {t : Tree} {h h' : Handler} {env : Env} {latest : Nat}

/-- A handler with objects that are alike holds the same tree. -/
theorem remains_of_alike (wf : t.Rooted) (exact : Exact t h) (tidy : Tidy h') (root : h'.root = h.root)
    (latest : h'.latestId = h.latestId) (usr : h'.usr = h.usr)
    (directories : ∀ id, h'.directories.lookup id = h.directories.lookup id)
    (objects : ∀ id p d, h.directories.lookup id = some p → h.memory.lookup p = some d →
      ∃ d', h'.memory.lookup p = some d' ∧ Alike d d') : Remains t h h' := by
  have pointers : ∀ id, ptrOf h' id = ptrOf h id := by
    intro id
    rw [ptrOf, directories, ptrOf]
  have object : ∀ id n, t.node id = some n → ∃ d d', h.memory.lookup (ptrOf h id) = some d ∧
      h'.memory.lookup (ptrOf h' id) = some d' ∧ Shows t (ptrOf h) id n d ∧ Alike d d' := by
    intro id n here
    obtain ⟨d, stored, shows⟩ := exact.laid id n here
    obtain ⟨p, pointer⟩ := Option.isSome_iff_exists.mp ((exact.ids id).mpr (by rw [here]; rfl))
    rw [ptrOf_of_lookup pointer] at stored
    obtain ⟨d', stored', alike⟩ := objects id p d pointer stored
    rw [pointers, ptrOf_of_lookup pointer]
    exact ⟨d, d', stored, stored', shows, alike⟩
  refine ⟨⟨⟨?_, fun id n here => ?_⟩, fun id => ?_, fun id n d' here file stored => ?_,
    fun d' stored => ?_⟩, tidy, latest, usr, fun id _ _ => pointers id⟩
  · rw [root, exact.root, pointers]
  · obtain ⟨d, d', -, stored, shows, alike⟩ := object id n here
    refine ⟨d', stored, alike.relativePath.trans shows.relativePath, alike.ident.trans shows.ident,
      alike.isFile.trans shows.isFile, alike.isRoot.trans shows.isRoot, fun q up => ?_,
      fun directory name p => ?_⟩
    · rw [alike.parent, shows.parent q up, pointers]
    · rw [alike.entries, shows.entries directory]
      simp only [pointers]
  · rw [directories, exact.ids]
  · obtain ⟨d, e, known, stored', -, alike⟩ := object id n here
    cases stored.symm.trans stored'
    refine eq_empty_of_lookup fun name => ?_
    rw [alike.entries, exact.files id n d here file known]
    rfl
  · obtain ⟨name, here⟩ := wf.root
    obtain ⟨d, e, known, stored', -, alike⟩ := object t.root _ here
    cases stored.symm.trans stored'
    rw [alike.parent]
    exact exact.top d known

/-- A handler reads again what is left of its tree. -/
theorem reread_part {s : Tree} {text : Str} (serves : Serves t latest h) (wf : s.WellFormed)
    (named : Named s) (root : s.root = t.root)
    (part : ∀ id n, s.node id = some n → t.node id = some n) (small : latest ≤ INT_MAX)
    (enough : INT_MAX < env.fuel) (written : WrittenFor s latest text) :
    ∃ h', Handler.parseMetadataFile env { h with metadataStr := text } = some (true, h') ∧
      Remains t h h' := by
  have knows : Knows s h := knows_part serves.wf.toRooted serves.exact root part
  obtain ⟨h', parsed, tidy, directories, objects, top, latest', usr⟩ :=
    reread wf named.spelled small enough serves.tidy written knows
  refine ⟨h', parsed, remains_of_alike serves.wf.toRooted serves.exact tidy ?_ ?_ usr directories
    objects⟩
  · rw [top, root, serves.exact.root]
  · rw [latest', serves.known]

/-- The entry is deleted and added again. -/
theorem alike_readded {d : Dirent} {name : Str} {p : Option Ptr}
    (entry : d.entries.lookup name = some p) : Alike d ((d.deleteEntry name).addEntry name p) := by
  refine ⟨rfl, rfl, rfl, rfl, rfl, fun other => ?_⟩
  rw [Dirent.addEntry]
  by_cases same : other = name
  · rw [same, AList.lookup_insert, entry]
  · rw [AList.lookup_insert_ne same, Dirent.deleteEntry, AList.lookup_erase_ne same]

/-- An entry is taken out of its directory and put back. -/
theorem readded {x : Nat} {q : Ptr} {parent : Ptr} {d : Dirent} {name : Str} (tidy : Tidy h)
    (registered : h.directories.lookup x = some q) (object : h.memory.lookup parent = some d)
    (removed : removeEntry h (some parent) name x = some h') :
    ∃ h'', revertRemove h' (some parent) name x (h.directories.lookup x) = some h'' ∧ Tidy h'' ∧
      (h''.root = h.root ∧ h''.latestId = h.latestId ∧ h''.usr = h.usr) ∧
      (∀ id, h''.directories.lookup id = h.directories.lookup id) ∧
      ∀ p, h''.memory.lookup p =
        if p = parent then some ((d.deleteEntry name).addEntry name (some q))
        else h.memory.lookup p := by
  have taken := removed
  rw [removeEntry, update_of_lookup _ object, Option.map_some, Option.some.injEq] at taken
  have back : revertRemove h' (some parent) name x (h.directories.lookup x) = some { h with
      memory := (h.memory.insert parent (d.deleteEntry name)).insert parent
        ((d.deleteEntry name).addEntry name (some q))
      directories := (h.directories.erase x).insert x q } := by
    rw [← taken, registered]
    exact update_of_lookup (Dirent.addEntry name (some q)) (AList.lookup_insert _)
  refine ⟨_, back, tidy.revertRemove removed back, ⟨rfl, rfl, rfl⟩, fun id => ?_, fun p => ?_⟩
  · by_cases same : id = x
    · rw [same, registered]
      exact AList.lookup_insert _
    · exact (AList.lookup_insert_ne same).trans (AList.lookup_erase_ne same)
  · by_cases same : p = parent
    · rw [if_pos same, same]
      exact AList.lookup_insert _
    · rw [if_neg same]
      exact (AList.lookup_insert_ne same).trans (AList.lookup_insert_ne same)

theorem leaf_readded {x b : Nat} {n : Node} (serves : Serves t latest h) (here : t.node x = some n)
    (parent : n.parent = some b)
    (removed : removeEntry h (some (ptrOf h b)) n.name x = some h') :
    ∃ h'', revertRemove h' (some (ptrOf h b)) n.name x (h.directories.lookup x) = some h'' ∧
      Remains t h h'' := by
  obtain ⟨o, above, directory⟩ := serves.wf.directory here parent
  obtain ⟨d, object, shows⟩ := serves.exact.laid b o above
  obtain ⟨q, registered⟩ := Option.isSome_iff_exists.mp ((serves.exact.ids x).mpr (by rw [here]; rfl))
  obtain ⟨h'', back, tidy, ⟨root, latest, usr⟩, directories, memory⟩ :=
    readded serves.tidy registered object removed
  refine ⟨h'', back, remains_of_alike serves.wf.toRooted serves.exact tidy root latest usr
    directories fun id p e pointer stored => ?_⟩
  rw [memory]
  by_cases same : p = ptrOf h b
  · subst same
    cases object.symm.trans stored
    rw [if_pos rfl]
    refine ⟨_, rfl, alike_readded ?_⟩
    rw [(shows.entries directory n.name _).mpr ⟨x, n, here, parent, rfl, rfl⟩,
      ptrOf_of_lookup registered]
  · rw [if_neg same]
    exact ⟨e, stored, rfl, rfl, rfl, rfl, rfl, fun _ => rfl⟩

/-- The root folder is the only entry of its tree, and lists itself under an empty name. -/
structure Looped (name : Str) (h : Handler) (p : Ptr) (d : Dirent) : Prop where
  root : h.root = some p
  object : h.memory.lookup p = some d
  relativePath : d.relativePath = name
  isFile : d.isFile = false
  isRoot : d.isRoot = true
  itself : d.entries.lookup [] = some (some p)
  others : ∀ other, other ≠ [] → d.entries.lookup other = none

theorem only_root (wf : t.Rooted) (leaf : Leaf t t.root) {id : Nat} {n : Node}
    (here : t.node id = some n) : id = t.root := leaf.under.mp (wf.under_root here)

/-- What is put back into the emptied root folder is the root folder itself. -/
theorem root_readded {text name : Str} (serves : Serves t latest h) (leaf : Leaf t t.root)
    (here : t.node t.root = some ⟨name, false, none⟩) (small : latest ≤ INT_MAX)
    (enough : INT_MAX < env.fuel) (written : WrittenFor t latest text)
    (removed : removeEntry h (some (ptrOf h t.root)) [] t.root = some h') :
    ∃ h₁ h₂ p d, revertRemove h' (some (ptrOf h t.root)) [] t.root
        (h.directories.lookup t.root) = some h₁ ∧ h₁.usr = h.usr ∧
      Handler.parseMetadataFile env { h₁ with metadataStr := text } = some (true, h₂) ∧
      Looped name h₂ p d := by
  obtain ⟨d, object, shows⟩ := serves.exact.laid _ _ here
  obtain ⟨q, registered⟩ :=
    Option.isSome_iff_exists.mp ((serves.exact.ids t.root).mpr (by rw [here]; rfl))
  obtain rfl := ptrOf_of_lookup registered
  obtain ⟨h₁, back, tidy, ⟨root, latest', usr⟩, directories, memory⟩ :=
    readded serves.tidy registered object removed
  have pointer : ptrOf h₁ t.root = ptrOf h t.root := by
    rw [ptrOf, directories, ptrOf]
  have stored := memory (ptrOf h t.root)
  rw [if_pos rfl] at stored
  have knows : Knows t h₁ := by
    intro id n node
    obtain rfl := only_root serves.wf.toRooted leaf node
    refine ⟨_, _, (directories t.root).trans registered, stored, fun _ => ?_, fun q up => ?_,
      fun c m child up => absurd up (leaf c m child)⟩
    · exact shows.isRoot.trans (decide_eq_true rfl)
    · exact absurd rfl (serves.wf.ne_root node up)
  obtain ⟨h₂, parsed, -, -, objects, top, -, -⟩ :=
    reread serves.wf serves.named.spelled small enough tidy written knows
  obtain ⟨d', object', alike⟩ :=
    objects t.root _ _ ((directories t.root).trans registered) stored
  have nothing : ∀ other, d.entries.lookup other = none := by
    intro other
    refine Option.eq_none_iff_forall_ne_some.mpr fun p entry => ?_
    obtain ⟨c, m, child, up, -⟩ := (shows.entries rfl other p).mp entry
    exact leaf c m child up
  refine ⟨h₁, h₂, ptrOf h t.root, d', back, usr, parsed, ?_, object', ?_, ?_, ?_, ?_,
    fun other apart => ?_⟩
  · rw [top, pointer]
  · exact alike.relativePath.trans shows.relativePath
  · exact alike.isFile.trans shows.isFile
  · exact alike.isRoot.trans (shows.isRoot.trans (decide_eq_true rfl))
  · rw [alike.entries]
    exact AList.lookup_insert _
  · rw [alike.entries]
    refine (AList.lookup_insert_ne apart).trans ?_
    rw [Dirent.deleteEntry, AList.lookup_erase_ne apart, nothing]

end Objects

/-! The store -/

/-- The values of a user, and the keys that were removed since metadata were last stored. -/
structure Store where
  value : Str → Option Str
  removed : List Str

/-- What the store does with a call of a deletion. A call that is not answered with FINISHED may
have been carried out. -/
inductive Answers (usr : Str) : Store → KvCall → KvReply → Store → Prop where
  | got {st : Store} {key : Str} {reply : KvReply} (finished : reply.status = .finished)
      (stored : st.value key = some reply.value) : Answers usr st (.gets usr key) reply st
  | notGot {st : Store} {key : Str} {reply : KvReply} (failed : reply.status ≠ .finished) :
      Answers usr st (.gets usr key) reply st
  | swapped {st : Store} {key old new : Str} {reply : KvReply} (stored : st.value key = some old) :
      Answers usr st (.cput usr key old new) reply ⟨Function.update st.value key (some new), []⟩
  | notSwapped {st : Store} {key old new : Str} {reply : KvReply}
      (failed : reply.status ≠ .finished) : Answers usr st (.cput usr key old new) reply st
  | removed {st : Store} {key : Str} {reply : KvReply} : Answers usr st (.dele usr key) reply
      ⟨Function.update st.value key none, if (st.value key).isSome then key :: st.removed else st.removed⟩
  | notRemoved {st : Store} {key : Str} {reply : KvReply} (failed : reply.status ≠ .finished) :
      Answers usr st (.dele usr key) reply st

/-- A new handler that parses the text has a file of the id. -/
def ListsFile (env : Env) (text : Str) (id : Nat) : Prop :=
  ∃ h p d, Handler.parseMetadataFile env { usr := [], backendFd := 0, metadataStr := text } =
      some (true, h) ∧
    h.directories.lookup id = some p ∧ h.memory.lookup p = some d ∧ d.isFile = true

/-- Every file that is listed in the stored metadata has the content that it had before. -/
def KeepsContents (env : Env) (before after : Store) : Prop :=
  ∀ text id, after.value kMetadataFp = some text → ListsFile env text id →
    (before.value (toDecimal id)).isSome →
      after.value (toDecimal id) = before.value (toDecimal id)

theorem listsFile_iff {s : Tree} {env : Env} {latest : Nat} {text : Str} (said : Says s latest text)
    (enough : INT_MAX < env.fuel) {id : Nat} :
    ListsFile env text id ↔ ∃ n, s.node id = some n ∧ n.isFile = true := by
  obtain ⟨h, parsed, exact, -⟩ := said env [] 0 enough
  constructor
  · rintro ⟨h', p, d, parsed', pointer, object, file⟩
    cases parsed.symm.trans parsed'
    obtain ⟨n, here⟩ := Option.isSome_iff_exists.mp ((exact.ids id).mp (by rw [pointer]; rfl))
    obtain ⟨d', object', shows⟩ := exact.laid id n here
    rw [ptrOf_of_lookup pointer] at object'
    cases object.symm.trans object'
    exact ⟨n, here, shows.isFile.symm.trans file⟩
  · rintro ⟨n, here, file⟩
    obtain ⟨d, object, shows⟩ := exact.laid id n here
    obtain ⟨p, pointer⟩ := Option.isSome_iff_exists.mp ((exact.ids id).mpr (by rw [here]; rfl))
    rw [ptrOf_of_lookup pointer] at object
    exact ⟨h, p, d, parsed, pointer, object, shows.isFile.trans file⟩

/-- The tree is stored, and only the files whose keys were removed lack their content. -/
structure Consistent (before : Store) (latest : Nat) (s : Tree) (st : Store) : Prop where
  wf : s.WellFormed
  named : Named s
  stored : ∃ text, st.value kMetadataFp = some text ∧ WrittenFor s latest text
  kept : ∀ id n, s.node id = some n → n.isFile = true → toDecimal id ∉ st.removed →
    st.value (toDecimal id) = before.value (toDecimal id)
  lost : ∀ key ∈ st.removed, st.value key = none ∧ (before.value key).isSome ∧
    ∃ id n, key = toDecimal id ∧ s.node id = some n ∧ n.isFile = true

theorem Consistent.keeps_iff {before st : Store} {latest : Nat} {s : Tree} {env : Env}
    (consistent : Consistent before latest s st) (small : latest ≤ INT_MAX)
    (enough : INT_MAX < env.fuel) : KeepsContents env before st ↔ st.removed = [] := by
  obtain ⟨text, stored, written⟩ := consistent.stored
  have said := says_of_written consistent.wf consistent.named.spelled small written
  constructor
  · intro keeps
    by_contra some
    obtain ⟨key, mem⟩ := List.exists_mem_of_ne_nil _ some
    obtain ⟨none, had, id, n, rfl, here, file⟩ := consistent.lost key mem
    have same := keeps text id stored ((listsFile_iff said enough).mpr ⟨n, here, file⟩) had
    rw [← same, none] at had
    cases had
  · intro settled text' id stored' lists _
    cases stored.symm.trans stored'
    obtain ⟨n, here, file⟩ := (listsFile_iff said enough).mp lists
    refine consistent.kept id n here file ?_
    rw [settled]
    exact List.not_mem_nil

/-! A leaf -/

section Leaf
variable {t : Tree} {h h₁ : Handler} {env : Env} {latest x b : Nat} {n : Node} {usr : Str}
  {before st st' : Store} {reply : KvReply}

/-- Nothing is left to store. -/
def Steady (usr : Str) (before : Store) (latest : Nat) (t : Tree) (h : Handler) (st : Store) :
    Prop :=
  h.usr = usr ∧ Consistent before latest t st ∧ st.removed = []

/-- Some tree is stored. -/
def Left (before : Store) (latest : Nat) (st : Store) : Prop :=
  ∃ s, Consistent before latest s st

/-- The content of the entry is removed, and its entry may be. -/
structure Halfway (before : Store) (latest : Nat) (t : Tree) (x : Nat) (n : Node) (st : Store) :
    Prop where
  consistent : ∃ s, (s = t ∨ s = t.without x) ∧ Consistent before latest s st
  only : ∀ key ∈ st.removed, key = toDecimal x
  gone : n.isFile = true → st.value (toDecimal x) = none

theorem metadata_ne_decimal (id : Nat) : toDecimal id ≠ kMetadataFp := by
  intro same
  have digit : 's'.isDigit = true := isDigit_of_mem_toDecimal (n := id) (by rw [same]; decide)
  cases digit

/-- The content of a file of the tree is removed. -/
theorem Consistent.dele (consistent : Consistent before latest t st) (here : t.node x = some n)
    (file : n.isFile = true) : Consistent before latest t
      ⟨Function.update st.value (toDecimal x) none,
        if (st.value (toDecimal x)).isSome then toDecimal x :: st.removed else st.removed⟩ := by
  cases had : st.value (toDecimal x) with
  | none =>
    rw [Function.update_eq_self_iff.mpr had.symm]
    exact consistent
  | some content =>
    have fresh : toDecimal x ∉ st.removed := by
      intro mem
      rw [(consistent.lost _ mem).1] at had
      cases had
    refine ⟨consistent.wf, consistent.named, ?_, fun id m node kind unremoved => ?_,
      fun key mem => ?_⟩
    · obtain ⟨text, stored, written⟩ := consistent.stored
      exact ⟨text, (Function.update_of_ne (metadata_ne_decimal x).symm _ _).trans stored, written⟩
    · obtain ⟨apart, old⟩ := not_or.mp (List.mem_cons.not.mp unremoved)
      exact (Function.update_of_ne apart _ _).trans (consistent.kept id m node kind old)
    · rcases List.mem_cons.mp mem with rfl | old
      · refine ⟨Function.update_self .., ?_, x, n, rfl, here, file⟩
        rw [← consistent.kept x n here file fresh, had]
        rfl
      · obtain ⟨none, had', listed⟩ := consistent.lost key old
        refine ⟨?_, had', listed⟩
        by_cases same : key = toDecimal x
        · subst same
          exact Function.update_self ..
        · exact (Function.update_of_ne same _ _).trans none

/-- A part of the tree is stored that has none of the files whose keys were removed. -/
theorem Consistent.cput {s : Tree} (consistent : Consistent before latest s st) (wf : t.WellFormed)
    (named : Named t) (part : ∀ id m, t.node id = some m → s.node id = some m ∧
      toDecimal id ∉ st.removed) {text : Str} (written : WrittenFor t latest text) :
    Consistent before latest t ⟨Function.update st.value kMetadataFp (some text), []⟩ := by
  refine ⟨wf, named, ⟨text, ?_, written⟩, fun id m node kind _ => ?_, List.forall_mem_nil _⟩
  · exact Function.update_self kMetadataFp (some text) st.value
  · obtain ⟨old, unremoved⟩ := part id m node
    exact (Function.update_of_ne (metadata_ne_decimal id) _ _).trans
      (consistent.kept id m old kind unremoved)

/-- The tree without the entry is stored. -/
theorem Halfway.stored (halfway : Halfway before latest t x n st) (wf : t.WellFormed)
    (named : Named t) (here : t.node x = some n) (parent : n.parent = some b) {text : Str}
    (written : WrittenFor (t.without x) latest text) : Consistent before latest (t.without x)
      ⟨Function.update st.value kMetadataFp (some text), []⟩ := by
  obtain ⟨s, part, consistent⟩ := halfway.consistent
  refine consistent.cput (wf.without (wf.ne_root here parent)) (fun id m node => ?_)
    (fun id m node => ?_) written
  · exact named id m (node_without.mp node).2
  · obtain ⟨apart, old⟩ := node_without.mp node
    constructor
    · rcases part with rfl | rfl
      · exact old
      · exact node
    · intro mem
      obtain rfl := toDecimal_injective (halfway.only _ mem)
      exact apart .self

/-- The metadata without the entry are given to the store. -/
theorem Halfway.cput (halfway : Halfway before latest t x n st) (wf : t.WellFormed)
    (named : Named t) (here : t.node x = some n) (parent : n.parent = some b) {old text : Str}
    (written : WrittenFor (t.without x) latest text)
    (asked : Answers usr st (.cput usr kMetadataFp old text) reply st') :
    Halfway before latest t x n st' ∧
      (reply.status = .finished → Consistent before latest (t.without x) st' ∧ st'.removed = []) := by
  cases asked with
  | swapped stored =>
    have after := halfway.stored wf named here parent written
    refine ⟨⟨⟨_, .inr rfl, after⟩, List.forall_mem_nil _, fun file => ?_⟩, fun _ => ⟨after, rfl⟩⟩
    exact (Function.update_of_ne (metadata_ne_decimal x) _ _).trans (halfway.gone file)
  | notSwapped failed => exact ⟨halfway, fun finished => absurd finished failed⟩

theorem Halfway.again (halfway : Halfway before latest t x n st) (file : n.isFile = true)
    (asked : Answers usr st (.dele usr (toDecimal x)) reply st') : st' = st := by
  cases asked with
  | removed =>
    have gone := halfway.gone file
    rw [Function.update_eq_self_iff.mpr gone.symm, gone]
    rfl
  | notRemoved failed => rfl

/-- The content is removed for the first time. -/
theorem halfway_first (consistent : Consistent before latest t st) (settled : st.removed = [])
    (here : t.node x = some n) (file : n.isFile = true)
    (asked : Answers usr st (.dele usr (toDecimal x)) reply st') :
    Consistent before latest t st' ∧
      (reply.status = .finished → Halfway before latest t x n st') := by
  cases asked with
  | removed =>
    have after := consistent.dele here file
    refine ⟨after, fun _ => ⟨⟨t, .inl rfl, after⟩, fun key mem => ?_, fun _ =>
      Function.update_self ..⟩⟩
    rw [settled] at mem
    split at mem
    · exact List.mem_singleton.mp mem
    · cases mem
  | notRemoved failed => exact ⟨consistent, fun finished => absurd finished failed⟩

/-- A leaf has no entries to delete first. -/
theorem emptyFirst_leaf {fuel : Nat} {expectKvFailure : Bool} {found : Found} {curDir : Dirent}
    {resp : StorageServiceResp} {ptr : Nat → Ptr} (leaf : Leaf t x)
    (shows : Shows t ptr x n curDir) :
    emptyFirst env fuel expectKvFailure found curDir resp = .done (true, found.handler, resp) := by
  rw [emptyFirst]
  cases file : curDir.isFile with
  | true => rfl
  | false =>
    have nothing : curDir.entries = ∅ := by
      refine eq_empty_of_lookup fun name => Option.eq_none_iff_forall_ne_some.mpr fun p entry => ?_
      obtain ⟨c, m, child, up, -⟩ := (shows.entries (shows.isFile.symm.trans file) name p).mp entry
      exact leaf c m child up
    rw [nothing]
    rfl

end Leaf

/-! The runs of a deletion -/

section Runs
variable {t : Tree} {h h₁ : Handler} {env : Env} {latest x b : Nat} {n : Node} {usr : Str}
  {before st : Store}

/-- The stored metadata are read, or nothing is. -/
theorem reaches_read {β : Type} {f : Bool × Handler → Service β} {post : Store → β → Prop}
    (user : h.usr = usr) (failed : ∀ h', (f (false, h')).Reaches True (Answers usr) st post)
    (read : ∀ text h', st.value kMetadataFp = some text →
      Handler.parseMetadataFile env { h with metadataStr := text } = some h' →
        (f h').Reaches True (Answers usr) st post) :
    ((readMetadata env h).bind f).Reaches True (Answers usr) st post := by
  rw [readMetadata, bind_assoc]
  refine reaches_question ?_
  intro reply st' asked
  rw [user] at asked
  by_cases finished : reply.status = .finished
  · have stored : st.value kMetadataFp = some reply.value ∧ st' = st := by
      cases asked with
      | got _ stored => exact ⟨stored, rfl⟩
      | notGot no => exact absurd finished no
    obtain ⟨stored, rfl⟩ := stored
    rw [if_neg (not_not.mpr finished), if_neg (by rw [finished]; decide)]
    cases parsed : Handler.parseMetadataFile env { h with metadataStr := reply.value } with
    | none => trivial
    | some r => exact read reply.value r stored parsed
  · have same : st' = st := by
      cases asked with
      | got yes => exact absurd yes finished
      | notGot => rfl
    subst same
    rw [if_pos finished]
    exact failed _

/-- The entry is taken out, stored, and where that fails put back and tried again. -/
theorem reaches_storeRemoved {fuel attempts : Nat} {path : Str} {found : Found}
    {resp : StorageServiceResp} (small : latest ≤ INT_MAX) (enough : INT_MAX < env.fuel)
    (serves : Serves t latest h) (user : h.usr = usr) (here : t.node x = some n)
    (parent : n.parent = some b) (leaf : Leaf t x) (parentDir : found.parentDir = some (ptrOf h b))
    (name : found.relativePath = n.name) (halfway : Halfway before latest t x n st)
    (again : ∀ h' st', Serves t latest h' → h'.usr = usr → Halfway before latest t x n st' →
      (handleDelete env fuel attempts true path h' .cleared).Reaches True (Answers usr) st'
        (Continues (Steady usr before latest) (Left before latest) t h' (t.Under x))) :
    (storeRemoved env fuel attempts path found x h resp).Reaches True (Answers usr) st
      (Continues (Steady usr before latest) (Left before latest) t h (t.Under x)) := by
  have wf := serves.wf
  obtain ⟨h', removed, same, holds, remains⟩ :=
    leaf_removed wf serves.exact serves.tidy here parent leaf
  obtain ⟨h'', back, whole⟩ := leaf_readded serves here parent removed
  have wf' := wf.without (wf.ne_root here parent)
  have named' : Named (t.without x) := fun id m node => serves.named id m (node_without.mp node).2
  rw [storeRemoved, parentDir, name]
  refine reaches_ofOption removed (reaches_written wf'.toRooted holds
    (same.latestId.trans serves.known) enough ?_)
  intro text reply st' written asked
  rw [same.usr.trans user] at asked
  obtain ⟨halfway', stored⟩ := halfway.cput wf serves.named here parent written asked
  by_cases finished : reply.status = .finished
  · obtain ⟨consistent, settled⟩ := stored finished
    rw [decide_eq_true finished]
    have left := remains text
    exact .inl ⟨rfl, t.without x, cut_without t x, left, left.usr.trans user, consistent, settled⟩
  · rw [decide_eq_false finished]
    obtain ⟨s, part, consistent⟩ := halfway'.consistent
    refine reaches_ofOption back (reaches_read (whole.usr.trans user) (fun h' => ?_) ?_)
    · exact .inr ⟨rfl, s, consistent⟩
    · rintro text' r read parsed
      have serves'' : Serves t latest h'' := ⟨wf, serves.named, whole.exact, whole.tidy,
        whole.latestId.trans serves.known⟩
      obtain ⟨text₀, stored₀, written₀⟩ := consistent.stored
      cases read.symm.trans stored₀
      obtain ⟨h₃, parsed₃, whole₃⟩ := reread_part serves'' consistent.wf consistent.named
        (by rcases part with rfl | rfl <;> rfl) (fun id m node => by
          rcases part with rfl | rfl
          · exact node
          · exact (node_without.mp node).2) small enough written₀
      cases parsed.symm.trans parsed₃
      have kept := whole.trans whole₃ fun _ _ node => node
      refine (again h₃ st' ⟨wf, serves.named, kept.exact, kept.tidy,
        kept.latestId.trans serves.known⟩ (kept.usr.trans user) halfway').mono ?_
      rintro st'' r (⟨success, t', cut, remains', kept'⟩ | failed)
      · refine .inl ⟨success, t', cut, ?_, kept'⟩
        exact kept.trans remains' fun c m node => (cut.node.mp node).1
      · exact .inr failed

/-- An entry whose content is removed is tried again. -/
theorem reaches_again (small : latest ≤ INT_MAX) (enough : INT_MAX < env.fuel) {path : Str}
    (finds : t.Finds path x b n) (leaf : Leaf t x) {fuel attempts : Nat}
    {resp : StorageServiceResp} (serves : Serves t latest h) (user : h.usr = usr)
    (halfway : Halfway before latest t x n st) :
    (handleDelete env fuel attempts true path h resp).Reaches True (Answers usr) st
      (Continues (Steady usr before latest) (Left before latest) t h (t.Under x)) := by
  induction fuel generalizing attempts h resp st with
  | zero => trivial
  | succ fuel ih =>
    cases attempts with
    | zero =>
      obtain ⟨s, -, consistent⟩ := halfway.consistent
      exact .inr ⟨rfl, s, consistent⟩
    | succ attempts =>
      obtain ⟨d, object, shows⟩ := serves.exact.laid x n finds.here
      rw [handleDelete_eq]
      refine reaches_ofOption (validate_finds serves.wf serves.exact.toHolds
        serves.exact.filesEmpty finds) (reaches_ofOption object ?_)
      have stored : ∀ {st'}, Halfway before latest t x n st' →
          (storeRemoved env fuel attempts path ⟨true, some (ptrOf h b), some (ptrOf h x), n.name, h⟩
            d.id h resp).Reaches True (Answers usr) st'
            (Continues (Steady usr before latest) (Left before latest) t h (t.Under x)) := by
        intro st' halfway'
        rw [shows.ident]
        exact reaches_storeRemoved small enough serves user finds.here finds.parent leaf rfl rfl
          halfway' fun h' st'' serves' user' halfway'' => ih serves' user' halfway''
      rw [emptyFirst_leaf leaf shows]
      simp only [Dialogue.bind, Bool.not_true, Bool.false_eq_true, if_false, deleteEmptied,
        Bool.and_false]
      cases file : d.isFile with
      | false => exact stored halfway
      | true =>
        refine reaches_question ?_
        intro reply st' asked
        rw [user, shows.ident] at asked
        obtain rfl := halfway.again (shows.isFile.symm.trans file) asked
        exact stored halfway

/-- A leaf is deleted, or some tree is stored. -/
theorem deletesLeaf_answers (small : latest ≤ INT_MAX) (enough : INT_MAX < env.fuel)
    (attempts : Nat) : DeletesLeaf True (Answers usr) (Steady usr before latest) (Left before latest)
      env latest false attempts := by
  intro t h h₁ x b n fuel path found curDir resp st serves same finds leaf parentDir name
    ident kind ⟨user, consistent, settled⟩
  have stored : ∀ {st'}, Halfway before latest t x n st' →
      (storeRemoved env fuel attempts path found curDir.id h₁ resp).Reaches True (Answers usr) st'
        (Continues (Steady usr before latest) (Left before latest) t h₁ (t.Under x)) := by
    intro st' halfway
    rw [ident]
    exact reaches_storeRemoved small enough serves user finds.here finds.parent leaf parentDir name
      halfway fun h' st'' serves' user' halfway' =>
        reaches_again small enough finds leaf serves' user' halfway'
  rw [deleteEmptied]
  cases file : curDir.isFile with
  | false =>
    refine stored ⟨⟨t, .inl rfl, consistent⟩, ?_, fun yes => ?_⟩
    · rw [settled]
      exact List.forall_mem_nil _
    · rw [← kind, file] at yes
      cases yes
  | true =>
    rw [if_pos rfl, bind_assoc]
    refine reaches_question ?_
    intro reply st' asked
    rw [← same, user, ident] at asked
    obtain ⟨consistent', halfway⟩ :=
      halfway_first consistent settled finds.here (kind.symm.trans file) asked
    by_cases finished : reply.status = .finished
    · rw [decide_eq_true finished]
      exact stored (halfway finished)
    · rw [decide_eq_false finished]
      exact .inr ⟨rfl, t, consistent'⟩

end Runs

/-! The root folder -/

section Root
variable {t : Tree} {h : Handler} {env : Env} {latest : Nat} {usr : Str} {before st : Store}

theorem walk_word {cs : Str} (noSlash : '/' ∉ cs) (parent : Option Ptr) (relativePath token : Str) :
    walk h parent relativePath token cs = walk h parent relativePath (token ++ cs) [] := by
  induction cs generalizing token with
  | nil => rw [List.append_nil]
  | cons c cs ih =>
    obtain ⟨apart, later⟩ := not_or.mp (List.mem_cons.not.mp noSlash)
    have step : walk h parent relativePath token (c :: cs) =
        walk h parent relativePath (token ++ [c]) cs := by
      rw [walk, if_neg (Ne.symm apart)]
    rw [step, ih later, List.append_assoc]
    rfl

/-- The root folder has no entry that is named like the root folder. -/
theorem validate_looped {name : Str} {p : Ptr} {d : Dirent} (looped : Looped name h p d)
    (named : name ≠ []) (noSlash : '/' ∉ name) : h.validatePathAndGetDir ('/' :: name) =
      some ⟨false, some p, none, name, h⟩ := by
  have notRoot : '/' :: name ≠ "/".toList := by
    intro same
    exact named (List.cons.inj same).2
  have unknown : d.hasEntry name = false := by
    rw [Dirent.hasEntry, looped.others name named]
    rfl
  rw [Handler.validatePathAndGetDir, if_neg notRoot, walk, if_pos rfl, if_pos rfl,
    walk_word noSlash, List.nil_append, walk_last _ _ _ named, looped.root, Handler.deref,
    Option.bind_some, looped.object, Option.map_some, Option.bind_some, unknown]
  rfl

/-- Its first entry has the path of a folder in the root folder. -/
theorem looped_paths {name : Str} {p : Ptr} {d : Dirent} (looped : Looped name h p d)
    (noSlash : '/' ∉ name) (nonempty : 0 < d.entries.keys.length) {paths : List Str}
    (computed : entryPaths env h p d = some paths) : ∃ rest, paths = ('/' :: name) :: rest := by
  rw [entryPaths] at computed
  have length := env.it.length_pairs p d.entries
  cases pairs : env.it.pairs p d.entries with
  | nil =>
    rw [pairs, List.length_nil] at length
    omega
  | cons e later =>
    have entry := (env.it.mem_pairs p d.entries (k := e.1) (v := e.2)).mp (by
      rw [pairs]
      exact List.mem_cons_self)
    have itself : e.2 = some p := by
      by_cases empty : e.1 = []
      · rw [empty, looped.itself, Option.some.injEq] at entry
        exact entry.symm
      · rw [looped.others e.1 empty] at entry
        cases entry
    have path : ∀ path, h.path env (some p) = some path → path = '/' :: name := by
      intro path known
      rw [Handler.path] at known
      cases fuel : env.fuel with
      | zero =>
        rw [fuel] at known
        cases known
      | succ fuel' =>
        rw [fuel, pathOf, Handler.deref, Option.bind_some, looped.object, Option.bind_some,
          if_pos looped.isRoot, looped.relativePath, Option.some.injEq] at known
        exact known.symm
    rw [pairs, List.mapM_cons, itself] at computed
    obtain ⟨first, belowFirst, computed⟩ := Option.bind_eq_some_iff.mp computed
    obtain ⟨rest, -, same⟩ := Option.bind_eq_some_iff.mp computed
    obtain ⟨full, known, below⟩ := Option.bind_eq_some_iff.mp belowFirst
    obtain rfl := path full known
    rw [belowRoot, if_neg noSlash, Option.some.injEq] at below
    cases same
    exact ⟨rest, below ▸ rfl⟩

/-- The deletion of the root folder that lists itself asks nothing and fails. -/
theorem reaches_looped {name : Str} {p : Ptr} {d : Dirent} (looped : Looped name h p d)
    (named : name ≠ []) (noSlash : '/' ∉ name) {fuel attempts : Nat} {resp : StorageServiceResp} :
    (handleDelete env fuel attempts true "/".toList h resp).Reaches True (Answers usr) st
      fun st' r => r.2.status = some .fail ∧ st' = st := by
  cases fuel with
  | zero => trivial
  | succ fuel =>
    cases attempts with
    | zero => exact ⟨rfl, rfl⟩
    | succ attempts =>
      have found : h.validatePathAndGetDir "/".toList =
          some ⟨true, some p, some p, [], h⟩ := by
        rw [Handler.validatePathAndGetDir, if_pos rfl, looped.root]
      have entries : 0 < d.entries.keys.length :=
        List.length_pos_of_mem (AList.mem_keys.mpr (AList.lookup_isSome.mp (by
          rw [looped.itself]
          rfl)))
      rw [handleDelete_eq]
      refine reaches_ofOption found (reaches_ofOption looped.object ?_)
      rw [emptyFirst, looped.isFile]
      simp only [Bool.not_false, Bool.true_and, decide_eq_true entries, if_true, bind_assoc]
      rw [Option.getD_some]
      cases computed : entryPaths env h p d with
      | none => trivial
      | some paths =>
        obtain ⟨rest, rfl⟩ := looped_paths looped noSlash entries computed
        have first : (handleDelete env fuel 1 true ('/' :: name) h resp).Reaches True (Answers usr)
            st fun st' r => r.2.status = some .fail ∧ st' = st := by
          cases fuel with
          | zero => trivial
          | succ fuel =>
            rw [handleDelete_eq]
            exact reaches_ofOption (validate_looped looped named noSlash) ⟨rfl, rfl⟩
        rw [Dialogue.ofOption, Dialogue.bind, deleteEach, bind_assoc]
        refine reaches_bind (first.mono ?_)
        rintro st' r ⟨failed, rfl⟩
        rw [if_pos (by rw [StorageServiceResp.getStatus, failed]; rfl)]
        exact ⟨failed, rfl⟩

/-- The emptied root folder is stored once more, and after a failure the request fails. -/
theorem reaches_emptied {fuel attempts : Nat} {found : Found} {resp : StorageServiceResp}
    (small : latest ≤ INT_MAX) (enough : INT_MAX < env.fuel) (serves : Serves t latest h)
    (leaf : Leaf t t.root) (steady : Steady usr before latest t h st)
    (parentDir : found.parentDir = some (ptrOf h t.root)) (name : found.relativePath = []) :
    (storeRemoved env fuel attempts "/".toList found t.root h resp).Reaches True (Answers usr) st
      fun st' r => r.2.status = some .fail → Left before latest st' := by
  obtain ⟨user, consistent, settled⟩ := steady
  obtain ⟨top, here⟩ := serves.wf.root
  obtain ⟨h', removed, same, holds⟩ := root_removed serves.exact here leaf
  rw [storeRemoved, parentDir, name]
  refine reaches_ofOption removed (reaches_written serves.wf.toRooted holds
    (same.latestId.trans serves.known) enough ?_)
  intro text reply st' written asked
  rw [same.usr.trans user] at asked
  by_cases finished : reply.status = .finished
  · rw [decide_eq_true finished]
    intro failed
    cases failed
  · have left : Consistent before latest t st' := by
      cases asked with
      | swapped stored =>
        refine consistent.cput serves.wf serves.named (fun id m node => ⟨node, ?_⟩) written
        rw [settled]
        exact List.not_mem_nil
      | notSwapped failed => exact consistent
    obtain ⟨text₀, stored₀, written₀⟩ := left.stored
    obtain ⟨h₁, h₂, p, d, back, usr₁, parsed, looped⟩ :=
      root_readded serves leaf here small enough written₀ removed
    rw [decide_eq_false finished]
    refine reaches_ofOption back (reaches_read (usr₁.trans user) (fun _ _ => ⟨t, left⟩) ?_)
    intro text' r stored parsed'
    cases stored.symm.trans stored₀
    cases parsed.symm.trans parsed'
    obtain ⟨named, letters⟩ := serves.named _ _ here
    refine (reaches_looped looped named fun slash => (letters '/' slash).2 rfl).mono ?_
    rintro st'' r ⟨-, rfl⟩ -
    exact ⟨t, left⟩

/-- A deletion that fails leaves metadata of some tree, and only the files whose keys were removed
lack their content. -/
theorem reaches_left (small : latest ≤ INT_MAX) (enough : INT_MAX < env.fuel)
    (serves : Serves t latest h) (steady : Steady h.usr before latest t h st) (path : Str)
    (resp : StorageServiceResp) :
    (handleDelete env env.fuel (kMaxAttempt + 1) false path h resp).Reaches True (Answers h.usr) st
      fun st' r => r.2.status = some .fail → Left before latest st' := by
  have wf := serves.wf
  have leaf : ∀ attempts, DeletesLeaf True (Answers h.usr) (Steady h.usr before latest)
      (Left before latest) env latest false attempts := deletesLeaf_answers small enough
  obtain ⟨fuel, more⟩ := Nat.exists_eq_succ_of_ne_zero (by omega : env.fuel ≠ 0)
  rcases validate_cases wf serves.exact.toHolds serves.exact.filesEmpty path with
    rfl | ⟨x, b, n, finds⟩ | ⟨parentDir, name, missing⟩ | ⟨parentDir, name, h', null⟩
  · rw [more]
    refine reaches_delete_root enough (leaf 0) (by omega) serves steady ?_ fun st' r _ left _ => left
    intro t₁ h₁ d resp₁ st' cut remains serves₁ childless ident kind steady₁
    rw [deleteEmptied, kind, ident, ← cut.root]
    rw [← cut.root] at childless
    refine reaches_emptied small enough serves₁ childless steady₁ ?_ rfl
    obtain ⟨top, here⟩ := serves₁.wf.root
    exact congrArg some (remains.pointers _ _ here).symm
  · obtain ⟨k, depth⟩ := wf.rooted finds.here
    refine (reaches_delete_below enough (leaf 0) (leaf _) serves depth (.inr (by omega)) finds
      steady).mono ?_
    rintro st' r (⟨success, -⟩ | ⟨-, left⟩) failed
    · cases success.symm.trans failed
    · exact left
  · rw [more, handleDelete_eq]
    exact reaches_ofOption missing fun _ => ⟨t, steady.2.1⟩
  · rw [more, handleDelete_eq]
    exact reaches_ofOption null trivial

end Root

/-- A deletion that fails keeps the content of the files that are listed if and only if whenever it
removed content, metadata were stored later. -/
theorem failed_delete_keeps_iff {t : Tree} {h : Handler} {env : Env} {latest : Nat} {path : Str}
    {resp : StorageServiceResp} {before after : Store} {calls : List Exchange}
    {r : Handler × StorageServiceResp} (serves : Serves t latest h) (small : latest ≤ INT_MAX)
    (enough : INT_MAX < env.fuel) {text : Str} (stored : before.value kMetadataFp = some text)
    (written : WrittenFor t latest text) (settled : before.removed = [])
    (spoken : Conversation (handleDelete env env.fuel (kMaxAttempt + 1) false path h resp) calls r)
    (failed : r.2.status = some .fail) (course : Course (Answers h.usr) before calls after) :
    KeepsContents env before after ↔ after.removed = [] := by
  have consistent : Consistent before latest t before := by
    refine ⟨serves.wf, serves.named, ⟨text, stored, written⟩, fun _ _ _ _ _ => rfl, ?_⟩
    rw [settled]
    exact List.forall_mem_nil _
  have left := (reaches_left small enough serves ⟨rfl, consistent, settled⟩ path resp).conversation
    spoken course
  obtain ⟨s, consistent'⟩ := left failed
  exact consistent'.keeps_iff small enough

theorem leaf_of_file {t : Tree} {x : Nat} {n : Node} (wf : t.WellFormed) (here : t.node x = some n)
    (file : n.isFile = true) : Leaf t x := by
  intro c m child up
  obtain ⟨o, above, directory⟩ := wf.directory child up
  cases here.symm.trans above
  rw [file] at directory
  cases directory

/-- The deletion of a file asks for its content to be removed first. -/
theorem conversation_file {t : Tree} {h : Handler} {env : Env} {latest fuel attempts x b : Nat}
    {n : Node} {path : Str} {resp : StorageServiceResp} (serves : Serves t latest h)
    (finds : t.Finds path x b n) (file : n.isFile = true) {reply : KvReply} {rest : List Exchange}
    {r : Handler × StorageServiceResp}
    (later : Conversation (if !decide (reply.status = .finished) && !false then
        .done (h, resp.fail ("Failed to delete file ".toList ++ (path ++
          (" to KV with fd ".toList ++ showInt h.backendFd))))
      else storeRemoved env fuel attempts path
        ⟨true, some (ptrOf h b), some (ptrOf h x), n.name, h⟩ x h resp) rest r) :
    Conversation (handleDelete env (fuel + 1) (attempts + 1) false path h resp)
      ((.dele h.usr (toDecimal x), reply) :: rest) r := by
  obtain ⟨d, object, shows⟩ := serves.exact.laid x n finds.here
  have leaf := leaf_of_file serves.wf finds.here file
  rw [handleDelete_eq, validate_finds serves.wf serves.exact.toHolds serves.exact.filesEmpty finds]
  simp only [Dialogue.ofOption, Dialogue.bind, Bool.not_true, Bool.false_eq_true, if_false,
    Handler.deref, Option.bind_some, object, emptyFirst_leaf leaf shows, deleteEmptied, shows.isFile,
    file, if_true, shows.ident, Dialogue.question]
  exact .ask later

/-- The store cannot be reached any more once the content is removed. -/
theorem conversation_unreachable {t : Tree} {h : Handler} {env : Env} {latest fuel attempts x b : Nat}
    {n : Node} {path : Str} {resp : StorageServiceResp} (serves : Serves t latest h)
    (enough : INT_MAX < env.fuel) (finds : t.Finds path x b n) (file : n.isFile = true) :
    ∃ text r, Conversation (handleDelete env (fuel + 1) (attempts + 1) false path h resp)
      [(.dele h.usr (toDecimal x), ⟨.finished, []⟩),
        (.cput h.usr kMetadataFp h.metadataStr text, ⟨.linkError, []⟩),
        (.gets h.usr kMetadataFp, ⟨.linkError, []⟩)] r ∧ r.2.status = some .fail := by
  have wf := serves.wf
  have leaf := leaf_of_file wf finds.here file
  obtain ⟨h', removed, same, holds, -⟩ :=
    leaf_removed wf serves.exact serves.tidy finds.here finds.parent leaf
  obtain ⟨h'', back, whole⟩ := leaf_readded serves finds.here finds.parent removed
  obtain ⟨text, printed, -⟩ := written_of_holds (wf.without (wf.ne_root finds.here finds.parent)).toRooted
    holds (same.latestId.trans serves.known) enough
  refine ⟨text, (h'', StorageServiceResp.cleared.fail ?message),
    conversation_file serves finds file ?_, rfl⟩
  rotate_left
  simp only [decide_true, Bool.not_true, Bool.false_and, Bool.false_eq_true, if_false, storeRemoved,
    removed, Dialogue.ofOption, Dialogue.bind, writeMetadataToKv, printed, Dialogue.question]
  rw [same.usr, same.metadataStr]
  refine .ask ?_
  simp only [reduceCtorEq, decide_false, Bool.false_eq_true, if_false, back, Dialogue.bind,
    readMetadata, Dialogue.question, whole.usr]
  refine .ask ?_
  simp only [ne_eq, reduceCtorEq, not_false_eq_true, if_true, Dialogue.bind, Bool.false_eq_true,
    if_false]
  exact .done _

/-- The tree of bob is stored, with some content for his file. -/
theorem bob_stored : ∃ h text, ∃ before : Store, Serves bobsTree 3 h ∧ WrittenFor bobsTree 3 text ∧
    before.value kMetadataFp = some text ∧ before.value (toDecimal 3) = some ['x'] ∧
    before.removed = [] := by
  have enough : INT_MAX < deepEnv.fuel := Nat.lt_succ_self _
  obtain ⟨h, exact, tidy, known⟩ := StorageCreate.bob_parsed
  obtain ⟨text, -, written⟩ :=
    written_of_holds wellFormed_bobsTree.toRooted exact.toHolds known enough
  obtain ⟨value, metadata, content⟩ : ∃ value : Str → Option Str,
      value kMetadataFp = some text ∧ value (toDecimal 3) = some ['x'] :=
    ⟨fun key => if key = kMetadataFp then some text else some ['x'], if_pos rfl,
      if_neg (metadata_ne_decimal 3)⟩
  exact ⟨h, text, ⟨value, []⟩, ⟨wellFormed_bobsTree, named_bobsTree, exact, tidy, known⟩, written,
    metadata, content, rfl⟩

theorem finds_file : ∃ b n, bobsTree.Finds "/d/f".toList 3 b n ∧ n.isFile = true := by
  obtain ⟨b, n, finds⟩ := finds_of_entryAt entryAt_file (by decide : (3 : Nat) ≠ 1)
  cases node_file.symm.trans finds.here
  exact ⟨b, _, finds, rfl⟩

/-- The file of bob stays where the store refuses to remove its content. -/
theorem failed_delete_keeps_refused : ∃ h calls r before after, Serves bobsTree 3 h ∧
    Conversation (handleDelete deepEnv deepEnv.fuel (kMaxAttempt + 1) false "/d/f".toList h .cleared)
      calls r ∧ r.2.status = some .fail ∧ Course (Answers h.usr) before calls after ∧
    (KeepsContents deepEnv before after ↔ after.removed = []) := by
  obtain ⟨h, text, before, serves, written, stored, had, settled⟩ := bob_stored
  obtain ⟨b, n, finds, file⟩ := finds_file
  obtain ⟨r, spoken, failed⟩ : ∃ r, Conversation (handleDelete deepEnv deepEnv.fuel (kMaxAttempt + 1)
      false "/d/f".toList h .cleared) [(.dele h.usr (toDecimal 3), ⟨.keyError, []⟩)] r ∧
        r.2.status = some .fail := ⟨_, conversation_file serves finds file (.done _), rfl⟩
  have course : Course (Answers h.usr) before [(.dele h.usr (toDecimal 3), ⟨.keyError, []⟩)] before :=
    .ask (.notRemoved nofun) (.done before)
  exact ⟨h, _, r, before, before, serves, spoken, failed, course, failed_delete_keeps_iff serves
    (by decide) (Nat.lt_succ_self _) stored written settled spoken failed course⟩

/-- The content of the file of bob is removed, and then the store cannot be reached any more. -/
theorem not_failed_delete_keeps : ∃ h text, ∃ before : Store, ∃ calls r after, Serves bobsTree 3 h ∧
    WrittenFor bobsTree 3 text ∧ before.value kMetadataFp = some text ∧
    Conversation (handleDelete deepEnv deepEnv.fuel (kMaxAttempt + 1) false "/d/f".toList h .cleared)
      calls r ∧ r.2.status = some .fail ∧ Course (Answers h.usr) before calls after ∧
    ¬ KeepsContents deepEnv before after := by
  have enough : INT_MAX < deepEnv.fuel := Nat.lt_succ_self _
  obtain ⟨h, text, before, serves, written, stored, had, -⟩ := bob_stored
  obtain ⟨b, n, finds, file⟩ := finds_file
  obtain ⟨text', r, spoken, failed⟩ := conversation_unreachable serves enough finds file
  refine ⟨h, text, before, _, r, _, serves, written, stored, spoken, failed,
    .ask .removed (.ask (.notSwapped nofun) (.ask (.notGot nofun) (.done _))), fun keeps => ?_⟩
  have said : Says bobsTree 3 text :=
    says_of_written serves.wf serves.named.spelled (by decide) written
  have listed : Function.update before.value (toDecimal 3) none kMetadataFp = some text := by
    rw [Function.update_of_ne (metadata_ne_decimal 3).symm, stored]
  have gone : Function.update before.value (toDecimal 3) none (toDecimal 3) = none :=
    Function.update_self ..
  have same := keeps text 3 listed ((listsFile_iff said enough).mpr ⟨n, finds.here, file⟩)
    (by rw [had]; rfl)
  cases gone.symm.trans (same.trans had)

end StorageFailure
