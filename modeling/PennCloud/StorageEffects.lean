import PennCloud.FreshIds
import PennCloud.StorageReload
import PennCloud.TreeEntries

/-!
# What a request makes of a tree

A creation, a rename, a move or a deletion takes the tree that a handler has to another
one, which depends on the request and the tree alone. A handler that gives its metadata
to the store gives the metadata of that tree, and has a tree that can be reloaded where
it takes the change back.
-/

namespace StorageEffects

open Text KvInterface UnorderedMap StorageMetadata StorageHandler StorageCommit Dialogue
  StorageTree MetadataText MetadataPrinting MetadataParsing HandlerText HandlerObjects
  MetadataMerging StorageCreate StorageDelete StorageMove StorageRename StorageReload
open SharedMetadata (creates creationPath validFilename pathChar_of_validChar)

/-! An entry under a name in another place -/

section Linked
variable {t t' : Tree} {id p q : Nat} {n o : Node} {name : Str}

/-- The tree that can be reached when an entry is linked under a name in another place: the entry is
there, in place of another one of the name, or is gone where the place is a file or below it. -/
inductive Linked (t : Tree) (id q : Nat) (name : Str) : Tree → Prop where
  | placed {o : Node} (above : t.node q = some o) (directory : o.isFile = false)
      (apart : ¬ t.Under id q)
      (free : ∀ c k, t.node c = some k → k.parent = some q → k.name = name → c = id) :
      Linked t id q name (t.place id q name)
  | replaced {o k : Node} {c : Nat} (above : t.node q = some o) (directory : o.isFile = false)
      (apart : ¬ t.Under id q) (there : t.node c = some k) (up : k.parent = some q)
      (spelled : k.name = name) (other : c ≠ id) :
      Linked t id q name ((t.place id q name).without c)
  | lost {o : Node} (above : t.node q = some o) (gone : o.isFile = true ∨ t.Under id q) :
      Linked t id q name (t.without id)

theorem exists_linked (id : Nat) (above : t.node q = some o) (name : Str) :
    ∃ t', Linked t id q name t' := by
  by_cases gone : o.isFile = true ∨ t.Under id q
  · exact ⟨_, .lost above gone⟩
  · obtain ⟨directory, apart⟩ := not_or.mp gone
    have directory := eq_false_of_ne_true directory
    by_cases clash : ∃ c k, t.node c = some k ∧ k.parent = some q ∧ k.name = name ∧ c ≠ id
    · obtain ⟨c, k, there, up, spelled, other⟩ := clash
      exact ⟨_, .replaced above directory apart there up spelled other⟩
    · refine ⟨_, .placed above directory apart fun c k there up spelled => ?_⟩
      by_contra other
      exact clash ⟨c, k, there, up, spelled, other⟩

theorem named_placed (named : Named t) {id q : Nat} {name : Str}
    (fits : name ≠ [] ∧ ∀ c ∈ name, pathChar c = true ∧ c ≠ '/') : Named (t.place id q name) := by
  intro c m node
  obtain ⟨k, before, rfl⟩ := node_place node
  split
  · exact fits
  · exact named c k before

theorem Linked.root (linked : Linked t id q name t') : t'.root = t.root := by
  cases linked <;> rfl

theorem Linked.named (linked : Linked t id q name t') (named : Named t)
    (fits : name ≠ [] ∧ ∀ c ∈ name, pathChar c = true ∧ c ≠ '/') : Named t' := by
  cases linked with
  | placed => exact named_placed named fits
  | replaced => exact named_without (named_placed named fits) _
  | lost => exact named_without named id

theorem Linked.wellFormed (linked : Linked t id q name t') (wf : t.WellFormed)
    (below : id ≠ t.root) : t'.WellFormed := by
  cases linked with
  | placed above directory apart free => exact wf.place below above directory apart free
  | replaced above directory apart there up spelled _ =>
    exact wf.place_without below above directory apart there up spelled
  | lost => exact wf.without below

/-- The entries are old ones, but for the one that is linked. -/
theorem Linked.node (linked : Linked t id q name t') {x : Nat} {m : Node}
    (here : t'.node x = some m) :
    ∃ k, t.node x = some k ∧ m = if x = id then ⟨name, k.isFile, some q⟩ else k := by
  cases linked with
  | placed => exact node_place here
  | replaced => exact node_place (node_without.mp here).2
  | lost =>
    obtain ⟨apart, before⟩ := node_without.mp here
    refine ⟨m, before, ?_⟩
    rw [if_neg]
    rintro rfl
    exact apart .self

/-- The root folder stays as it is. -/
theorem Linked.top (linked : Linked t id q name t') (wf : t.WellFormed) (below : id ≠ t.root) :
    t'.node t'.root = t.node t.root := by
  obtain ⟨_, here⟩ := (linked.wellFormed wf below).root
  rw [linked.root] at here ⊢
  obtain ⟨k, before, same⟩ := linked.node here
  rw [if_neg below.symm] at same
  rw [here, same, before]

theorem Linked.links (linked : Linked t id q name t') (wf : t.WellFormed)
    (here : t.node id = some n) (parent : n.parent = some p) :
    Links t t' id p q n.name name := by
  cases linked with
  | placed above directory apart free => exact links_place wf here parent rfl free
  | replaced above directory apart there up spelled other =>
    exact links_place_without wf here parent rfl there up spelled other
  | lost above gone =>
    refine links_without wf here parent rfl fun o' above' directory => ?_
    cases above.symm.trans above'
    refine gone.resolve_left ?_
    rw [directory]
    exact Bool.false_ne_true

/-- The handler whose object was linked holds the tree. -/
theorem Linked.holds (linked : Linked t id q name t') (wf : t.WellFormed) {h h' : Handler}
    {ptr : Nat → Ptr} (holds : Holds t h ptr) (here : t.node id = some n)
    (parent : n.parent = some p) (relinked : Relinked t ptr id p q n.name name h h') :
    Holds t' h' ptr := by
  refine ⟨relinked.root.trans (holds.root.trans (by rw [linked.root])), ?_⟩
  exact laid_of_relinked holds.laid relinked linked.root (fun x m node => linked.node node)
    (linked.links wf here parent)

end Linked

/-! The change of a request -/

/-- The requests that change a tree, with new names of the alphabet of the metadata, without
slashes. -/
def Ordinary : StorageServiceReq → Prop
  | ⟨.fileUpload, .fileUploadReq path _⟩ | ⟨.dirCreate, .dirCreateOrQueryReq path⟩ =>
    validFilename (lastName path) = true
  | ⟨.fileRename, .renameReq _ newName⟩ | ⟨.dirRename, .renameReq _ newName⟩ =>
    newName ≠ [] ∧ ∀ c ∈ newName, pathChar c = true ∧ c ≠ '/'
  | ⟨.fileMove, .moveReq _ _⟩ | ⟨.dirMove, .moveReq _ _⟩ | ⟨.fileDele, .deleteReq _⟩
  | ⟨.dirDele, .deleteReq _⟩ => True
  | _ => False

/-- The paths at which the request changes something. -/
def sites (req : StorageServiceReq) : List (List Str) :=
  match req.request with
  | .fileUploadReq path _ | .dirCreateOrQueryReq path | .deleteReq path => [components path]
  | .renameReq path newName => [components path, (components path).dropLast ++ [newName]]
  | .moveReq path newDir => [components path, components newDir ++ [lastName path]]
  | _ => []

/-- The directory that is found at a path. -/
def Target (t : Tree) (newDir : Str) (q : Nat) : Prop :=
  newDir = "/".toList ∧ q = t.root ∨ ∃ b m, t.Finds newDir q b m

/-- A request takes a tree with its last id to another one. -/
inductive Takes : StorageServiceReq → Tree → Nat → Tree → Nat → Prop where
  | made {req : StorageServiceReq} {t : Tree} {latest b : Nat} {o : Node}
      (makes : creates req = true) (named : ¬ Trailing (creationPath req))
      (leads : t.Leads t.root (way [] (creationPath req)).1 b) (above : t.node b = some o)
      (directory : o.isFile = false)
      (free : ¬ ∃ id, t.Leads t.root (components (creationPath req)) id) (next : latest < INT_MAX) :
      Takes req t latest (withEntry t (latest + 1) b (way [] (creationPath req)).2
        (decide (req.type = .fileUpload))) (latest + 1)
  -- an entry of a file is not printed
  | vanished {req : StorageServiceReq} {t : Tree} {latest b : Nat} {o : Node}
      (makes : creates req = true) (named : ¬ Trailing (creationPath req))
      (leads : t.Leads t.root (way [] (creationPath req)).1 b) (above : t.node b = some o)
      (file : o.isFile = true) (next : latest < INT_MAX) : Takes req t latest t (latest + 1)
  | renamed {type : StorageServiceType} {path newName : Str} {t t' : Tree} {latest id p : Nat}
      {n : Node} (kind : type = .fileRename ∨ type = .dirRename) (finds : t.Finds path id p n)
      (linked : Linked t id p newName t') :
      Takes ⟨type, .renameReq path newName⟩ t latest t' latest
  | moved {type : StorageServiceType} {path newDir : Str} {t t' : Tree} {latest id p q : Nat}
      {n : Node} (kind : type = .fileMove ∨ type = .dirMove) (finds : t.Finds path id p n)
      (target : Target t newDir q) (linked : Linked t id q n.name t') :
      Takes ⟨type, .moveReq path newDir⟩ t latest t' latest
  | deleted {type : StorageServiceType} {path : Str} {t : Tree} {latest id p : Nat} {n : Node}
      (kind : type = .fileDele ∨ type = .dirDele) (finds : t.Finds path id p n) :
      Takes ⟨type, .deleteReq path⟩ t latest (t.without id) latest

/-! What a lookup found -/

section Lookup
variable {t : Tree} {h : Handler} {ptr : Nat → Ptr} {path : Str} {found : Found}

theorem finds_of_leads (wf : t.WellFormed) (named : ¬ Trailing path) {id : Nat}
    (leads : t.Leads t.root (components path) id) : ∃ p n, t.Finds path id p n := by
  refine finds_of_entryAt (entryAt_of_named named leads) ?_
  rintro rfl
  rw [components_of_named named] at leads
  obtain ⟨b, -, final⟩ := leads.of_append
  obtain ⟨n, here, parent, -⟩ := final.last
  exact wf.ne_root here parent rfl

/-- The entry that was found at a path. After a slash at the end of the path that is an entry of the
directory that has its name, or nothing. -/
theorem finds_of_found (wf : t.WellFormed) (holds : Holds t h ptr) (files : FilesEmpty t h ptr)
    (notRoot : path ≠ "/".toList) (looked : h.validatePathAndGetDir path = some found)
    (valid : found.valid = true) (there : found.dir ≠ none) : ∃ id p n, t.Finds path id p n ∧
      found = ⟨true, some (ptr p), some (ptr id), n.name, h⟩ := by
  have known : ∃ id p n, t.Finds path id p n := by
    by_cases known : ∃ id, t.Leads t.root (components path) id
    · obtain ⟨id, leads⟩ := known
      by_cases trailing : Trailing path
      · obtain ⟨dir, h', looked', none | ⟨c, n, here, parent, named, -⟩⟩ :=
          validate_trailing wf holds files trailing notRoot leads
        · cases looked.symm.trans looked'
          exact absurd none there
        · rw [components_of_trailing trailing] at leads
          refine ⟨c, id, n, notRoot, leads, here, parent, ?_⟩
          rw [lastAsked, if_pos ((way_eq_nil path).mpr trailing), named]
      · obtain ⟨p, n, finds⟩ := finds_of_leads wf trailing leads
        exact ⟨id, p, n, finds⟩
    · obtain ⟨parentDir, name, missing, -⟩ := validate_missing wf holds files known
      cases looked.symm.trans missing
      cases valid
  obtain ⟨id, p, n, finds⟩ := known
  cases looked.symm.trans (validate_finds wf holds files finds)
  exact ⟨id, p, n, finds, rfl⟩

theorem target_of_found (wf : t.WellFormed) (holds : Holds t h ptr) (files : FilesEmpty t h ptr)
    (looked : h.validatePathAndGetDir path = some found) (valid : found.valid = true)
    (there : found.dir ≠ none) :
    ∃ id, Target t path id ∧ found.dir = some (ptr id) ∧ found.handler = h := by
  by_cases root : path = "/".toList
  · subst root
    rw [Handler.validatePathAndGetDir, if_pos rfl, holds.root] at looked
    cases looked
    exact ⟨t.root, .inl ⟨rfl, rfl⟩, rfl, rfl⟩
  · obtain ⟨id, p, n, finds, rfl⟩ := finds_of_found wf holds files root looked valid there
    exact ⟨id, .inr ⟨p, n, finds⟩, rfl, rfl⟩

theorem validate_target (wf : t.WellFormed) (holds : Holds t h ptr) (files : FilesEmpty t h ptr)
    {id : Nat} (target : Target t path id) : ∃ parentDir name,
      h.validatePathAndGetDir path = some ⟨true, parentDir, some (ptr id), name, h⟩ := by
  rcases target with ⟨rfl, rfl⟩ | ⟨b, m, finds⟩
  · rw [Handler.validatePathAndGetDir, if_pos rfl, holds.root]
    exact ⟨_, _, rfl⟩
  · exact ⟨_, _, validate_finds wf holds files finds⟩

theorem finds_unique (wf : t.WellFormed) {x x' b b' : Nat} {n n' : Node}
    (finds : t.Finds path x b n) (finds' : t.Finds path x' b' n') : x' = x := by
  obtain rfl := finds.leads.unique wf finds'.leads
  exact wf.distinct finds'.here finds.here (finds'.parent.trans finds.parent.symm)
    (finds'.named.trans finds.named.symm)

/-- A new entry is made in the directory before its name. -/
theorem parent_of_new (wf : t.WellFormed) (holds : Holds t h ptr) (files : FilesEmpty t h ptr)
    (looked : h.validatePathAndGetDir path = some found) (new : found.valid = false)
    (inside : found.parentDir.isNone = false) : ∃ b o, ¬ Trailing path ∧
      t.Leads t.root (way [] path).1 b ∧ t.node b = some o ∧
      (¬ ∃ id, t.Leads t.root (components path) id) ∧
      found = ⟨false, some (ptr b), none, (way [] path).2, h⟩ := by
  have missing : ¬ ∃ id, t.Leads t.root (components path) id := by
    rintro ⟨id, leads⟩
    by_cases trailing : Trailing path
    · by_cases root : path = "/".toList
      · subst root
        rw [Handler.validatePathAndGetDir, if_pos rfl] at looked
        cases looked
        cases new
      · obtain ⟨dir, h', looked', -⟩ := validate_trailing wf holds files trailing root leads
        cases looked.symm.trans looked'
        cases new
    · obtain ⟨p, n, finds⟩ := finds_of_leads wf trailing leads
      cases looked.symm.trans (validate_finds wf holds files finds)
      cases new
  obtain ⟨parentDir, name, looked', reached, lost⟩ := validate_missing wf holds files missing
  cases looked.symm.trans looked'
  by_cases parent : ∃ b, t.Leads t.root (way [] path).1 b
  · obtain ⟨b, leads⟩ := parent
    have named : ¬ Trailing path := by
      intro trailing
      rw [components_of_trailing trailing] at missing
      exact missing ⟨b, leads⟩
    obtain ⟨top, here⟩ := wf.root
    obtain ⟨o, above⟩ := leads.node here
    obtain ⟨rfl, rfl⟩ := reached named b leads
    exact ⟨b, o, named, leads, above, missing, rfl⟩
  · rw [lost parent] at inside
    cases inside

theorem Target.node {q : Nat} (target : Target t path q) (wf : t.WellFormed) :
    ∃ o, t.node q = some o := by
  rcases target with ⟨-, rfl⟩ | ⟨b, m, finds⟩
  · obtain ⟨name, root⟩ := wf.root
    exact ⟨_, root⟩
  · exact ⟨m, finds.here⟩

/-- The name of a path at which nothing is, is free in the directory before it. -/
theorem free_of_missing {b : Nat} (named : ¬ Trailing path)
    (leads : t.Leads t.root (way [] path).1 b)
    (missing : ¬ ∃ id, t.Leads t.root (components path) id) :
    ∀ c n, t.node c = some n → n.parent = some b → n.name ≠ (way [] path).2 := by
  intro c n child parent same
  refine missing ⟨c, ?_⟩
  rw [components_of_named named, ← same]
  exact leads.append (.step child parent (.here c))

end Lookup

/-! One attempt -/

/-- The handler has the tree of the text that it has read. -/
structure HasRead (t : Tree) (latest : Nat) (h : Handler) : Prop where
  serves : Serves t latest h
  metadata : MetadataOf t latest h.metadataStr

/-- The handler has the tree to print. -/
structure Prints (t : Tree) (latest : Nat) (h : Handler) : Prop where
  wf : t.WellFormed
  named : Named t
  used : ∀ {id n}, t.node id = some n → id ≤ latest
  small : latest ≤ INT_MAX
  holds : ∃ ptr, Holds t h ptr
  known : h.latestId = some latest

section Attempt
variable {t t' : Tree} {h h' : Handler} {env : Env} {latest : Nat} {text : Str}
  {req : StorageServiceReq}

theorem Prints.metadata (prints : Prints t latest h) (enough : INT_MAX < env.fuel)
    (printed : h.getMetadataStr env = some text) : MetadataOf t latest text := by
  obtain ⟨ptr, holds⟩ := prints.holds
  obtain ⟨text', printed', written⟩ :=
    written_of_holds prints.wf.toRooted holds prints.known enough
  cases printed.symm.trans printed'
  exact ⟨prints.wf, prints.named, prints.used, prints.small, written⟩

theorem HasRead.unused (read : HasRead t latest h) : t.node (latest + 1) = none := by
  cases here : t.node (latest + 1) with
  | none => rfl
  | some n => exact absurd (read.metadata.used here) (by omega)

theorem named_withEntry (named : Named t) {name : Str}
    (fits : name ≠ [] ∧ ∀ c ∈ name, pathChar c = true ∧ c ≠ '/') {id : Nat} (q : Nat)
    (isFile : Bool) : Named (withEntry t id q name isFile) := by
  intro c n here
  rcases node_withEntry here with ⟨-, rfl⟩ | ⟨-, here⟩
  · exact fits
  · exact named c n here

theorem kind_of_creates (makes : creates req = true) :
    req.type = .fileUpload ∨ req.type = .dirCreate := by
  rw [creates] at makes
  split at makes
  · rename_i upload _
    exact .inl upload
  · rename_i create _
    exact .inr create
  · cases makes

/-- The name of a new entry is one of the metadata. -/
theorem new_name_fits {path : Str} (named : ¬ Trailing path)
    (valid : validFilename (lastName path) = true) : (way [] path).2 ≠ [] ∧
      ∀ c ∈ (way [] path).2, pathChar c = true ∧ c ≠ '/' := by
  refine ⟨fun empty => named ((way_eq_nil _).mp empty), fun c mem => ⟨?_, ?_⟩⟩
  · rw [lastName_way [] _ List.not_mem_nil] at mem
    exact pathChar_of_validChar (List.all_eq_true.mp valid c mem)
  · rintro rfl
    exact (way_plain [] path List.not_mem_nil).2 mem

/-- A handler with the tree makes the new entry, and can print the tree with it. -/
theorem prints_created (read : HasRead t latest h) {b : Nat} {o : Node} {name : Str}
    (above : t.node b = some o)
    (free : ∀ c n, t.node c = some n → n.parent = some b → n.name ≠ name)
    (fits : name ≠ [] ∧ ∀ c ∈ name, pathChar c = true ∧ c ≠ '/') (next : latest < INT_MAX)
    (isFile : Bool) :
    ∃ h', createEntry h (some (ptrOf h b)) name (latest + 1) isFile = some h' ∧
      Prints (if o.isFile then t else withEntry t (latest + 1) b name isFile) (latest + 1) h' := by
  obtain ⟨wf, named, exact, tidy, known⟩ := read.serves
  have unused := read.unused
  cases kind : o.isFile with
  | false =>
    obtain ⟨h', made, holds, last⟩ :=
      created_in_directory wf exact tidy unused next above kind free isFile
    refine ⟨h', made, wellFormed_withEntry wf unused next above kind free isFile,
      named_withEntry named fits b isFile, fun here => ?_, next, ⟨_, holds⟩, by rw [last, known]; rfl⟩
    rcases node_withEntry here with ⟨rfl, -⟩ | ⟨-, here⟩
    · exact le_rfl
    · exact Nat.le_succ_of_le (read.metadata.used here)
  | true =>
    obtain ⟨h', made, holds, last⟩ :=
      created_in_file exact tidy unused next above kind name isFile
    exact ⟨h', made, wf, named, fun here => Nat.le_succ_of_le (read.metadata.used here), next,
      ⟨_, holds⟩, by rw [last, known]; rfl⟩

/-- A handler with the tree has the tree to print in which an object was linked. -/
theorem prints_linked (read : HasRead t latest h) {id p q : Nat} {n : Node} {name : Str}
    (here : t.node id = some n) (parent : n.parent = some p)
    (fits : name ≠ [] ∧ ∀ c ∈ name, pathChar c = true ∧ c ≠ '/') (same : SameBut h h')
    (relinked : Relinked t (ptrOf h) id p q n.name name h h') (linked : Linked t id q name t') :
    Prints t' latest h' := by
  have wf := read.serves.wf
  refine ⟨linked.wellFormed wf (wf.ne_root here parent), linked.named read.serves.named fits,
    fun node => ?_, read.metadata.small,
    ⟨_, linked.holds wf read.serves.exact.toHolds here parent relinked⟩,
    same.latestId.trans read.serves.known⟩
  obtain ⟨k, before, -⟩ := linked.node node
  exact read.metadata.used before

/-- What the handler has where the change is taken back. -/
def TakenBack (t : Tree) (h : Handler) (back : Option Handler) : Prop :=
  ∃ restored, back = some restored ∧ Restored t restored ∧ SameText h restored

/-- The handler has the tree with the change of the request to print, and the old one where the
change is taken back. -/
structure Took (req : StorageServiceReq) (t : Tree) (latest : Nat) (h h' : Handler)
    (back : Option Handler) : Prop where
  same : SameText h h'
  takenBack : TakenBack t h back
  takes : ∃ t' latest', Takes req t latest t' latest' ∧ Prints t' latest' h'

/-- An entry is made, or vanishes in a file. -/
theorem took_creation {found : Found} {latestId : Nat} (read : HasRead t latest h)
    (makes : creates req = true) (valid : validFilename (lastName (creationPath req)) = true)
    (looked : h.validatePathAndGetDir (creationPath req) = some found) (new : found.valid = false)
    (last : found.handler.latestId = some latestId) (made : createEntry found.handler
      found.parentDir found.relativePath (latestId + 1) (decide (req.type = .fileUpload)) = some h') :
    Took req t latest h h' (revertCreate h' found.parentDir found.relativePath (latestId + 1)) := by
  obtain ⟨wf, named, exact, tidy, known⟩ := read.serves
  obtain ⟨b, o, untrailed, leads, above, missing, rfl⟩ := parent_of_new wf exact.toHolds
    exact.filesEmpty looked new (createEntry_parent made).1
  cases known.symm.trans last
  have next : latest < INT_MAX := by
    by_contra large
    rw [createEntry, if_pos (by omega)] at made
    cases made
  have free := free_of_missing untrailed leads missing
  obtain ⟨h₁, made₁, prints⟩ : ∃ h', createEntry h (some (ptrOf h b)) (way [] (creationPath req)).2
      (latest + 1) (decide (req.type = .fileUpload)) = some h' ∧ _ :=
    prints_created read above free (new_name_fits untrailed valid) next _
  cases made.symm.trans made₁
  refine ⟨sameText_createEntry made, restored_create wf exact tidy read.unused above made, _, _, ?_,
    prints⟩
  cases kind : o.isFile with
  | false => exact .made makes untrailed leads above kind missing next
  | true => exact .vanished makes untrailed leads above kind next

/-- Null is not renamed. -/
theorem renameEntry_dir {parentDir dir : Option Ptr} {name newName : Str}
    (renamed : renameEntry env h parentDir dir name newName = some h') : dir ≠ none := by
  rintro rfl
  obtain ⟨_, -, renamed⟩ := Option.bind_eq_some_iff.mp renamed
  obtain ⟨_, updated, -⟩ := Option.bind_eq_some_iff.mp renamed
  cases updated

theorem moveEntry_dirs {parentDir dir newDir : Option Ptr} {name : Str}
    (moved : moveEntry env h parentDir dir newDir name = some h') : dir ≠ none ∧ newDir ≠ none := by
  obtain ⟨_, -, moved⟩ := Option.bind_eq_some_iff.mp moved
  obtain ⟨_, updated, moved⟩ := Option.bind_eq_some_iff.mp moved
  obtain ⟨_, -, added⟩ := Option.bind_eq_some_iff.mp moved
  constructor
  · rintro rfl
    cases updated
  · rintro rfl
    cases added

/-- An entry has another name in its directory. -/
theorem took_rename {type : StorageServiceType} {path newName : Str} {found : Found}
    (read : HasRead t latest h) (enough : INT_MAX < env.fuel)
    (kind : type = .fileRename ∨ type = .dirRename) (notRoot : path ≠ "/".toList)
    (fits : newName ≠ [] ∧ ∀ c ∈ newName, pathChar c = true ∧ c ≠ '/')
    (looked : h.validatePathAndGetDir path = some found) (valid : found.valid = true)
    (renamed : renameEntry env found.handler found.parentDir found.dir found.relativePath newName =
      some h') : Took ⟨type, .renameReq path newName⟩ t latest h h'
        (revertRename h' found.parentDir found.dir found.relativePath newName) := by
  obtain ⟨wf, named, exact, tidy, known⟩ := read.serves
  obtain ⟨id, p, n, finds, rfl⟩ := finds_of_found wf exact.toHolds exact.filesEmpty notRoot looked
    valid (renameEntry_dir renamed)
  obtain ⟨o, above, -⟩ := wf.directory finds.here finds.parent
  obtain ⟨h₁, renamed₁, same, relinked⟩ := relinked_of_rename wf.toRooted exact.laid enough
    finds.here finds.parent above newName
  cases renamed.symm.trans renamed₁
  obtain ⟨t', linked⟩ := exists_linked id above newName
  exact ⟨⟨same.usr, same.metadataStr⟩,
    restored_rename wf exact tidy enough finds.here finds.parent renamed, t', latest,
    .renamed kind finds linked,
    prints_linked read finds.here finds.parent fits same relinked linked⟩

/-- An entry has its name in another directory. -/
theorem took_move {type : StorageServiceType} {path newDir : Str} {old new : Found}
    (read : HasRead t latest h) (enough : INT_MAX < env.fuel)
    (kind : type = .fileMove ∨ type = .dirMove) (notRoot : path ≠ "/".toList)
    (looked : h.validatePathAndGetDir path = some old)
    (valid : old.valid = true) (located : old.handler.validatePathAndGetDir newDir = some new)
    (valid' : new.valid = true)
    (moved : moveEntry env new.handler old.parentDir old.dir new.dir old.relativePath = some h') :
    Took ⟨type, .moveReq path newDir⟩ t latest h h'
      (revertMove h' old.parentDir old.dir new.dir old.relativePath) := by
  obtain ⟨wf, named, exact, tidy, known⟩ := read.serves
  obtain ⟨fromThere, toThere⟩ := moveEntry_dirs moved
  obtain ⟨id, p, n, finds, rfl⟩ :=
    finds_of_found wf exact.toHolds exact.filesEmpty notRoot looked valid fromThere
  obtain ⟨q, target, dir, handler⟩ :=
    target_of_found wf exact.toHolds exact.filesEmpty located valid' toThere
  rw [dir, handler] at moved
  rw [dir]
  obtain ⟨m, before, -⟩ := wf.directory finds.here finds.parent
  obtain ⟨o, above⟩ := target.node wf
  obtain ⟨h₁, moved₁, same, relinked⟩ :=
    relinked_of_move wf.toRooted exact.laid enough finds.here before above
  cases moved.symm.trans moved₁
  obtain ⟨t', linked⟩ := exists_linked id above n.name
  exact ⟨⟨same.usr, same.metadataStr⟩,
    restored_move wf exact tidy enough finds.here finds.parent above moved, t', latest,
    .moved kind finds target linked,
    prints_linked read finds.here finds.parent (named id n finds.here) same relinked linked⟩

/-- The root folder itself is not changed. -/
theorem notRoot_of_sites {path : Str} (below : [] ∉ sites req) (site : components path ∈ sites req) :
    path ≠ "/".toList := by
  rintro rfl
  rw [components_root] at site
  exact below site

/-- The change of an attempt is the one that the request makes of the tree. -/
theorem took_of_changes {expectKvFailure : Bool} {made : List Exchange} {back : Option Handler}
    (ordinary : Ordinary req) (below : [] ∉ sites req) (stays : ¬ Deletes req)
    (read : HasRead t latest h) (enough : INT_MAX < env.fuel)
    (changes : Changes env expectKvFailure h req.request made h' back) :
    made = [] ∧ Took req t latest h h' back := by
  rw [Ordinary.eq_def] at ordinary
  split at ordinary
  · cases changes with
    | upload looked new last made => exact ⟨rfl, took_creation read rfl ordinary looked new last made⟩
  · cases changes with
    | create looked new last made => exact ⟨rfl, took_creation read rfl ordinary looked new last made⟩
  · cases changes with
    | rename looked valid renamed =>
      exact ⟨rfl, took_rename read enough (.inl rfl)
        (notRoot_of_sites below List.mem_cons_self) ordinary looked valid renamed⟩
  · cases changes with
    | rename looked valid renamed =>
      exact ⟨rfl, took_rename read enough (.inr rfl)
        (notRoot_of_sites below List.mem_cons_self) ordinary looked valid renamed⟩
  · cases changes with
    | move looked valid located valid' moved =>
      exact ⟨rfl, took_move read enough (.inl rfl) (notRoot_of_sites below List.mem_cons_self) looked
        valid located valid' moved⟩
  · cases changes with
    | move looked valid located valid' moved =>
      exact ⟨rfl, took_move read enough (.inr rfl) (notRoot_of_sites below List.mem_cons_self) looked
        valid located valid' moved⟩
  · exact absurd (.inl rfl) stays
  · exact absurd (.inr rfl) stays
  · exact ordinary.elim

end Attempt

end StorageEffects
