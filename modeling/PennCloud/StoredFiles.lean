import PennCloud.FileService
import PennCloud.HandlerText
import PennCloud.StorageFailure

/-!
# How the files of a user are stored

The store keeps a text with the tree under one key and the content of each file under
its id. A handler has the store to itself as far as the keys of its user's storage go;
everything else may change between its calls. It opens with the tree that is stored, and
what it gives to the store is accepted.
-/

namespace StoredFiles

open Text KvInterface UnorderedMap StorageMetadata StorageHandler StorageCommit Dialogue
  StorageTree MetadataText MetadataPrinting MetadataParsing HandlerObjects StorageDelete PathMaps
  FileService
open HandlerText
open StorageFailure (metadata_ne_decimal)

/-! The store -/

/-- The values of the users by their keys. What is not there is empty. -/
abbrev Values := Str → Str → Str

def Values.set (v : Values) (usr key value : Str) : Values := fun u k =>
  if u = usr ∧ k = key then value else v u k

/-- What the store answers to a call. Only what is there is sure to be found. -/
inductive Answers : Values → KvCall → KvReply → Values → Prop where
  | got {v : Values} {usr key : Str} {status : KvState}
      (found : v usr key ≠ [] → status = .finished) :
      Answers v (.gets usr key) ⟨status, v usr key⟩ v
  | put {v : Values} {usr key value reply : Str} :
      Answers v (.puts usr key value) ⟨.finished, reply⟩ (v.set usr key value)
  | swapped {v : Values} {usr key prevValue newValue reply : Str} (same : v usr key = prevValue) :
      Answers v (.cput usr key prevValue newValue) ⟨.finished, reply⟩ (v.set usr key newValue)
  | kept {v : Values} {usr key prevValue newValue reply : Str} {status : KvState}
      (other : v usr key ≠ prevValue) (refused : status ≠ .finished) :
      Answers v (.cput usr key prevValue newValue) ⟨status, reply⟩ v
  | removed {v : Values} {usr key reply : Str} :
      Answers v (.dele usr key) ⟨.finished, reply⟩ (v.set usr key [])

/-- The keys of the storage of a user. -/
def OfStorage (key : Str) : Prop := key = kMetadataFp ∨ ∃ id, key = toDecimal id

/-- What the user has under these keys is the same. -/
def SameAt (mine : Str → Prop) (usr : Str) (v w : Values) : Prop :=
  ∀ key, mine key → w usr key = v usr key

/-- The storage of the user is the same. -/
abbrev SameStorage (usr : Str) : Values → Values → Prop := SameAt OfStorage usr

/-- The store answers amid the calls of others, who leave these keys of the user alone. -/
def AmidOthers (mine : Str → Prop) (usr : Str) (v : Values) (call : KvCall) (reply : KvReply)
    (w : Values) : Prop := ∃ u, SameAt mine usr v u ∧ Answers u call reply w

/-- The store answers amid the calls of others, who leave the storage of the user alone. -/
abbrev Amid (usr : Str) : Values → KvCall → KvReply → Values → Prop := AmidOthers OfStorage usr

/-- One value of the storage was written. -/
structure Wrote (usr : Str) (v : Values) (key value : Str) (w : Values) : Prop where
  here : w usr key = value
  others : ∀ other, OfStorage other → other ≠ key → w usr other = v usr other

section Store
variable {usr key : Str} {v w : Values} {reply : KvReply}

theorem ofStorage_metadata : OfStorage kMetadataFp := .inl rfl

theorem ofStorage_id (id : Nat) : OfStorage (toDecimal id) := .inr ⟨id, rfl⟩

theorem Values.wrote {u : Values} (same : SameStorage usr v u) (key value : Str) :
    Wrote usr v key value (u.set usr key value) where
  here := if_pos ⟨rfl, rfl⟩
  others _ mine apart := (if_neg fun no => apart no.2).trans (same _ mine)

theorem Amid.got (amid : Amid usr v (.gets usr key) reply w) (mine : OfStorage key) :
    SameStorage usr v w ∧ reply.value = v usr key ∧ (v usr key ≠ [] → reply.status = .finished) := by
  obtain ⟨u, same, answers⟩ := amid
  cases answers with
  | got found =>
    rw [same key mine] at found
    exact ⟨same, same key mine, found⟩

theorem Amid.put {value : Str} (amid : Amid usr v (.puts usr key value) reply w) :
    reply.status = .finished ∧ Wrote usr v key value w := by
  obtain ⟨u, same, answers⟩ := amid
  cases answers
  exact ⟨rfl, Values.wrote same key value⟩

theorem Amid.swapped {newValue : Str} (amid : Amid usr v (.cput usr key (v usr key) newValue) reply w)
    (mine : OfStorage key) : reply.status = .finished ∧ Wrote usr v key newValue w := by
  obtain ⟨u, same, answers⟩ := amid
  cases answers with
  | swapped => exact ⟨rfl, Values.wrote same key newValue⟩
  | kept other => exact absurd (same key mine) other

theorem Amid.removed (amid : Amid usr v (.dele usr key) reply w) :
    reply.status = .finished ∧ Wrote usr v key [] w := by
  obtain ⟨u, same, answers⟩ := amid
  cases answers
  exact ⟨rfl, Values.wrote same key []⟩

/-- A text that is written leaves the contents. -/
theorem Wrote.content {text : Str} (wrote : Wrote usr v kMetadataFp text w) (id : Nat) :
    w usr (toDecimal id) = v usr (toDecimal id) :=
  wrote.others _ (ofStorage_id id) (metadata_ne_decimal id)

end Store

/-! What is stored -/

/-- The tree is stored. A key that no entry has yet, or that is the id of a folder, has no value. -/
structure Records (usr : Str) (t : Tree) (latest : Nat) (v : Values) : Prop where
  wf : t.WellFormed
  named : Named t
  top : t.node t.root = some ⟨usr, false, none⟩
  small : latest ≤ INT_MAX
  used : ∀ {id n}, t.node id = some n → id ≤ latest
  written : WrittenFor t latest (v usr kMetadataFp)
  unused : ∀ {id}, latest < id → v usr (toDecimal id) = []
  folders : ∀ {id n}, t.node id = some n → n.isFile = false → v usr (toDecimal id) = []

/-- The files of the user are stored. -/
def Stores (usr : Str) (fs : UserFiles) (v : Values) : Prop :=
  ∃ t, Records usr t fs.made v ∧ Maps t (fun id => v usr (toDecimal id)) fs.entries

section Records
variable {usr text : Str} {t t' : Tree} {latest latest' : Nat} {v w : Values}
  {e : Entries Str Str}

theorem Records.says (records : Records usr t latest v) : Says t latest (v usr kMetadataFp) :=
  says_of_written records.wf records.named.spelled records.small records.written

/-- The stored text is not empty. -/
theorem Records.nonempty (records : Records usr t latest v) : v usr kMetadataFp ≠ [] := by
  obtain ⟨block, order, -, text⟩ := records.written
  rw [text, metadataLines, unlines_cons]
  simp

theorem Records.same (records : Records usr t latest v) (same : SameStorage usr v w) :
    Records usr t latest w where
  wf := records.wf
  named := records.named
  top := records.top
  small := records.small
  used := records.used
  written := by
    rw [same _ ofStorage_metadata]
    exact records.written
  unused later := (same _ (ofStorage_id _)).trans (records.unused later)
  folders here directory := (same _ (ofStorage_id _)).trans (records.folders here directory)

theorem Stores.same {fs : UserFiles} (stores : Stores usr fs v) (same : SameStorage usr v w) :
    Stores usr fs w := by
  obtain ⟨t, records, maps⟩ := stores
  exact ⟨t, records.same same, maps.congr fun id _ _ _ => same _ (ofStorage_id id)⟩

/-- Another tree is stored: its folders were folders before, or are new. -/
theorem Records.replaced (records : Records usr t latest v) (wrote : Wrote usr v kMetadataFp text w)
    (written : WrittenFor t' latest' text) (later : latest ≤ latest') (small : latest' ≤ INT_MAX)
    (wf : t'.WellFormed) (named : Named t') (top : t'.node t'.root = some ⟨usr, false, none⟩)
    (nodes : ∀ {id n}, t'.node id = some n → (∃ m, t.node id = some m ∧ m.isFile = n.isFile) ∨
      latest < id ∧ id ≤ latest') : Records usr t' latest' w where
  wf := wf
  named := named
  top := top
  small := small
  used := by
    intro id n here
    rcases nodes here with ⟨m, before, -⟩ | ⟨-, fits⟩
    · exact (records.used before).trans later
    · exact fits
  written := by
    rw [wrote.here]
    exact written
  unused := by
    intro id new
    rw [wrote.content, records.unused (lt_of_le_of_lt later new)]
  folders := by
    intro id n here directory
    rw [wrote.content]
    rcases nodes here with ⟨m, before, kind⟩ | ⟨new, -⟩
    · exact records.folders before (kind.trans directory)
    · exact records.unused new

/-- A path has an entry of the tree, or nothing stands there. -/
theorem known_iff (records : Records usr t latest v) {content : Nat → Str}
    (maps : Maps t content e) {p : List Str} : e p ≠ none ↔ ∃ id, t.Leads t.root p id := by
  constructor
  · intro known
    obtain ⟨k, there⟩ := Option.ne_none_iff_exists'.mp known
    obtain ⟨id, n, leads, -⟩ := (maps p k).mp there
    exact ⟨id, leads⟩
  · rintro ⟨id, leads⟩
    obtain ⟨n, here⟩ := leads.node records.top
    rw [maps.at leads here]
    nofun

/-- The entry at a path that has no slash after it. -/
theorem entryAt_of_direct {path : Str} {id : Nat} (direct : Direct path)
    (leads : t.Leads t.root (components path) id) : t.EntryAt path id := by
  by_cases trailing : Trailing path
  · obtain rfl := direct trailing
    rw [components_root] at leads
    cases leads
    exact .inl ⟨rfl, rfl⟩
  · exact entryAt_of_named trailing leads

end Records

/-! What is stored of a new user -/

/-- The root folder alone. -/
def rootTree (usr : Str) : Tree where
  root := 1
  node id := if id = 1 then some ⟨usr, false, none⟩ else none

section Fresh
variable {usr : Str} {v : Values}

theorem node_rootTree {id : Nat} {n : Node} :
    (rootTree usr).node id = some n ↔ id = 1 ∧ n = ⟨usr, false, none⟩ := by
  rw [rootTree]
  constructor
  · intro here
    obtain ⟨same, node⟩ := Option.ite_none_right_eq_some.mp here
    exact ⟨same, (Option.some.inj node).symm⟩
  · rintro ⟨rfl, rfl⟩
    rfl

theorem wellFormed_rootTree (usr : Str) : (rootTree usr).WellFormed where
  root := ⟨usr, rfl⟩
  rooted := by
    intro id n here
    obtain ⟨rfl, -⟩ := node_rootTree.mp here
    exact ⟨0, .root⟩
  inInt := by
    intro id n here
    obtain ⟨rfl, -⟩ := node_rootTree.mp here
    decide
  distinct := by
    intro a b m n first second _ _
    rw [(node_rootTree.mp first).1, (node_rootTree.mp second).1]

/-- `initialize_usr` stores the root folder. -/
theorem initialMetadata_eq (usr : Str) : SharedMetadata.initialMetadata usr =
    unlines (metadataLines 1 ⟨'/' :: usr, 1, []⟩ []) := by
  have first : "Latest ID: 1\nRoot folder: /".toList =
      latestWords ++ (toDecimal 1 ++ '\n' :: (rootWords ++ ['/'])) := by decide +kernel
  have last : " ID 1 Items 0\n".toList =
      " ID ".toList ++ (toDecimal 1 ++ (" Items ".toList ++ (toDecimal 0 ++ ['\n']))) := by
    decide +kernel
  exact (congrArg₂ (fun a b => a ++ (usr ++ b)) first last).trans
    (SharedMetadata.unlines_around _ _ _ _ _ _ _)

theorem written_rootTree (usr : Str) :
    WrittenFor (rootTree usr) 1 (SharedMetadata.initialMetadata usr) := by
  refine ⟨fun _ => ⟨'/' :: usr, 1, []⟩, [], ⟨fun id n here _ => ?_, List.nodup_singleton 1,
    fun id => ?_, fun before a after split => ?_⟩, initialMetadata_eq usr⟩
  · obtain ⟨rfl, rfl⟩ := node_rootTree.mp here
    refine ⟨rfl, .root here, List.nodup_nil, fun item => ⟨nofun, ?_⟩⟩
    rintro ⟨m, child, parent, -⟩
    rw [(node_rootTree.mp child).2] at parent
    cases parent
  · rw [List.mem_singleton]
    constructor
    · rintro rfl
      exact ⟨_, rfl, rfl⟩
    · rintro ⟨n, here, -⟩
      exact (node_rootTree.mp here).1
  · cases before with
    | nil => exact .inl (List.cons.inj split).1.symm
    | cons b before => cases before <;> cases split

/-- A user who has signed up, and of whom nothing else was ever stored, has no files. -/
theorem stores_noFiles (nonempty : usr ≠ []) (letters : ∀ c ∈ usr, pathChar c = true ∧ c ≠ '/')
    (metadata : v usr kMetadataFp = SharedMetadata.initialMetadata usr)
    (empty : ∀ id, v usr (toDecimal id) = []) : Stores usr noFiles v := by
  refine ⟨rootTree usr, ⟨wellFormed_rootTree usr, ?_, rfl, by decide, ?_, ?_, ?_, ?_⟩,
    maps_of_paths (wellFormed_rootTree usr).toRooted ?_ ?_⟩
  · intro id n here
    rw [(node_rootTree.mp here).2]
    exact ⟨nonempty, letters⟩
  · intro id n here
    exact (node_rootTree.mp here).1.le
  · rw [metadata]
    exact written_rootTree usr
  · exact fun _ => empty _
  · exact fun _ _ => empty _
  · intro id n here
    obtain ⟨rfl, rfl⟩ := node_rootTree.mp here
    exact ⟨[], .here 1, rfl⟩
  · intro p k known
    obtain ⟨rfl, -⟩ := Option.ite_none_right_eq_some.mp known
    exact ⟨1, _, .here 1, rfl⟩

end Fresh

/-! Reading and writing the metadata -/

/-- The handler serves the tree that is stored, and knows its text. -/
structure Ready (usr : Str) (t : Tree) (latest : Nat) (h : Handler) (v : Values) : Prop where
  serves : Serves t latest h
  user : h.usr = usr
  text : h.metadataStr = v usr kMetadataFp

section Calls
variable {usr : Str} {t : Tree} {latest : Nat} {v : Values} {env : Env} {β : Type}
  {post : Values → β → Prop}

/-- A new handler opens with the tree that is stored. -/
theorem reaches_open (records : Records usr t latest v) (enough : INT_MAX < env.fuel) (fd : Int)
    {f : Bool × Handler → Service β}
    (next : ∀ h w, SameStorage usr v w → Ready usr t latest h w →
      (f (true, h)).Reaches False (Amid usr) w post) :
    ((readMetadata env { usr := usr, backendFd := fd }).bind f).Reaches False (Amid usr) v post := by
  rw [readMetadata, bind_assoc]
  refine reaches_question fun reply w asked => ?_
  obtain ⟨same, value, found⟩ := asked.got ofStorage_metadata
  have finished : reply.status = .finished := found records.nonempty
  obtain ⟨h, parsed, exact, known⟩ := records.says env usr fd enough
  rw [value, finished]
  rw [if_neg (by decide), if_neg (by simp)]
  refine reaches_ofOption parsed (next h w same ⟨⟨records.wf, records.named, exact,
    (tidy_new usr fd _).parseMetadataFile parsed, known⟩, ?_, ?_⟩)
  · exact (sameText_parseMetadataFile parsed).usr
  · rw [same _ ofStorage_metadata]
    exact (sameText_parseMetadataFile parsed).metadataStr

/-- What a handler prints of its tree is accepted by the store. -/
theorem reaches_commit {ptr : Nat → Ptr} {h : Handler} (wf : t.Rooted) (holds : Holds t h ptr)
    (known : h.latestId = some latest) (enough : INT_MAX < env.fuel) (user : h.usr = usr)
    (text : h.metadataStr = v usr kMetadataFp) {f : Bool × Str → Service β}
    (next : ∀ text w, WrittenFor t latest text → Wrote usr v kMetadataFp text w →
      (f (true, text)).Reaches False (Amid usr) w post) :
    ((writeMetadataToKv env h).bind f).Reaches False (Amid usr) v post := by
  refine reaches_written wf holds known enough fun text' reply w written asked => ?_
  rw [user, text] at asked
  obtain ⟨finished, wrote⟩ := asked.swapped ofStorage_metadata
  rw [decide_eq_true finished]
  exact next text' w written wrote

end Calls

end StoredFiles
