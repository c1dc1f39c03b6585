import PennCloud.StorageEffects
import PennCloud.StoredFiles

/-!
# How the files of a user are changed

Creations, renames and moves, each by the handler that has read the tree. Where the
metadata with the change is stored, what the store then has is what the request asks
for.
-/

namespace ServedFiles

open Text KvInterface UnorderedMap StorageMetadata StorageHandler StorageCommit Dialogue
  StorageTree MetadataText MetadataPrinting MetadataParsing HandlerText HandlerObjects StorageDelete
  StorageCreate StorageMove StorageRename StorageEffects PathMaps FileService StoredFiles
open SharedMetadata (creates creationPath validFilename)
open StorageFailure (metadata_ne_decimal)

/-- The response with which a handler begins. -/
def begun : StorageServiceResp := StorageServiceResp.cleared.fail "Invalid request.".toList

/-- The request is performed, and what is left is stored. -/
def Performed (usr : Str) (fs : UserFiles) (req : StorageServiceReq) (v : Values)
    (r : Handler × StorageServiceResp) : Prop :=
  ∃ fs', Performs usr fs req r.2 fs' ∧ Stores usr fs' v

/-- A handler has read the files of the user that are stored. -/
structure Serving (usr : Str) (fs : UserFiles) (t : Tree) (h : Handler) (v : Values) : Prop where
  records : Records usr t fs.made v
  maps : Maps t (fun id => v usr (toDecimal id)) fs.entries
  ready : Ready usr t fs.made h v

section Serving
variable {usr : Str} {fs : UserFiles} {t : Tree} {h : Handler} {v : Values} {env : Env}

theorem Serving.stores (serving : Serving usr fs t h v) : Stores usr fs v :=
  ⟨t, serving.records, serving.maps⟩

theorem Serving.exact (serving : Serving usr fs t h v) : Exact t h := serving.ready.serves.exact

theorem Serving.hasRead (serving : Serving usr fs t h v) : HasRead t fs.made h := by
  obtain ⟨wf, named, -, small, used, written, -, -⟩ := serving.records
  refine ⟨serving.ready.serves, wf, named, used, small, ?_⟩
  rw [serving.ready.text]
  exact written

theorem Serving.known_iff (serving : Serving usr fs t h v) {p : List Str} :
    fs.entries p ≠ none ↔ ∃ id, t.Leads t.root p id :=
  StoredFiles.known_iff serving.records serving.maps

theorem Serving.missing (serving : Serving usr fs t h v) {p : List Str}
    (missing : fs.entries p = none) : ¬ ∃ id, t.Leads t.root p id := fun there =>
  serving.known_iff.mpr there missing

/-- A refusal leaves everything as it is. -/
theorem Serving.unchanged (serving : Serving usr fs t h v) {req : StorageServiceReq}
    {r : Handler × StorageServiceResp} (performs : Performs usr fs req r.2 fs) :
    Performed usr fs req v r :=
  ⟨fs, performs, serving.stores⟩

/-- The handler does not find the path of an entry that is not there. -/
theorem Serving.not_found (serving : Serving usr fs t h v) {path : Str}
    (missing : fs.entries (components path) = none) :
    ∃ parentDir name, h.validatePathAndGetDir path = some ⟨false, parentDir, none, name, h⟩ := by
  obtain ⟨parentDir, name, looked, -⟩ := validate_missing serving.records.wf serving.exact.toHolds
    serving.exact.filesEmpty (serving.missing missing)
  exact ⟨parentDir, name, looked⟩

/-- The handler finds something at the path of an entry, maybe not the entry. -/
theorem Serving.found (serving : Serving usr fs t h v) {path : Str}
    (there : fs.entries (components path) ≠ none) :
    ∃ found, h.validatePathAndGetDir path = some found ∧ found.valid = true := by
  obtain ⟨id, leads⟩ := serving.known_iff.mp there
  have wf := serving.records.wf
  have holds := serving.exact.toHolds
  by_cases trailing : Trailing path
  · by_cases root : path = "/".toList
    · rw [Handler.validatePathAndGetDir, if_pos root, holds.root]
      exact ⟨_, rfl, rfl⟩
    · obtain ⟨dir, h', looked, -⟩ :=
        validate_trailing wf holds serving.exact.filesEmpty trailing root leads
      exact ⟨_, looked, rfl⟩
  · rcases validate_entryAt wf.toRooted holds (entryAt_of_named trailing leads) with
      ⟨looked, -⟩ | ⟨n, p, -, -, looked⟩
    · exact ⟨_, looked, rfl⟩
    · exact ⟨_, looked, rfl⟩

/-- The content of a file is stored. -/
theorem records_filled {latest id : Nat} {content : Str} {w : Values}
    (records : Records usr t latest v) (wrote : Wrote usr v (toDecimal id) content w)
    (used : id ≤ latest) (file : ∀ n, t.node id = some n → n.isFile = true) :
    Records usr t latest w where
  wf := records.wf
  named := records.named
  top := records.top
  small := records.small
  used := records.used
  written := by
    rw [wrote.others _ ofStorage_metadata (metadata_ne_decimal id).symm]
    exact records.written
  unused := by
    intro other new
    have apart : other ≠ id := by omega
    rw [wrote.others _ (ofStorage_id other) (toDecimal_injective.ne apart)]
    exact records.unused new
  folders := by
    intro other n here directory
    have apart : other ≠ id := by
      rintro rfl
      rw [file n here] at directory
      cases directory
    rw [wrote.others _ (ofStorage_id other) (toDecimal_injective.ne apart)]
    exact records.folders here directory

/-- A changed tree is printed and stored. -/
theorem reaches_changed {β : Type} {post : Values → β → Prop} {t' : Tree} {latest : Nat}
    {h' : Handler} (serving : Serving usr fs t h v) (enough : INT_MAX < env.fuel)
    (same : SameText h h') (prints : Prints t' latest h')
    (top : t'.node t'.root = some ⟨usr, false, none⟩)
    (nodes : ∀ {id n}, t'.node id = some n → (∃ m, t.node id = some m ∧ m.isFile = n.isFile) ∨
      fs.made < id ∧ id ≤ latest)
    (later : fs.made ≤ latest) {f : Bool × Str → Service β}
    (next : ∀ text w, Records usr t' latest w →
      (∀ id, w usr (toDecimal id) = v usr (toDecimal id)) →
      (f (true, text)).Reaches False (Amid usr) w post) :
    ((writeMetadataToKv env h').bind f).Reaches False (Amid usr) v post := by
  have user : h'.usr = usr := same.usr.trans serving.ready.user
  have text : h'.metadataStr = v usr kMetadataFp := same.metadataStr.trans serving.ready.text
  obtain ⟨wf, named, -, small, ⟨_, holds⟩, known⟩ := prints
  refine reaches_commit wf.toRooted holds known enough user text fun text w written wrote => ?_
  refine next text w ?_ wrote.content
  exact serving.records.replaced wrote written later small wf named top nodes

end Serving

/-! Creations -/

section Creation
variable {usr : Str} {fs : UserFiles} {t : Tree} {h h' : Handler} {v : Values} {env : Env}
  {req : StorageServiceReq}

/-- A creation of something that is there. -/
theorem creation_taken (makes : req.type = .fileUpload ∨ req.type = .dirCreate) {found : Found}
    (looked : h.validatePathAndGetDir (creationPath req) = some found) (valid : found.valid = true)
    (attempts : Nat) (resp : StorageServiceResp) :
    handleCreationAndQuery env req (attempts + 1) h resp = .done (found.handler,
      resp.fail ("File or folder already exists: ".toList ++ creationPath req)) := by
  obtain ⟨path, query⟩ := path_of_creation makes
  rw [handleCreationAndQuery]
  simp only [path, query, looked, Dialogue.ofOption, Dialogue.bind, Bool.false_and,
    Bool.false_eq_true, if_false, Bool.not_false, Bool.true_and]
  exact if_pos valid

/-- A creation in a folder that is not there. -/
theorem creation_orphan (makes : req.type = .fileUpload ∨ req.type = .dirCreate) {name : Str}
    (looked : h.validatePathAndGetDir (creationPath req) = some ⟨false, none, none, name, h⟩)
    (attempts : Nat) (resp : StorageServiceResp) :
    handleCreationAndQuery env req (attempts + 1) h resp = .done (h, resp.fail
      ("Failed to upload file due to non-existent parent folder(s): ".toList ++ req.uploadPath)) := by
  obtain ⟨path, query⟩ := path_of_creation makes
  rw [handleCreationAndQuery]
  simp only [path, query, looked, Dialogue.ofOption, Dialogue.bind, Bool.false_and,
    Bool.false_eq_true, if_false, Bool.not_false, Bool.true_and]
  exact if_pos rfl

/-- The content of an upload is stored under the id of the new file. -/
theorem reaches_finish {latest id : Nat} (records : Records usr t latest v) (user : h.usr = usr)
    (used : id ≤ latest)
    (file : req.type = .fileUpload → ∀ n, t.node id = some n → n.isFile = true) :
    (finish env req id h begun).Reaches False (Amid usr) v fun w r =>
      r.2 = succeeded usr .notSet ∧ Records usr t latest w ∧
        (∀ other, other ≠ id → w usr (toDecimal other) = v usr (toDecimal other)) ∧
        (req.type = .fileUpload → w usr (toDecimal id) = req.uploadContent) := by
  have answer : ∀ h', h'.usr = usr → populateSuccessResp h' begun = succeeded usr .notSet := by
    rintro h' rfl
    rfl
  rw [finish]
  split
  · rename_i upload
    rw [putContent, user]
    refine reaches_question fun reply w asked => ?_
    obtain ⟨finished, wrote⟩ := asked.put
    rw [if_pos finished]
    refine ⟨answer h user, records_filled records wrote used (file upload), ?_, fun _ => wrote.here⟩
    intro other apart
    exact wrote.others _ (ofStorage_id other) (toDecimal_injective.ne apart)
  · rename_i create
    exact ⟨answer h user, records, fun _ _ => rfl, fun upload => absurd upload create⟩

/-- The metadata of the tree with a new entry in a directory are stored. -/
theorem reaches_made (serving : Serving usr fs t h v) (enough : INT_MAX < env.fuel)
    (makes : creates req = true) (named : ¬ Trailing (creationPath req))
    (there : fs.entries (components (creationPath req)) = none) {b : Nat} {o : Node}
    (leads : t.Leads t.root (way [] (creationPath req)).1 b) (above : t.node b = some o)
    (directory : o.isFile = false) (same : SameText h h')
    (prints : Prints (withEntry t (fs.made + 1) b (way [] (creationPath req)).2
      (decide (req.type = .fileUpload))) (fs.made + 1) h')
    (again : Handler → Service (Handler × StorageServiceResp)) :
    ((writeMetadataToKv env h').bind fun written =>
      if written.1 then finish env req (fs.made + 1) { h' with metadataStr := written.2 } begun
      else again h').Reaches False (Amid usr) v (Performed usr fs req) := by
  have unused : t.node (fs.made + 1) = none := serving.hasRead.unused
  have old : ∀ {c n}, t.node c = some n → c ≠ fs.made + 1 := fun here => old_ne_new unused here
  have names := components_of_named named
  refine reaches_changed serving enough same prints ?_ ?_ (Nat.le_succ _)
    fun text w records contents => ?_
  · exact (node_withEntry_ne (old serving.records.top)).trans serving.records.top
  · intro id n here
    rcases node_withEntry here with ⟨rfl, -⟩ | ⟨-, here⟩
    · exact .inr ⟨Nat.lt_succ_self _, le_rfl⟩
    · exact .inl ⟨n, here, rfl⟩
  have file : req.type = .fileUpload → ∀ n, (withEntry t (fs.made + 1) b
      (way [] (creationPath req)).2 (decide (req.type = .fileUpload))).node (fs.made + 1) =
        some n → n.isFile = true := by
    intro upload n here
    cases node_withEntry_self.symm.trans here
    exact decide_eq_true upload
  rw [if_pos rfl]
  have user : { h' with metadataStr := text }.usr = usr := same.usr.trans serving.ready.user
  refine (reaches_finish records user le_rfl file).mono ?_
  rintro w' r ⟨answer, records', others, filled⟩
  refine ⟨⟨put fs.entries (components (creationPath req)) (creation req), fs.made + 1⟩, ?_,
    _, records', ?_⟩
  · rw [answer]
    refine .made makes named there ?_
    rw [names, List.dropLast_concat, serving.maps.at leads above, Node.entry, directory]
    rfl
  · have before : Maps t (fun id => w' usr (toDecimal id)) fs.entries :=
      serving.maps.congr fun id n here _ => (others id (old here)).trans (contents id)
    have after := before.withEntry serving.records.wf unused prints.wf above leads
      (free_of_missing named leads (serving.missing there))
    rw [← names] at after
    have entry : creation req = Node.entry ⟨(way [] (creationPath req)).2,
        decide (req.type = .fileUpload), some b⟩ (w' usr (toDecimal (fs.made + 1))) := by
      rw [creation, Node.entry]
      by_cases upload : req.type = .fileUpload
      · rw [if_pos upload, if_pos (decide_eq_true upload), filled upload]
      · rw [if_neg upload, if_neg (by simpa using upload)]
    rw [entry]
    exact after

/-- The new entry vanishes in a file: the metadata of the old tree are stored. -/
theorem reaches_vanished (serving : Serving usr fs t h v) (enough : INT_MAX < env.fuel)
    (makes : creates req = true) (named : ¬ Trailing (creationPath req)) {b : Nat} {o : Node}
    (leads : t.Leads t.root (way [] (creationPath req)).1 b) (above : t.node b = some o)
    (file : o.isFile = true) (same : SameText h h') (prints : Prints t (fs.made + 1) h')
    (again : Handler → Service (Handler × StorageServiceResp)) :
    ((writeMetadataToKv env h').bind fun written =>
      if written.1 then finish env req (fs.made + 1) { h' with metadataStr := written.2 } begun
      else again h').Reaches False (Amid usr) v (Performed usr fs req) := by
  have unused : t.node (fs.made + 1) = none := serving.hasRead.unused
  refine reaches_changed serving enough same prints serving.records.top
    (fun here => .inl ⟨_, here, rfl⟩) (Nat.le_succ _) fun text w records contents => ?_
  have absent : req.type = .fileUpload → ∀ n, t.node (fs.made + 1) = some n →
      n.isFile = true := by
    intro _ n here
    rw [unused] at here
    cases here
  rw [if_pos rfl]
  have user : { h' with metadataStr := text }.usr = usr := same.usr.trans serving.ready.user
  refine (reaches_finish records user le_rfl absent).mono ?_
  rintro w' r ⟨answer, records', others, -⟩
  refine ⟨⟨fs.entries, fs.made + 1⟩, ?_, t, records', ?_⟩
  · have parent : fs.entries (components (creationPath req)).dropLast =
        some (.file (v usr (toDecimal b))) := by
      rw [components_of_named named, List.dropLast_concat, serving.maps.at leads above, Node.entry,
        file]
      rfl
    rw [answer]
    exact .vanished makes named parent
  · refine serving.maps.congr fun id n here _ => ?_
    exact (others id (old_ne_new unused here)).trans (contents id)

theorem reaches_creation (serving : Serving usr fs t h v) (enough : INT_MAX < env.fuel)
    (makes : creates req = true) (next : fs.made < INT_MAX)
    (valid : validFilename (lastName (creationPath req)) = true) :
    (handleCreationAndQuery env req (kMaxAttempt + 1) h begun).Reaches False (Amid usr) v
      (Performed usr fs req) := by
  have kind := kind_of_creates makes
  have exact := serving.exact
  by_cases there : fs.entries (components (creationPath req)) = none
  · have missing := serving.missing there
    obtain ⟨parentDir, name, looked, new, lost⟩ :=
      validate_missing serving.records.wf exact.toHolds exact.filesEmpty missing
    by_cases reached : ∃ b, t.Leads t.root (way [] (creationPath req)).1 b
    · obtain ⟨b, leads⟩ := reached
      have named : ¬ Trailing (creationPath req) := by
        intro trailing
        rw [components_of_trailing trailing] at missing
        exact missing ⟨b, leads⟩
      obtain ⟨rfl, rfl⟩ := new named b leads
      obtain ⟨o, above⟩ := leads.node serving.records.top
      obtain ⟨again, run⟩ := creation_made env kind looked serving.ready.serves.known
      obtain ⟨h', made, prints⟩ := prints_created serving.hasRead above
        (free_of_missing named leads missing) (new_name_fits named valid) next
        (decide (req.type = .fileUpload))
      have same := sameText_createEntry made
      rw [run]
      refine reaches_ofOption made ?_
      cases kind : o.isFile with
      | false =>
        rw [kind, if_neg Bool.false_ne_true] at prints
        exact reaches_made serving enough makes named there leads above kind same prints again
      | true =>
        rw [kind, if_pos rfl] at prints
        exact reaches_vanished serving enough makes named leads above kind same prints again
    · rw [lost reached] at looked
      rw [creation_orphan kind looked]
      refine serving.unchanged (.orphan makes there ?_)
      by_cases trailing : Trailing (creationPath req)
      · exact .inl trailing
      · refine .inr ?_
        rw [components_of_named trailing, List.dropLast_concat]
        by_contra known
        exact reached (serving.known_iff.mp known)
  · obtain ⟨found, looked, valid⟩ := serving.found there
    rw [creation_taken kind looked valid]
    exact serving.unchanged (.taken makes there)

end Creation

/-! Renames and moves -/

section Relinked
variable {usr : Str} {fs : UserFiles} {t : Tree} {h : Handler} {v : Values} {env : Env}

/-- Where no other entry has the name, nothing has to go. -/
theorem cut_free {id q : Nat} {name : Str}
    (free : ∀ c k, t.node c = some k → k.parent = some q → k.name = name → c = id) :
    (t.place id q name).Cut (t.place id q name) (Replaced t id q name) := by
  refine ⟨rfl, fun {x m} => ⟨fun here => ⟨here, ?_⟩, And.left⟩⟩
  rintro ⟨c, k, there, up, named, other, -⟩
  exact other (free c k there up named)

/-- Where another entry has the name, it goes with everything below it. -/
theorem cut_clash (wf : t.WellFormed) {id q c : Nat} {k : Node} {name : Str}
    (there : t.node c = some k) (up : k.parent = some q) (named : k.name = name) (other : c ≠ id) :
    (t.place id q name).Cut ((t.place id q name).without c) (Replaced t id q name) := by
  refine (cut_without _ c).congr fun x m node => ?_
  constructor
  · intro under
    exact ⟨c, k, there, up, named, other, under⟩
  · rintro ⟨c', k', there', up', named', -, under⟩
    obtain rfl := wf.distinct there' there (up'.trans up.symm) (named'.trans named.symm)
    exact under

/-- An entry that is linked under a name in another place is put there, or is gone where the place
is a file, or is below the entry. -/
theorem Serving.linked (serving : Serving usr fs t h v) {t' : Tree} {id p q : Nat} {n o : Node}
    {name : Str} {src path : List Str} (linked : Linked t id q name t') (here : t.node id = some n)
    (parent : n.parent = some p) (above : t.node q = some o) (source : t.Leads t.root src id)
    (target : t.Leads t.root path q) : ∃ e, Maps t' (fun id => v usr (toDecimal id)) e ∧
      (o.isFile = false ∧ ¬ t.Under id q ∧ e = relocate fs.entries src (path ++ [name]) ∨
        (o.isFile = true ∨ t.Under id q) ∧ e = remove fs.entries src) := by
  have wf := serving.records.wf
  have below : id ≠ t.root := wf.ne_root here parent
  have wf' := linked.wellFormed wf below
  cases linked with
  | placed above' directory apart free =>
    cases above.symm.trans above'
    exact ⟨_, serving.maps.relocate wf below here above directory apart source target
      (cut_free free) wf', .inl ⟨directory, apart, rfl⟩⟩
  | replaced above' directory apart there up spelled other =>
    cases above.symm.trans above'
    exact ⟨_, serving.maps.relocate wf below here above directory apart source target
      (cut_clash wf there up spelled other) wf', .inl ⟨directory, apart, rfl⟩⟩
  | lost above' gone =>
    cases above.symm.trans above'
    exact ⟨_, serving.maps.without wf source, .inr ⟨gone, rfl⟩⟩

/-- The tree in which an entry is linked in another place is stored. -/
theorem reaches_relinked {β : Type} {post : Values → β → Prop} {h' : Handler} {id p q : Nat}
    {n o : Node} {name : Str} {src path : List Str} (serving : Serving usr fs t h v)
    (enough : INT_MAX < env.fuel) (here : t.node id = some n) (parent : n.parent = some p)
    (above : t.node q = some o) (fits : name ≠ [] ∧ ∀ c ∈ name, pathChar c = true ∧ c ≠ '/')
    (same : SameBut h h') (relinked : Relinked t (ptrOf h) id p q n.name name h h')
    (source : t.Leads t.root src id) (target : t.Leads t.root path q) {f : Bool × Str → Service β}
    (next : ∀ text w e, o.isFile = false ∧ ¬ t.Under id q ∧
        e = relocate fs.entries src (path ++ [name]) ∨
        (o.isFile = true ∨ t.Under id q) ∧ e = remove fs.entries src →
      Stores usr ⟨e, fs.made⟩ w → (f (true, text)).Reaches False (Amid usr) w post) :
    ((writeMetadataToKv env h').bind f).Reaches False (Amid usr) v post := by
  have wf := serving.records.wf
  obtain ⟨t', linked⟩ := exists_linked id above name
  obtain ⟨e, maps, what⟩ := serving.linked linked here parent above source target
  have prints := prints_linked serving.hasRead here parent fits same relinked linked
  refine reaches_changed serving enough ⟨same.usr, same.metadataStr⟩ prints ?_
    (fun {x m} node => ?_) le_rfl fun text w records contents => ?_
  · exact (linked.top wf (wf.ne_root here parent)).trans serving.records.top
  · obtain ⟨k, before, rfl⟩ := linked.node node
    refine .inl ⟨k, before, ?_⟩
    split
    · rfl
    · rfl
  · exact next text w e what ⟨t', records, maps.congr fun id _ _ _ => contents id⟩

/-- The entry at a path without a slash after it stands in the directory before its last name. -/
theorem Serving.below (serving : Serving usr fs t h v) {path : Str} (named : ¬ Trailing path)
    (there : fs.entries (components path) ≠ none) :
    ∃ id p n, t.node id = some n ∧ n.parent = some p ∧ n.name = lastName path ∧
      t.Leads t.root (components path).dropLast p ∧ t.Leads t.root (components path) id ∧
      components path = (components path).dropLast ++ [lastName path] ∧
      h.validatePathAndGetDir path =
        some ⟨true, some (ptrOf h p), some (ptrOf h id), n.name, h⟩ := by
  obtain ⟨id, leads⟩ := serving.known_iff.mp there
  have wf := serving.records.wf
  have names := components_of_named named
  have last : (way [] path).2 = lastName path := lastName_way [] path List.not_mem_nil
  rw [last] at names
  have init : (components path).dropLast = (way [] path).1 := by
    rw [names, List.dropLast_concat]
  have whole := leads
  rw [names] at leads
  obtain ⟨p, before, final⟩ := leads.of_append
  obtain ⟨n, here, parent, spelled⟩ := final.last
  rw [init]
  refine ⟨id, p, n, here, parent, spelled, before, whole, names, ?_⟩
  rcases validate_entryAt wf.toRooted serving.exact.toHolds (entryAt_of_named named whole) with
    ⟨-, root⟩ | ⟨n', p', here', parent', looked⟩
  · exact absurd root (wf.ne_root here parent)
  · cases here.symm.trans here'
    cases parent.symm.trans parent'
    exact looked

theorem reaches_rename (serving : Serving usr fs t h v) (enough : INT_MAX < env.fuel)
    {type : StorageServiceType} (kind : type = .fileRename ∨ type = .dirRename)
    {oldPath newName : Str} (named : ¬ Trailing oldPath)
    (fits : newName ≠ [] ∧ ∀ c ∈ newName, pathChar c = true ∧ c ≠ '/') :
    (handleRename env oldPath newName (kMaxAttempt + 1) h begun).Reaches False (Amid usr) v
      (Performed usr fs ⟨type, .renameReq oldPath newName⟩) := by
  rw [handleRename]
  by_cases there : fs.entries (components oldPath) = none
  · obtain ⟨parentDir, name, looked⟩ := serving.not_found there
    refine reaches_ofOption looked ?_
    rw [if_pos (by simp)]
    refine serving.unchanged (.unknown ?_ there)
    rcases kind with rfl | rfl
    · rfl
    · rfl
  · obtain ⟨id, p, n, here, parent, -, target, source, -, looked⟩ := serving.below named there
    have wf := serving.records.wf
    obtain ⟨o, above, directory⟩ := wf.directory here parent
    obtain ⟨h', renamed, same, relinked⟩ :=
      relinked_of_rename wf.toRooted serving.exact.laid enough here parent above newName
    refine reaches_ofOption looked ?_
    rw [if_neg (by simp)]
    refine reaches_ofOption renamed (reaches_relinked serving enough here parent above fits same
      relinked source target fun text w e what stores => ?_)
    rw [if_pos rfl]
    rcases what with ⟨-, -, rfl⟩ | ⟨file | under, -⟩
    · refine ⟨_, ?_, stores⟩
      have answer : populateSuccessResp h' begun = succeeded usr .notSet := by
        rw [← serving.ready.user, ← same.usr]
        rfl
      rw [answer]
      exact .renamed kind there
    · rw [directory] at file
      cases file
    · exact absurd under (wf.toRooted.not_under_parent here parent)

theorem reaches_move (serving : Serving usr fs t h v) (enough : INT_MAX < env.fuel)
    {type : StorageServiceType} (kind : type = .fileMove ∨ type = .dirMove) {path newDir : Str}
    (named : ¬ Trailing path) (direct : Direct newDir) :
    (handleMove env path newDir (kMaxAttempt + 1) h begun).Reaches False (Amid usr) v
      (Performed usr fs ⟨type, .moveReq path newDir⟩) := by
  rw [handleMove]
  by_cases there : fs.entries (components path) = none
  · obtain ⟨parentDir, name, looked⟩ := serving.not_found there
    refine reaches_ofOption looked ?_
    rw [if_pos (by simp)]
    refine serving.unchanged (.unknown ?_ there)
    rcases kind with rfl | rfl
    · rfl
    · rfl
  obtain ⟨id, p, n, here, parent, last, -, source, -, looked⟩ := serving.below named there
  have wf := serving.records.wf
  refine reaches_ofOption looked ?_
  rw [if_neg (by simp)]
  by_cases missing : fs.entries (components newDir) = none
  · obtain ⟨parentDir, name, located⟩ := serving.not_found missing
    refine reaches_ofOption located ?_
    rw [if_pos (by simp)]
    exact serving.unchanged (.nowhere kind there missing)
  obtain ⟨q, target⟩ := serving.known_iff.mp missing
  obtain ⟨o, above⟩ := target.node serving.records.top
  obtain ⟨newParent, name, located⟩ : ∃ newParent name, h.validatePathAndGetDir newDir =
      some ⟨true, newParent, some (ptrOf h q), name, h⟩ := by
    rcases validate_entryAt wf.toRooted serving.exact.toHolds (entryAt_of_direct direct target)
      with ⟨located, -⟩ | ⟨o', p', -, -, located⟩
    · exact ⟨_, _, located⟩
    · exact ⟨_, _, located⟩
  obtain ⟨m, before, -⟩ := wf.directory here parent
  obtain ⟨h', moved, same, relinked⟩ :=
    relinked_of_move wf.toRooted serving.exact.laid enough here before above
  refine reaches_ofOption located ?_
  rw [if_neg (by simp)]
  refine reaches_ofOption moved (reaches_relinked serving enough here parent above
    (serving.records.named id n here) same relinked source target fun text w e what stores => ?_)
  rw [if_pos rfl]
  have answer : populateSuccessResp h' begun = succeeded usr .notSet := by
    rw [← serving.ready.user, ← same.usr]
    rfl
  have entry := serving.maps.at target above
  refine ⟨_, ?_, stores⟩
  rw [answer]
  rcases what with ⟨directory, apart, rfl⟩ | ⟨inside, rfl⟩
  · rw [last]
    refine .moved kind there ?_ fun no => apart ((under_iff_begins wf source target).mpr no)
    rw [entry, Node.entry, directory]
    rfl
  · refine .lost kind there missing ?_
    rcases inside with file | under
    · refine .inl ?_
      rw [entry, Node.entry, file]
      intro same
      cases same
    · exact .inr ((under_iff_begins wf source target).mp under)

end Relinked

end ServedFiles
