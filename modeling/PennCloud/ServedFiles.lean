import PennCloud.MovableDirs
import PennCloud.ServedDeletes

/-!
# The storage service serves the files of a user

Every request is a step of what the service is for, whatever other users and other
keys do to the store meanwhile. One request after the other, what is uploaded into a
folder is what is downloaded, as long as nothing on the way to it is touched.
-/

namespace ServedFiles

open Text KvInterface UnorderedMap StorageMetadata StorageHandler StorageCommit Dialogue
  StorageTree MetadataText MetadataPrinting MetadataParsing HandlerObjects StorageDelete
  StorageMovable PathMaps FileService StoredFiles
open SharedMetadata (creates creationPath validFilename)
open StorageFailure (metadata_ne_decimal)
open MetadataRoundTrip (deepEnv)

/-! Lists of entries -/

section Queries
variable {usr : Str} {fs : UserFiles} {t : Tree} {h : Handler} {v : Values} {env : Env}

theorem mapM_some {α β : Type} {l : List α} {g : α → Option β} {k : α → β}
    (each : ∀ a ∈ l, g a = some (k a)) : l.mapM g = some (l.map k) := by
  induction l with
  | nil => rfl
  | cons a l ih =>
    obtain ⟨first, later⟩ := List.forall_mem_cons.mp each
    rw [List.mapM_cons, first, ih later]
    rfl

/-- The path that is shown of an entry. -/
theorem Serving.shown (serving : Serving usr fs t h v) (enough : INT_MAX < env.fuel) {id : Nat}
    {n : Node} (here : t.node id = some n) {p : List Str} (leads : t.Leads t.root p id) :
    h.path env (some (ptrOf h id)) = some (shownPath usr p) := by
  have wf := serving.records.wf
  obtain ⟨path, isPath, computed⟩ := serving.exact.laid.path wf.toRooted enough here
  obtain ⟨names, way, rfl⟩ := isPath.names serving.records.top
  obtain rfl := leads.names_unique wf.toRooted way
  exact computed

/-- Two entries are not shown alike. -/
theorem shown_injective {latest a b : Nat} (records : Records usr t latest v) {p q : List Str}
    (first : t.Leads t.root p a) (second : t.Leads t.root q b)
    (same : shownPath usr p = shownPath usr q) : p = q := by
  have plain : ∀ {p : List Str} {a : Nat}, t.Leads t.root p a → ∀ name ∈ usr :: p, Plain name := by
    intro p a leads name mem
    rcases List.mem_cons.mp mem with rfl | mem
    · exact plain_of_named records.named records.top
    · obtain ⟨c, n, here, rfl, -⟩ := leads.mem mem
      exact plain_of_named records.named here
  have names := congrArg components same
  rw [shownPath, shownPath, components_slashed (plain first), components_slashed (plain second)]
    at names
  exact (List.cons.inj names).2

theorem entry_dir (n : Node) (content : Str) : decide (n.entry content = .dir) = !n.isFile := by
  rw [Node.entry]
  cases n.isFile with
  | true => rfl
  | false => rfl

/-- The entries of an object are those of its entry in the tree. -/
theorem Serving.items (serving : Serving usr fs t h v) (env : Env) {id : Nat} {n : Node}
    {d : Dirent} (here : t.node id = some n) (object : h.memory.lookup (ptrOf h id) = some d)
    (shows : Shows t (ptrOf h) id n d) : ∃ items : List Item,
      env.it.pairs (ptrOf h id) d.entries =
        items.map (fun item => (item.name, some (ptrOf h item.id))) ∧ Lists t id items := by
  cases kind : n.isFile with
  | false =>
    obtain ⟨items, same, lists, -⟩ := listed_folder env serving.exact.laid shows kind
    exact ⟨items, same, lists⟩
  | true =>
    have none : d.entries = ∅ := serving.exact.filesEmpty id n d here kind object
    have length := env.it.length_pairs (ptrOf h id) d.entries
    refine ⟨[], ?_, List.nodup_nil, fun item => ⟨nofun, ?_⟩⟩
    · rw [none] at length ⊢
      exact List.length_eq_zero_iff.mp length
    · rintro ⟨m, child, parent, -⟩
      obtain ⟨o, above, directory⟩ := serving.records.wf.directory child parent
      cases here.symm.trans above
      rw [kind] at directory
      cases directory

/-- What the handler lists of an entry. -/
theorem Serving.listing (serving : Serving usr fs t h v) (enough : INT_MAX < env.fuel) {id : Nat}
    {n : Node} {d : Dirent} (here : t.node id = some n)
    (object : h.memory.lookup (ptrOf h id) = some d) (shows : Shows t (ptrOf h) id n d)
    {path : List Str} (leads : t.Leads t.root path id) : ∃ entries,
      listEntries env h (ptrOf h id) d = some entries ∧ Listing usr fs.entries path entries := by
  have wf := serving.records.wf
  obtain ⟨items, same, lists⟩ := serving.items env here object shows
  have child : ∀ item ∈ items, ∃ m, t.node item.id = some m ∧ m.parent = some id ∧
      m.isFile = item.isFile ∧ t.Leads t.root (path ++ [item.name]) item.id := by
    intro item mem
    obtain ⟨m, node, parent, named, kind⟩ := (lists.mem item).mp mem
    exact ⟨m, node, parent, kind, named ▸ leads.append (.step node parent (.here _))⟩
  refine ⟨items.map fun item => ⟨shownPath usr (path ++ [item.name]), !item.isFile⟩, ?_, ?_,
    fun shown => ?_⟩
  · rw [listEntries, same, List.mapM_map]
    refine mapM_some fun item mem => ?_
    obtain ⟨m, node, -, kind, way⟩ := child item mem
    obtain ⟨e, stored, shows'⟩ := serving.exact.laid _ m node
    simp only [Function.comp_apply, Handler.deref, Option.bind_some, stored, serving.shown enough node way,
      Option.map_some, shows'.isFile, kind]
  · refine List.Nodup.map_on ?_ (lists.nodup.of_map _)
    intro a first b second alike
    obtain ⟨m, node, parent, kind, way⟩ := child a first
    obtain ⟨m', node', parent', kind', way'⟩ := child b second
    have whole := shown_injective serving.records way way' (congrArg DirEntry.name alike)
    have name : a.name = b.name := List.singleton_inj.mp (List.append_cancel_left whole)
    have ident : a.id = b.id := by
      rw [whole] at way
      exact way.unique wf way'
    rw [ident, node', Option.some.injEq] at node
    obtain ⟨an, ai, af⟩ := a
    obtain ⟨bn, bi, bf⟩ := b
    simp only at name ident kind kind' node
    rw [name, ident, ← kind, ← kind', node]
  · rw [List.mem_map]
    constructor
    · rintro ⟨item, mem, rfl⟩
      obtain ⟨m, node, -, kind, way⟩ := child item mem
      refine ⟨item.name, _, serving.maps.at way node, ?_⟩
      rw [entry_dir, kind]
    · rintro ⟨name, k, known, rfl⟩
      obtain ⟨c, m, way, node, rfl⟩ := (serving.maps _ k).mp known
      obtain ⟨b, before, final⟩ := way.of_append
      obtain ⟨m', node', parent, named⟩ := final.last
      cases node.symm.trans node'
      obtain rfl := before.unique wf leads
      refine ⟨⟨name, c, m.isFile⟩, (lists.mem _).mpr ⟨m, node, parent, named, rfl⟩, ?_⟩
      rw [entry_dir]

/-- What the lookup finds at the path of an entry that has no slash after it. -/
theorem Serving.looked (serving : Serving usr fs t h v) {path : Str} (direct : Direct path)
    (there : fs.entries (components path) ≠ none) : ∃ id n p name, t.node id = some n ∧
      t.Leads t.root (components path) id ∧ t.EntryAt path id ∧
      h.validatePathAndGetDir path = some ⟨true, some p, some (ptrOf h id), name, h⟩ := by
  obtain ⟨id, leads⟩ := serving.known_iff.mp there
  obtain ⟨n, here⟩ := leads.node serving.records.top
  have entryAt := entryAt_of_direct direct leads
  rcases validate_entryAt serving.records.wf.toRooted serving.exact.toHolds entryAt with
    ⟨looked, -⟩ | ⟨n', p, -, -, looked⟩
  · exact ⟨id, n, _, _, here, leads, entryAt, looked⟩
  · exact ⟨id, n, _, _, here, leads, entryAt, looked⟩

theorem reaches_query (serving : Serving usr fs t h v) (enough : INT_MAX < env.fuel) {path : Str}
    (direct : Direct path) : (handleCreationAndQuery env ⟨.dirQuery, .dirCreateOrQueryReq path⟩
      (kMaxAttempt + 1) h begun).Reaches False (Amid usr) v
        (Performed usr fs ⟨.dirQuery, .dirCreateOrQueryReq path⟩) := by
  rw [handleCreationAndQuery]
  by_cases there : fs.entries (components path) = none
  · obtain ⟨parentDir, name, looked⟩ := serving.not_found there
    refine reaches_ofOption looked ?_
    exact serving.unchanged (.unknown rfl there)
  · obtain ⟨id, n, p, name, here, leads, -, looked⟩ := serving.looked direct there
    obtain ⟨d, object, shows⟩ := serving.exact.laid id n here
    obtain ⟨entries, listed, lists⟩ := serving.listing enough here object shows leads
    refine reaches_ofOption looked ?_
    show (answerQuery env ⟨true, some p, some (ptrOf h id), name, h⟩ begun).Reaches _ _ _ _
    refine reaches_ofOption object (reaches_ofOption (serving.shown enough here leads)
      (reaches_ofOption listed (serving.unchanged ?_)))
    rw [show populateSuccessResp h { begun with body := .dirInfo _ entries } =
      succeeded h.usr (.dirInfo _ entries) from rfl, serving.ready.user]
    exact .listed there lists

theorem reaches_download (serving : Serving usr fs t h v) {path : Str} (direct : Direct path) :
    (handleFileDownload path h begun).Reaches False (Amid usr) v
      (Performed usr fs ⟨.fileDownload, .fileDownloadReq path⟩) := by
  by_cases there : fs.entries (components path) = none
  · obtain ⟨parentDir, name, looked⟩ := serving.not_found there
    refine reaches_ofOption looked ?_
    exact serving.unchanged (.unknown rfl there)
  · obtain ⟨id, n, p, name, here, leads, -, looked⟩ := serving.looked direct there
    obtain ⟨d, object, shows⟩ := serving.exact.laid id n here
    have entry := serving.maps.at leads here
    refine reaches_ofOption looked (reaches_ofOption object (reaches_question fun reply w asked => ?_))
    rw [serving.ready.user, shows.ident] at asked
    obtain ⟨same, value, found⟩ := asked.got (ofStorage_id id)
    have stores := serving.stores.same same
    have success : ({ populateSuccessResp h begun with body := .fileDownload reply.value } :
        StorageServiceResp) = succeeded usr (.fileDownload (v usr (toDecimal id))) := by
      rw [← value, ← serving.ready.user]
      rfl
    by_cases content : n.isFile = true ∧ v usr (toDecimal id) ≠ []
    · obtain ⟨file, nonempty⟩ := content
      rw [if_neg (not_not.mpr (found nonempty))]
      refine ⟨fs, ?_, stores⟩
      rw [success]
      refine .downloaded nonempty ?_
      rw [entry, Node.entry, if_pos file]
    · have empty : v usr (toDecimal id) = [] := by
        cases kind : n.isFile with
        | false => exact serving.records.folders here kind
        | true =>
          by_contra nonempty
          exact content ⟨kind, nonempty⟩
      have blank : fs.entries (components path) = some .dir ∨
          fs.entries (components path) = some (.file []) := by
        rw [entry, Node.entry, empty]
        split
        · exact .inr rfl
        · exact .inl rfl
      split
      · exact ⟨fs, .blank blank (.inr rfl), stores⟩
      · refine ⟨fs, ?_, stores⟩
        rw [success, empty]
        exact .blank blank (.inl rfl)

theorem entry_eq_dir {n : Node} {content : Str} : n.entry content = .dir ↔ n.isFile = false := by
  have same := entry_dir n content
  cases kind : n.isFile with
  | true =>
    rw [kind] at same
    exact iff_of_false (of_decide_eq_false same) Bool.noConfusion
  | false =>
    rw [kind] at same
    exact iff_of_true (of_decide_eq_true same) rfl

/-- Whether an entry can be moved to a directory, by their paths. -/
theorem movable_iff (serving : Serving usr fs t h v) {path p : List Str} {id dir : Nat}
    (leads : t.Leads t.root path id) (way : t.Leads t.root p dir) : Movable t id dir ↔
      fs.entries p = some .dir ∧ (path ≠ [] → p ≠ path.dropLast) ∧
        ¬ (fs.entries path = some .dir ∧ path <+: p) := by
  have wf := serving.records.wf
  obtain ⟨n, here⟩ := leads.node serving.records.top
  obtain ⟨d, there⟩ := way.node serving.records.top
  have directory : fs.entries p = some .dir ↔ d.isFile = false := by
    rw [serving.maps.at way there, Option.some.injEq, entry_eq_dir]
  have inside : fs.entries path = some .dir ∧ path <+: p ↔ n.isFile = false ∧ t.Under id dir := by
    rw [serving.maps.at leads here, Option.some.injEq, entry_eq_dir, under_iff_begins wf leads way]
  have apart : n.parent ≠ some dir ↔ (path ≠ [] → p ≠ path.dropLast) := by
    constructor
    · rintro other nonempty rfl
      have below : id ≠ t.root := by
        rintro rfl
        exact nonempty (wf.names_of_root leads)
      obtain ⟨init, n', q, rfl, here', parent, before⟩ := leads.last_name below
      cases here.symm.trans here'
      rw [List.dropLast_concat] at way
      exact other (parent.trans (congrArg some (before.unique wf way)))
    · intro other parent
      obtain ⟨init, n', q, rfl, here', parent', before⟩ := leads.last_name (wf.ne_root here parent)
      cases here.symm.trans here'
      cases parent.symm.trans parent'
      refine other (List.concat_ne_nil _ _) ?_
      rw [List.dropLast_concat]
      exact way.names_unique wf.toRooted before
  constructor
  · rintro ⟨n', d', here', there', kind, other, out⟩
    cases here.symm.trans here'
    cases there.symm.trans there'
    exact ⟨directory.mpr kind, apart.mp other, fun no => out (inside.mp no)⟩
  · rintro ⟨kind, other, out⟩
    exact ⟨n, d, here, there, directory.mp kind, apart.mpr other, fun no => out (inside.mpr no)⟩

/-- The directories that an entry can be moved to, by their paths. -/
theorem movable_of_lists (serving : Serving usr fs t h v) {path : List Str} {id : Nat}
    (leads : t.Leads t.root path id) {entries : List DirEntry} (lists : ListsMovable t id entries) :
    MovableDirs usr fs.entries path entries := by
  have wf := serving.records.wf
  obtain ⟨dirs, nodup, movable, shows⟩ := lists
  let Shown (dir : Nat) (shown : DirEntry) : Prop :=
    ∃ p, t.Leads t.root p dir ∧ shown = ⟨shownPath usr p, true⟩
  have unique : Relator.BiUnique Shown := by
    constructor
    · rintro a c b ⟨p, first, rfl⟩ ⟨q, second, same⟩
      obtain rfl := shown_injective serving.records first second (congrArg DirEntry.name same)
      exact first.unique wf second
    · rintro a b c ⟨p, first, rfl⟩ ⟨q, second, rfl⟩
      rw [first.names_unique wf.toRooted second]
  have each : List.Forall₂ Shown dirs entries := by
    refine shows.imp ?_
    rintro dir ⟨name, isDir⟩ ⟨isPath, kind⟩
    obtain ⟨names, way, spelled⟩ := isPath.names serving.records.top
    refine ⟨names, way, ?_⟩
    simp only at kind spelled
    rw [kind, spelled]
    rfl
  refine ⟨(List.rel_nodup unique each).mp nodup, fun shown => ?_⟩
  constructor
  · intro mem
    obtain ⟨i, bound, rfl⟩ := List.getElem_of_mem mem
    obtain ⟨length, at_index⟩ := List.forall₂_iff_get.mp each
    obtain ⟨p, way, same⟩ := at_index i (length ▸ bound) bound
    have known := (movable _).mp (List.get_mem dirs ⟨i, length ▸ bound⟩)
    obtain ⟨kind, other, out⟩ := (movable_iff serving leads way).mp known
    exact ⟨p, kind, same, other, out⟩
  · rintro ⟨p, kind, rfl, other, out⟩
    obtain ⟨dir, d, way, there, -⟩ := (serving.maps p _).mp kind
    refine (List.rel_mem unique ⟨p, way, rfl⟩ each).mp ((movable dir).mpr ?_)
    exact (movable_iff serving leads way).mpr ⟨kind, other, out⟩

theorem reaches_movable (serving : Serving usr fs t h v) (enough : INT_MAX < env.fuel) {path : Str}
    (direct : Direct path) : (handleQueryAllMovableDir env path h begun).Reaches False (Amid usr) v
      (Performed usr fs ⟨.queryAllDir, .queryAllFileToMove path⟩) := by
  by_cases there : fs.entries (components path) = none
  · obtain ⟨parentDir, name, looked⟩ := serving.not_found there
    rw [handleQueryAllMovableDir, if_neg (by rw [serving.exact.root]; exact Option.some_ne_none _)]
    refine reaches_ofOption looked ?_
    rw [if_pos (by simp)]
    refine serving.unchanged ?_
    rw [serving.ready.user]
    exact .unmovable there
  · obtain ⟨id, n, p, name, here, leads, entryAt, -⟩ := serving.looked direct there
    obtain ⟨entries, run, lists⟩ := movable_exact serving.records.wf serving.exact.toHolds enough
      entryAt begun
    rw [run]
    refine serving.unchanged ?_
    rw [serving.ready.user]
    exact .movable there (movable_of_lists serving leads lists)

end Queries

/-! Requests -/

section Requests
variable {usr : Str} {fs : UserFiles} {v : Values} {env : Env} {req : StorageServiceReq}

theorem reaches_request {t : Tree} {h : Handler} (serving : Serving usr fs t h v)
    (enough : INT_MAX < env.fuel) (regular : Regular fs.made req) :
    (handleRequest env h req).Reaches False (Amid usr) v (Performed usr fs req) := by
  rw [Regular.eq_def] at regular
  split at regular
  · exact reaches_creation serving enough rfl regular.1 regular.2
  · exact reaches_creation serving enough rfl regular.1 regular.2
  · exact reaches_rename serving enough (.inl rfl) regular.1 regular.2
  · exact reaches_rename serving enough (.inr rfl) regular.1 regular.2
  · exact reaches_move serving enough (.inl rfl) regular.1 regular.2
  · exact reaches_move serving enough (.inr rfl) regular.1 regular.2
  · exact reaches_download serving regular
  · exact reaches_delete serving enough (.inl rfl) regular
  · exact reaches_delete serving enough (.inr rfl) regular
  · exact reaches_query serving enough regular
  · exact reaches_movable serving enough regular
  · exact regular.elim

/-- The service performs a request on the files that are stored. -/
theorem reaches_serve (stores : Stores usr fs v) (enough : INT_MAX < env.fuel) (fd : Int)
    (regular : Regular fs.made req) :
    (serve env usr fd req).Reaches False (Amid usr) v fun w resp =>
      ∃ fs', Performs usr fs req resp fs' ∧ Stores usr fs' w := by
  obtain ⟨t, records, maps⟩ := stores
  rw [serve]
  refine reaches_open records enough fd fun h w same ready => ?_
  have serving : Serving usr fs t h w :=
    ⟨records.same same, maps.congr fun id _ _ _ => same _ (ofStorage_id id), ready⟩
  exact reaches_bind ((reaches_request serving enough regular).mono fun w' r performed => performed)

end Requests

/-! One request after the other -/

/-- The requests of a user, each with a handler of its own. -/
def serveAll (usr : Str) : List (Env × Int × StorageServiceReq) → Service (List StorageServiceResp)
  | [] => .done []
  | (env, fd, req) :: rest =>
    (serve env usr fd req).bind fun resp => (serveAll usr rest).bind fun later =>
      .done (resp :: later)

section Sessions
variable {usr : Str} {fs : UserFiles} {v : Values} {reqs : List (Env × Int × StorageServiceReq)}

/-- The requests of a session are regular, also where every one of them makes an entry. -/
def AllRegular (made : Nat) (reqs : List (Env × Int × StorageServiceReq)) : Prop :=
  ∀ r ∈ reqs, INT_MAX < r.1.fuel ∧ Regular (made + reqs.length - 1) r.2.2

theorem AllRegular.tail {made made' : Nat} {r : Env × Int × StorageServiceReq}
    (regular : AllRegular made (r :: reqs)) (more : made' ≤ made + 1) : AllRegular made' reqs := by
  intro q mem
  obtain ⟨enough, fits⟩ := regular q (List.mem_cons_of_mem _ mem)
  refine ⟨enough, regular_earlier fits ?_⟩
  rw [List.length_cons]
  omega

theorem reaches_serveAll (stores : Stores usr fs v) (regular : AllRegular fs.made reqs) :
    (serveAll usr reqs).Reaches False (Amid usr) v fun w resps =>
      ∃ fs', PerformsAll usr fs (reqs.map fun r => r.2.2) resps fs' ∧ Stores usr fs' w := by
  induction reqs generalizing fs v with
  | nil => exact ⟨fs, .nil, stores⟩
  | cons r reqs ih =>
    obtain ⟨enough, fits⟩ := regular r List.mem_cons_self
    have first := regular_earlier fits (Nat.le_add_right fs.made reqs.length)
    refine reaches_bind ((reaches_serve stores enough r.2.1 first).mono ?_)
    rintro w resp ⟨fs', performs, stores'⟩
    refine reaches_bind ((ih stores' (regular.tail (performs_made performs))).mono ?_)
    rintro w' resps ⟨fs'', later, stores''⟩
    exact ⟨fs'', .cons performs later, stores''⟩

/-- What is uploaded into a folder is downloaded later, whatever is requested between, as long as
nothing on the way to the file is moved, renamed, replaced or deleted. -/
theorem download_after_upload {path content : Str} {env env' : Env} {fd fd' : Int}
    (stores : Stores usr fs v) (regular : AllRegular fs.made
      ((env, fd, ⟨.fileUpload, .fileUploadReq path content⟩) ::
        (reqs ++ [(env', fd', ⟨.fileDownload, .fileDownloadReq path⟩)])))
    (named : ¬ Trailing path) (folder : fs.entries (components path).dropLast = some .dir)
    (free : fs.entries (components path) = none) (nonempty : content ≠ [])
    (apart : ∀ r ∈ reqs, ¬ Touches (components path) r.2.2) :
    (serveAll usr ((env, fd, ⟨.fileUpload, .fileUploadReq path content⟩) ::
      (reqs ++ [(env', fd', ⟨.fileDownload, .fileDownloadReq path⟩)]))).Reaches False (Amid usr) v
        fun _ resps => ∃ between, resps = succeeded usr .notSet ::
          (between ++ [succeeded usr (.fileDownload content)]) := by
  refine (reaches_serveAll stores regular).mono ?_
  rintro w resps ⟨fs', performs, -⟩
  rw [List.map_cons, List.map_append, List.map_singleton] at performs
  cases performs with
  | cons first rest =>
    obtain ⟨rfl, there⟩ := uploaded first named folder free
    obtain ⟨between, last, fs₂, rfl, middle, final⟩ := performsAll_append rest
    have still := middle.untouched there (List.forall_mem_map.mpr apart)
    cases final with
    | cons got ends =>
      cases ends
      rw [downloaded got still nonempty]
      exact ⟨between, rfl⟩

/-- What is stored of a user who has just signed up. -/
def signedUp (usr : Str) : Values := fun user key =>
  if user = usr ∧ key = kMetadataFp then SharedMetadata.initialMetadata usr else []

theorem stores_signedUp (nonempty : usr ≠ []) (letters : ∀ c ∈ usr, pathChar c = true ∧ c ≠ '/') :
    Stores usr noFiles (signedUp usr) :=
  stores_noFiles nonempty letters (if_pos ⟨rfl, rfl⟩) fun id =>
    if_neg fun no => metadata_ne_decimal id no.2

/-- A new user uploads a file, makes a folder and downloads the file. -/
theorem download_of_new_file : (serveAll "bob".toList
    [(deepEnv, 3, ⟨.fileUpload, .fileUploadReq "/f".toList "x".toList⟩),
      (deepEnv, 3, ⟨.dirCreate, .dirCreateOrQueryReq "/d".toList⟩),
      (deepEnv, 3, ⟨.fileDownload, .fileDownloadReq "/f".toList⟩)]).Reaches False (Amid "bob".toList)
    (signedUp "bob".toList) fun _ resps => ∃ between, resps = succeeded "bob".toList .notSet ::
      (between ++ [succeeded "bob".toList (.fileDownload "x".toList)]) := by
  have enough : INT_MAX < deepEnv.fuel := Nat.lt_succ_self INT_MAX
  have apart : ∀ r ∈ [(deepEnv, (3 : Int), (⟨.dirCreate, .dirCreateOrQueryReq "/d".toList⟩ :
      StorageServiceReq))], ¬ Touches (components "/f".toList) r.2.2 := by
    intro r mem
    obtain rfl := List.mem_singleton.mp mem
    exact id
  refine download_after_upload (stores_signedUp (by decide) (by decide)) ?_ (by decide) (by decide)
    (by decide) (by decide) apart
  intro r mem
  simp only [List.singleton_append, List.mem_cons, List.not_mem_nil, or_false] at mem
  rcases mem with rfl | rfl | rfl
  · exact ⟨enough, by decide, by decide⟩
  · exact ⟨enough, by decide, by decide⟩
  · exact ⟨enough, fun trailing => absurd trailing (by decide)⟩

end Sessions

end ServedFiles
