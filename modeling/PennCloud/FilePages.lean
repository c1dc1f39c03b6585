import PennCloud.FormBodies
import PennCloud.ServedFiles

/-!
# The page of a folder

`display_files` of `storage_reply.h`: the rows of the page of a folder. The paths in a row are those
that the forms of the page send back.
-/

namespace FilePages

open Text KvInterface StorageMetadata StorageHandler Dialogue StorageTree PathMaps FileService
  StoredFiles FormBodies
open ServedFiles (reaches_serve mapM_some)

/-- What the page says of an entry. -/
structure Row where
  index : Nat
  folderPath : Str
  filename : Str
  isDir : Bool
  options : List Str

/-- The path of the folder in the path of the page. -/
def currentDir (reqPath : Str) : Str := if 5 < reqPath.length then reqPath.drop 5 else "/".toList

/-- What follows the name of the user, `none` where it throws. Where the name is not there, `npos` and
its length are one less than its length. -/
def belowUser (usr name : Str) : Option Str :=
  substrFrom name (((find usr name).map (· + usr.length)).getD (usr.length - 1))

/-- The directories that an entry is offered to be moved to. -/
def moveOptions (usr : Str) (resp : StorageServiceResp) : Option (List Str) :=
  match resp.body with
  | .movableDirs entries =>
    (entries.mapM fun entry => belowUser usr entry.name).map fun paths => paths.filter (· ≠ [])
  | _ => some []

/-- The loop over the entries. Each query is made by a handler of its own. -/
def displayEntries (env : Nat → Env) (usr : Str) (fd : Int) : Nat → List DirEntry → Service (List Row)
  | _, [] => .done []
  | idx, entry :: later =>
    (ofOption (belowUser usr entry.name)).bind fun folderPath =>
      (serve (env idx) usr fd ⟨.queryAllDir, .queryAllFileToMove folderPath⟩).bind fun movable =>
        (ofOption (moveOptions usr movable)).bind fun options =>
          (displayEntries env usr fd (idx + 1) later).bind fun rows =>
            .done (⟨idx, folderPath, lastName entry.name, entry.isDir, options⟩ :: rows)

def displayFiles (env : Nat → Env) (usr : Str) (fd : Int) (reqPath : Str) : Service (List Row) :=
  (serve (env 0) usr fd ⟨.dirQuery, .dirCreateOrQueryReq (currentDir reqPath)⟩).bind fun resp =>
    if resp.getStatus = .success then
      match resp.body with
      | .dirInfo _ entries => displayEntries env usr fd 1 entries
      | _ => .done []
    else .done []

/-! What a page is for -/

/-- The row is that of an entry of the folder: its path leads to the entry, and the options are the
other directories below the root folder that do not stand in the entry. -/
structure ShowsEntry (e : Entries Str Str) (path : List Str) (name : Str) (row : Row) : Prop where
  named : row.filename = name
  spelled : row.folderPath = slashed (path ++ [name])
  direct : ¬ Trailing row.folderPath
  leads : components row.folderPath = path ++ [name]
  kind : row.isDir = true ↔ e (path ++ [name]) = some .dir
  nodup : row.options.Nodup
  options : ∀ o, o ∈ row.options ↔ ∃ d, d ≠ [] ∧ e d = some .dir ∧ o = slashed d ∧
    components o = d ∧ d ≠ path ∧ ¬ path ++ [name] <+: d

/-- The rows of the page of a folder: every entry has one, and they are numbered. -/
structure Page (e : Entries Str Str) (path : List Str) (rows : List Row) : Prop where
  numbered : rows.map Row.index = List.range' 1 rows.length
  distinct : (rows.map Row.filename).Nodup
  sound : ∀ row ∈ rows, e (path ++ [row.filename]) ≠ none ∧ ShowsEntry e path row.filename row
  complete : ∀ name, e (path ++ [name]) ≠ none → ∃ row ∈ rows, row.filename = name

/-! Paths on the page -/

section Paths
variable {usr : Str} {fs : UserFiles} {v : Values} {path : List Str}

theorem plain_usr (stores : Stores usr fs v) : Plain usr := by
  obtain ⟨t, records, -⟩ := stores
  exact plain_of_named records.named records.top

theorem plain_path (stores : Stores usr fs v) (there : fs.entries path ≠ none) :
    ∀ name ∈ path, Plain name := by
  obtain ⟨t, records, maps⟩ := stores
  obtain ⟨id, leads⟩ := (known_iff records maps).mp there
  intro name mem
  obtain ⟨c, n, here, rfl, -⟩ := leads.mem mem
  exact plain_of_named records.named here

/-- What something stands in is a directory. -/
theorem above_entry (stores : Stores usr fs v) {rest : List Str}
    (there : fs.entries (path ++ rest) ≠ none) (below : rest ≠ []) :
    fs.entries path = some .dir := by
  obtain ⟨t, records, maps⟩ := stores
  obtain ⟨id, leads⟩ := (known_iff records maps).mp there
  obtain ⟨b, before, after⟩ := leads.of_append
  cases after with
  | here => exact absurd rfl below
  | step child parent later =>
    obtain ⟨o, above, directory⟩ := records.wf.directory child parent
    rw [maps.at before above, Node.entry, directory]
    rfl

theorem belowUser_shown (plain : Plain usr) (path : List Str) :
    belowUser usr (shownPath usr path) = some (slashed path) := by
  obtain ⟨nonempty, noSlash⟩ := plain
  have spelled : shownPath usr path = ['/'] ++ (usr ++ slashed path) := rfl
  have found : find usr (['/'] ++ (usr ++ slashed path)) = some 1 := by
    refine find_after fun a b same more here => ?_
    obtain ⟨first, rest, rfl⟩ := List.exists_cons_of_ne_nil nonempty
    obtain ⟨c, b, rfl⟩ := List.exists_cons_of_ne_nil more
    have slash : c = '/' := by
      have mem : c ∈ ['/'] := by
        rw [same]
        simp
      exact List.mem_singleton.mp mem
    obtain ⟨t, begins⟩ := here
    have head : first = c := (List.cons.inj begins).1
    exact noSlash (by simp [head, slash])
  have length : (['/'] ++ usr).length = 1 + usr.length := by simp [Nat.add_comm]
  rw [belowUser, spelled, found, Option.map_some, Option.getD_some, ← length, ← List.append_assoc]
  refine Pattern.substr_append _ _ ?_
  rw [List.length_append]
  omega

/-- The options for an entry, from the directories that it can be moved to. -/
theorem options_of_movable (stores : Stores usr fs v) {name : Str} {entries : List DirEntry}
    (lists : MovableDirs usr fs.entries (path ++ [name]) entries) {resp : StorageServiceResp}
    (body : resp.body = .movableDirs entries) : ∃ options, moveOptions usr resp = some options ∧
      options.Nodup ∧ ∀ o, o ∈ options ↔ ∃ d, d ≠ [] ∧ fs.entries d = some .dir ∧ o = slashed d ∧
        components o = d ∧ d ≠ path ∧ ¬ path ++ [name] <+: d := by
  obtain ⟨distinct, listed⟩ := lists
  have nonempty : path ++ [name] ≠ [] := by simp
  have each : ∀ entry ∈ entries, ∃ d, fs.entries d = some .dir ∧ entry = ⟨shownPath usr d, true⟩ ∧
      belowUser usr entry.name = some (slashed d) ∧ components (slashed d) = d := by
    intro entry mem
    obtain ⟨d, directory, rfl, -, -⟩ := (listed entry).mp mem
    have plain := plain_path stores (by rw [directory]; nofun)
    exact ⟨d, directory, rfl, belowUser_shown (plain_usr stores) d, components_slashed plain⟩
  -- a file has nothing below it, so the second clause of the list is about folders only
  have outside : ∀ d, fs.entries d = some .dir → (path ++ [name] <+: d ↔
      fs.entries (path ++ [name]) = some .dir ∧ path ++ [name] <+: d) := by
    intro d directory
    constructor
    · rintro ⟨rest, rfl⟩
      refine ⟨?_, List.prefix_append _ _⟩
      by_cases own : rest = []
      · rw [own, List.append_nil] at directory
        exact directory
      · exact above_entry stores (by rw [directory]; nofun) own
    · exact And.right
  let spelled (entry : DirEntry) : Str := (belowUser usr entry.name).getD []
  have computed : ∀ entry ∈ entries, belowUser usr entry.name = some (spelled entry) := by
    intro entry mem
    obtain ⟨d, -, -, found, -⟩ := each entry mem
    simp only [spelled, found, Option.getD_some]
  refine ⟨(entries.map spelled).filter (· ≠ []), ?_, ?_, fun o => ?_⟩
  · rw [moveOptions, body]
    simp only [mapM_some computed, Option.map_some]
  · refine (List.Nodup.map_on ?_ distinct).filter _
    intro a first b second alike
    obtain ⟨d, -, rfl, found, back⟩ := each a first
    obtain ⟨d', -, rfl, found', back'⟩ := each b second
    simp only [spelled, found, found', Option.getD_some] at alike
    rw [← back, alike, back']
  · rw [List.mem_filter, List.mem_map]
    constructor
    · rintro ⟨⟨entry, mem, rfl⟩, more⟩
      obtain ⟨d, directory, rfl, apart, out⟩ := (listed entry).mp mem
      have plain := plain_path stores (by rw [directory]; nofun : fs.entries d ≠ none)
      have shown : spelled ⟨shownPath usr d, true⟩ = slashed d := by
        simp only [spelled, belowUser_shown (plain_usr stores), Option.getD_some]
      rw [shown] at more ⊢
      have below : d ≠ [] := by
        rintro rfl
        simp at more
      refine ⟨d, below, directory, rfl, components_slashed plain, ?_, ?_⟩
      · intro parent
        refine apart nonempty ?_
        rw [parent, List.dropLast_concat]
      · intro inside
        exact out ((outside d directory).mp inside)
    · rintro ⟨d, below, directory, rfl, -, apart, out⟩
      have mem : (⟨shownPath usr d, true⟩ : DirEntry) ∈ entries := by
        refine (listed _).mpr ⟨d, directory, rfl, fun _ => ?_, fun no => out no.2⟩
        rw [List.dropLast_concat]
        exact apart
      refine ⟨⟨_, mem, ?_⟩, ?_⟩
      · simp only [spelled, belowUser_shown (plain_usr stores), Option.getD_some]
      · obtain ⟨first, rest, rfl⟩ := List.exists_cons_of_ne_nil below
        simp

theorem lastName_slashed (path : List Str) {name : Str} (plain : Plain name) :
    lastName (slashed (path ++ [name])) = name := by
  have spelled : slashed (path ++ [name]) = slashed path ++ '/' :: name := by
    rw [slashed_append]
    simp
  have letters : ∀ c ∈ name.reverse, decide (c ≠ '/') = true := by
    intro c mem
    refine decide_eq_true ?_
    rintro rfl
    exact plain.2 (List.mem_reverse.mp mem)
  rw [lastName, spelled, List.reverse_append, List.reverse_cons, List.append_assoc,
    List.takeWhile_append_of_pos letters]
  simp

theorem lastName_shown (path : List Str) {name : Str} (plain : Plain name) :
    lastName (shownPath usr (path ++ [name])) = name := lastName_slashed (usr :: path) plain

end Paths

theorem not_trailing_of_plain {names : List Str} (below : names ≠ []) (plain : ∀ name ∈ names, Plain name) :
    ¬ Trailing (slashed names) := by
  rcases List.eq_nil_or_concat names with rfl | ⟨init, last, rfl⟩
  · exact absurd rfl below
  · rw [List.concat_eq_append] at plain ⊢
    obtain ⟨before, final⟩ := List.forall_mem_append.mp plain
    exact not_trailing_slashed before (final last (List.mem_singleton_self last))

/-! The loop over the entries -/

section Rows
variable {usr : Str} {fs : UserFiles} {v : Values} {path : List Str} {env : Nat → Env}

/-- Entries of the folder as a query answers them. -/
def FromFolder (usr : Str) (e : Entries Str Str) (path : List Str) (entry : DirEntry) (name : Str) :
    Prop := ∃ k, e (path ++ [name]) = some k ∧ entry = ⟨shownPath usr (path ++ [name]), k = .dir⟩

/-- What a query for the directories that an entry can be moved to answers. -/
theorem movable_of_performs {p : Str} {resp : StorageServiceResp} {fs' : UserFiles}
    (performs : Performs usr fs ⟨.queryAllDir, .queryAllFileToMove p⟩ resp fs')
    (there : fs.entries (components p) ≠ none) : fs' = fs ∧ ∃ entries,
      resp.body = .movableDirs entries ∧ MovableDirs usr fs.entries (components p) entries := by
  cases performs with
  | unknown about => cases about
  | taken makes | orphan makes | made makes | vanished makes => cases makes
  | unmovable missing => exact absurd missing there
  | movable known lists => exact ⟨rfl, _, rfl, lists⟩

theorem reaches_displayEntries (stores : Stores usr fs v) (enough : ∀ i, INT_MAX < (env i).fuel)
    (fd : Int) (idx : Nat) {entries : List DirEntry} {names : List Str}
    (folder : List.Forall₂ (FromFolder usr fs.entries path) entries names) :
    (displayEntries env usr fd idx entries).Reaches False (Amid usr) v fun w rows =>
      Stores usr fs w ∧ rows.map Row.index = List.range' idx rows.length ∧
        List.Forall₂ (ShowsEntry fs.entries path) names rows := by
  induction folder generalizing idx v with
  | nil => exact ⟨stores, rfl, .nil⟩
  | @cons entry name entries names here later ih =>
    obtain ⟨k, there, rfl⟩ := here
    have known : fs.entries (path ++ [name]) ≠ none := by
      rw [there]
      nofun
    have plain := plain_path stores known
    obtain ⟨before, last⟩ := List.forall_mem_append.mp plain
    have own : Plain name := last name (List.mem_singleton_self name)
    have spelled := components_slashed plain
    have direct : ¬ Trailing (slashed (path ++ [name])) := not_trailing_slashed before own
    have found : fs.entries (components (slashed (path ++ [name]))) ≠ none := by
      rw [spelled]
      exact known
    refine reaches_ofOption (belowUser_shown (plain_usr stores) _) ?_
    have regular : Regular fs.made ⟨.queryAllDir, .queryAllFileToMove (slashed (path ++ [name]))⟩ :=
      fun trailing => absurd trailing direct
    refine reaches_bind ((reaches_serve stores (enough idx) fd regular).mono ?_)
    rintro w resp ⟨fs', performs, stores'⟩
    obtain ⟨rfl, dirs, body, lists⟩ := movable_of_performs performs found
    rw [spelled] at lists
    obtain ⟨options, computed, nodup, offers⟩ := options_of_movable stores lists body
    refine reaches_ofOption computed (reaches_bind ((ih stores' (idx + 1)).mono ?_))
    rintro w' rows ⟨kept, numbered, shows⟩
    refine ⟨kept, ?_,
      .cons ⟨lastName_shown path own, rfl, direct, spelled, ?_, nodup, offers⟩ shows⟩
    · rw [List.map_cons, numbered, List.length_cons, List.range'_succ]
    · rw [there]
      simp

/-- The names of the entries that a query lists. -/
theorem names_of_listing (stores : Stores usr fs v) {entries : List DirEntry}
    (lists : Listing usr fs.entries path entries) : ∃ names,
      List.Forall₂ (FromFolder usr fs.entries path) entries names ∧ names.Nodup ∧
        ∀ name, name ∈ names ↔ fs.entries (path ++ [name]) ≠ none := by
  obtain ⟨distinct, listed⟩ := lists
  have last : ∀ {name k}, fs.entries (path ++ [name]) = some k →
      lastName (shownPath usr (path ++ [name])) = name := by
    intro name k there
    have plain := plain_path stores (by rw [there]; nofun : fs.entries (path ++ [name]) ≠ none)
    exact lastName_shown path (plain name (by simp))
  refine ⟨entries.map fun entry => lastName entry.name, ?_, ?_, fun name => ?_⟩
  · rw [List.forall₂_map_right_iff, List.forall₂_same]
    intro entry mem
    obtain ⟨name, k, there, rfl⟩ := (listed entry).mp mem
    rw [last there]
    exact ⟨k, there, rfl⟩
  · refine List.Nodup.map_on ?_ distinct
    intro a first b second alike
    obtain ⟨name, k, there, rfl⟩ := (listed a).mp first
    obtain ⟨name', k', there', rfl⟩ := (listed b).mp second
    simp only [last there, last there'] at alike
    obtain rfl := alike
    cases there.symm.trans there'
    rfl
  · rw [List.mem_map]
    constructor
    · rintro ⟨entry, mem, rfl⟩
      obtain ⟨name, k, there, rfl⟩ := (listed entry).mp mem
      rw [last there, there]
      nofun
    · intro known
      obtain ⟨k, there⟩ := Option.ne_none_iff_exists'.mp known
      exact ⟨_, (listed _).mpr ⟨name, k, there, rfl⟩, last there⟩

theorem page_of_rows {e : Entries Str Str} {names : List Str} {rows : List Row}
    (numbered : rows.map Row.index = List.range' 1 rows.length) (nodup : names.Nodup)
    (all : ∀ name, name ∈ names ↔ e (path ++ [name]) ≠ none)
    (shows : List.Forall₂ (ShowsEntry e path) names rows) : Page e path rows := by
  have filenames : rows.map Row.filename = names := by
    clear numbered nodup all
    induction shows with
    | nil => rfl
    | cons here later ih => rw [List.map_cons, here.named, ih]
  refine ⟨numbered, filenames ▸ nodup, fun row mem => ?_, fun name there => ?_⟩
  · obtain ⟨i, bound, rfl⟩ := List.getElem_of_mem mem
    obtain ⟨length, at_index⟩ := List.forall₂_iff_get.mp shows
    have shown := at_index i (length ▸ bound) bound
    have named : rows[i].filename = names.get ⟨i, length ▸ bound⟩ := shown.named
    rw [named]
    exact ⟨(all _).mp (List.get_mem _ _), shown⟩
  · have mem := (all name).mpr there
    rw [← filenames] at mem
    exact List.mem_map.mp mem

/-- A move that the page offers is done. -/
theorem offered_moves {name : Str} {row : Row} (shows : ShowsEntry fs.entries path name row)
    (known : fs.entries (path ++ [name]) ≠ none) (own : Plain name) {o : Str}
    (offered : o ∈ row.options) {type : StorageServiceType} {resp : StorageServiceResp}
    {fs' : UserFiles} (kind : type = .fileMove ∨ type = .dirMove)
    (performs : Performs usr fs ⟨type, .moveReq row.folderPath o⟩ resp fs') :
    resp = succeeded usr .notSet ∧
      fs' = ⟨relocate fs.entries (path ++ [name]) (components o ++ [name]), fs.made⟩ := by
  obtain ⟨d, -, directory, -, rfl, -, out⟩ := (shows.options o).mp offered
  have leads := shows.leads
  rw [← leads] at known
  cases performs with
  | unknown about missing =>
    rcases kind with rfl | rfl
    · cases about
      exact absurd missing known
    · cases about
      exact absurd missing known
  | taken makes | orphan makes | made makes | vanished makes =>
    rcases kind with rfl | rfl <;> cases makes
  | nowhere _ _ missing =>
    rw [missing] at directory
    cases directory
  | moved =>
    have last : lastName row.folderPath = name := by
      rw [shows.spelled]
      exact lastName_slashed path own
    rw [leads, last]
    exact ⟨rfl, rfl⟩
  | lost _ _ _ inside =>
    rw [leads] at inside
    rcases inside with other | within
    · exact absurd directory other
    · exact absurd within out

/-- The page of a folder has a row for each entry, whose path leads there, and every move that it
offers is done when it is asked for. -/
theorem page_and_moves (stores : Stores usr fs v) (enough : ∀ i, INT_MAX < (env i).fuel) (fd : Int)
    {reqPath : Str} (direct : Direct (currentDir reqPath))
    (there : fs.entries (components (currentDir reqPath)) ≠ none) :
    (displayFiles env usr fd reqPath).Reaches False (Amid usr) v fun w rows =>
      Page fs.entries (components (currentDir reqPath)) rows ∧
      ∀ row ∈ rows, ∀ o ∈ row.options, ∀ type, type = .fileMove ∨ type = .dirMove →
        (serve (env 0) usr fd ⟨type, .moveReq row.folderPath o⟩).Reaches False (Amid usr) w
          fun w' resp => resp = succeeded usr .notSet ∧
            Stores usr ⟨relocate fs.entries (components row.folderPath)
              (components o ++ [row.filename]), fs.made⟩ w' := by
  have regular : Regular fs.made ⟨.dirQuery, .dirCreateOrQueryReq (currentDir reqPath)⟩ := direct
  refine reaches_bind ((reaches_serve stores (enough 0) fd regular).mono ?_)
  rintro w resp ⟨fs', performs, stores'⟩
  cases performs with
  | unknown about missing =>
    cases about
    exact absurd missing there
  | taken makes | orphan makes | made makes | vanished makes => cases makes
  | @listed _ entries known lists =>
    obtain ⟨names, folder, nodup, all⟩ := names_of_listing stores lists
    refine (reaches_displayEntries stores' enough fd 1 folder).mono ?_
    rintro w' rows ⟨kept, numbered, shows⟩
    have page := page_of_rows numbered nodup all shows
    refine ⟨page, fun row mem o offered type kind => ?_⟩
    obtain ⟨known, shown⟩ := page.sound row mem
    have own : Plain row.filename := plain_path stores known _ (by simp)
    obtain ⟨d, below, directory, rfl, -⟩ := (shown.options o).mp offered
    have newDir : ¬ Trailing (slashed d) := not_trailing_of_plain below
      (plain_path stores (by rw [directory]; nofun))
    have regular : Regular fs.made ⟨type, .moveReq row.folderPath (slashed d)⟩ := by
      rcases kind with rfl | rfl
      · exact ⟨shown.direct, fun trailing => absurd trailing newDir⟩
      · exact ⟨shown.direct, fun trailing => absurd trailing newDir⟩
    refine (reaches_serve kept (enough 0) fd regular).mono ?_
    rintro w'' resp' ⟨fs'', performs', after⟩
    obtain ⟨answer, rfl⟩ := offered_moves shown known own offered kind performs'
    rw [shown.leads]
    exact ⟨answer, after⟩

end Rows

/-- A new user makes a folder, uploads a file and opens the page: it offers to move the file into
the folder, and that is done when it is asked for. -/
theorem page_of_new_user : ((ServedFiles.serveAll "bob".toList
    [(MetadataRoundTrip.deepEnv, 3, ⟨.dirCreate, .dirCreateOrQueryReq "/d".toList⟩),
      (MetadataRoundTrip.deepEnv, 3, ⟨.fileUpload, .fileUploadReq "/f".toList "x".toList⟩)]).bind
    fun _ => displayFiles (fun _ => MetadataRoundTrip.deepEnv) "bob".toList 3 "/file".toList).Reaches
      False (Amid "bob".toList) (ServedFiles.signedUp "bob".toList) fun w rows => ∃ row ∈ rows,
        components row.folderPath = [['f']] ∧ "/d".toList ∈ row.options ∧
        (serve MetadataRoundTrip.deepEnv "bob".toList 3
          ⟨.fileMove, .moveReq row.folderPath "/d".toList⟩).Reaches False (Amid "bob".toList) w
            fun w' resp => resp = succeeded "bob".toList .notSet ∧ ∃ fs,
              Stores "bob".toList fs w' ∧ fs.entries [['d'], ['f']] = some (.file "x".toList) := by
  have enough : INT_MAX < MetadataRoundTrip.deepEnv.fuel := Nat.lt_succ_self _
  have signedUp : Stores "bob".toList noFiles (ServedFiles.signedUp "bob".toList) :=
    ServedFiles.stores_signedUp (by decide) (by decide)
  have folder : components "/d".toList = [['d']] := by decide
  have file : components "/f".toList = [['f']] := by decide
  refine reaches_bind ((ServedFiles.reaches_serveAll signedUp ?_).mono ?_)
  · intro r mem
    simp only [List.mem_cons, List.not_mem_nil, or_false] at mem
    rcases mem with rfl | rfl
    · exact ⟨enough, by decide, by decide⟩
    · exact ⟨enough, by decide, by decide⟩
  rintro w resps ⟨fs', performs, stores⟩
  cases performs with
  | cons first rest =>
    obtain ⟨-, rfl⟩ := creation_performed first rfl (by decide) rfl rfl
    cases rest with
    | cons second rest =>
      obtain ⟨-, rfl⟩ := creation_performed second rfl (by decide) rfl rfl
      cases rest
      have top : components (currentDir "/file".toList) = [] := by decide
      have page := page_and_moves stores (fun _ => enough) 3
        (fun _ => by decide : Direct (currentDir "/file".toList)) (by rw [top]; nofun)
      refine page.mono fun w' rows shown => ?_
      rw [top] at shown
      obtain ⟨shown, moves⟩ := shown
      obtain ⟨row, mem, named⟩ := shown.complete ['f'] nofun
      obtain ⟨-, shows⟩ := shown.sound row mem
      rw [named] at shows
      have offered : "/d".toList ∈ row.options :=
        (shows.options _).mpr ⟨[['d']], by decide, rfl, rfl, folder, by decide, by decide⟩
      refine ⟨row, mem, shows.leads, offered, ?_⟩
      refine (moves row mem _ offered _ (.inl rfl)).mono ?_
      rintro w'' resp ⟨answer, stores'⟩
      refine ⟨answer, _, stores', ?_⟩
      rw [shows.leads, folder, named]
      rfl

end FilePages
