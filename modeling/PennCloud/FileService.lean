import PennCloud.FreshIds
import PennCloud.TreeEntries

/-!
# What the storage service does to the files of a user

The files and folders of one user, by their paths, and what each request does to them
and answers. Nothing is said here of ids, metadata texts or the handler. The service
loses files although it answers with SUCCESS, and this is part of it: an entry made
below a file vanishes, what is moved into a file or below itself is lost, and what is
moved or renamed to the path of another entry takes its place.
-/

namespace FileService

open Text StorageMetadata StorageHandler StorageTree PathMaps
open SharedMetadata (creates creationPath validFilename)

/-- The files of a user. -/
structure UserFiles where
  entries : Entries Str Str
  /-- How many entries were ever made, the root folder among them. -/
  made : Nat

/-- No files yet, but the root folder. -/
def noFiles : UserFiles := ⟨fun path => if path = [] then some .dir else none, 1⟩

/-! Answers -/

def succeeded (usr : Str) (body : RespBody) : StorageServiceResp :=
  ⟨some usr, some .success, some [], body⟩

def failed (errorMsg : Str) : StorageServiceResp := ⟨none, some .fail, some errorMsg, .notSet⟩

/-- The path as it is shown: the root folder has the name of the user. -/
def shownPath (usr : Str) (path : List Str) : Str := slashed (usr :: path)

/-- The entries of a directory, each once. -/
def Listing (usr : Str) (e : Entries Str Str) (path : List Str) (entries : List DirEntry) : Prop :=
  entries.Nodup ∧ ∀ shown, shown ∈ entries ↔
    ∃ name k, e (path ++ [name]) = some k ∧ shown = ⟨shownPath usr (path ++ [name]), k = .dir⟩

/-- The directories that an entry can be moved to, each once: not the one that it stands in, and
none of its own. -/
def MovableDirs (usr : Str) (e : Entries Str Str) (path : List Str) (entries : List DirEntry) :
    Prop :=
  entries.Nodup ∧ ∀ shown, shown ∈ entries ↔ ∃ d, e d = some .dir ∧
    shown = ⟨shownPath usr d, true⟩ ∧ (path ≠ [] → d ≠ path.dropLast) ∧
      ¬ (e path = some .dir ∧ path <+: d)

/-! Requests -/

/-- The path that has to exist, and what is said where it does not. -/
def subject : StorageServiceReq → Option (Str × Str)
  | ⟨.fileDownload, .fileDownloadReq path⟩ => some (path, "Failed to find file ".toList)
  | ⟨.fileDele, .deleteReq path⟩ => some (path, "Failed to find file ".toList)
  | ⟨.dirDele, .deleteReq path⟩ => some (path, "Failed to find file ".toList)
  | ⟨.fileRename, .renameReq path _⟩ => some (path, "Failed to find file: ".toList)
  | ⟨.dirRename, .renameReq path _⟩ => some (path, "Failed to find file: ".toList)
  | ⟨.fileMove, .moveReq path _⟩ => some (path, "Failed to find file: ".toList)
  | ⟨.dirMove, .moveReq path _⟩ => some (path, "Failed to find file: ".toList)
  | ⟨.dirQuery, .dirCreateOrQueryReq path⟩ => some (path, "Failed to find file: ".toList)
  | _ => none

/-- The entry that a creation makes. -/
def creation (req : StorageServiceReq) : Entry Str :=
  if req.type = .fileUpload then .file req.uploadContent else .dir

/-- What a request does to the files of the user, and its answer. The cases `vanished` and `lost`,
and the entries that `renamed` and `moved` replace, are losses. -/
inductive Performs (usr : Str) (fs : UserFiles) :
    StorageServiceReq → StorageServiceResp → UserFiles → Prop where
  | unknown {req : StorageServiceReq} {path words : Str} (about : subject req = some (path, words))
      (missing : fs.entries (components path) = none) :
      Performs usr fs req (failed (words ++ path)) fs
  | taken {req : StorageServiceReq} (makes : creates req = true)
      (there : fs.entries (components (creationPath req)) ≠ none) :
      Performs usr fs req (failed ("File or folder already exists: ".toList ++ creationPath req)) fs
  | orphan {req : StorageServiceReq} (makes : creates req = true)
      (missing : fs.entries (components (creationPath req)) = none)
      (lost : Trailing (creationPath req) ∨
        fs.entries (components (creationPath req)).dropLast = none) :
      Performs usr fs req (failed
        ("Failed to upload file due to non-existent parent folder(s): ".toList ++ req.uploadPath)) fs
  | made {req : StorageServiceReq} (makes : creates req = true)
      (named : ¬ Trailing (creationPath req))
      (missing : fs.entries (components (creationPath req)) = none)
      (parent : fs.entries (components (creationPath req)).dropLast = some .dir) :
      Performs usr fs req (succeeded usr .notSet)
        ⟨put fs.entries (components (creationPath req)) (creation req), fs.made + 1⟩
  | vanished {req : StorageServiceReq} {content : Str} (makes : creates req = true)
      (named : ¬ Trailing (creationPath req))
      (parent : fs.entries (components (creationPath req)).dropLast = some (.file content)) :
      Performs usr fs req (succeeded usr .notSet) ⟨fs.entries, fs.made + 1⟩
  | renamed {type : StorageServiceType} {oldPath newName : Str}
      (kind : type = .fileRename ∨ type = .dirRename)
      (there : fs.entries (components oldPath) ≠ none) :
      Performs usr fs ⟨type, .renameReq oldPath newName⟩ (succeeded usr .notSet)
        ⟨relocate fs.entries (components oldPath) ((components oldPath).dropLast ++ [newName]),
          fs.made⟩
  | nowhere {type : StorageServiceType} {path newDir : Str}
      (kind : type = .fileMove ∨ type = .dirMove) (there : fs.entries (components path) ≠ none)
      (missing : fs.entries (components newDir) = none) :
      Performs usr fs ⟨type, .moveReq path newDir⟩
        (failed ("Failed to locate new directory: ".toList ++ newDir)) fs
  | moved {type : StorageServiceType} {path newDir : Str}
      (kind : type = .fileMove ∨ type = .dirMove) (there : fs.entries (components path) ≠ none)
      (target : fs.entries (components newDir) = some .dir)
      (outside : ¬ components path <+: components newDir) :
      Performs usr fs ⟨type, .moveReq path newDir⟩ (succeeded usr .notSet)
        ⟨relocate fs.entries (components path) (components newDir ++ [lastName path]), fs.made⟩
  | lost {type : StorageServiceType} {path newDir : Str}
      (kind : type = .fileMove ∨ type = .dirMove) (there : fs.entries (components path) ≠ none)
      (target : fs.entries (components newDir) ≠ none)
      (inside : fs.entries (components newDir) ≠ some .dir ∨
        components path <+: components newDir) :
      Performs usr fs ⟨type, .moveReq path newDir⟩ (succeeded usr .notSet)
        ⟨remove fs.entries (components path), fs.made⟩
  | deleted {type : StorageServiceType} {path : Str} (kind : type = .fileDele ∨ type = .dirDele)
      (there : fs.entries (components path) ≠ none) (below : components path ≠ []) :
      Performs usr fs ⟨type, .deleteReq path⟩ (succeeded usr .notSet)
        ⟨remove fs.entries (components path), fs.made⟩
  | emptied {type : StorageServiceType} (kind : type = .fileDele ∨ type = .dirDele) :
      Performs usr fs ⟨type, .deleteReq "/".toList⟩ (succeeded usr .notSet)
        ⟨clear fs.entries, fs.made⟩
  | listed {path : Str} {entries : List DirEntry} (there : fs.entries (components path) ≠ none)
      (lists : Listing usr fs.entries (components path) entries) :
      Performs usr fs ⟨.dirQuery, .dirCreateOrQueryReq path⟩
        (succeeded usr (.dirInfo (shownPath usr (components path)) entries)) fs
  | downloaded {path content : Str} (nonempty : content ≠ [])
      (there : fs.entries (components path) = some (.file content)) :
      Performs usr fs ⟨.fileDownload, .fileDownloadReq path⟩
        (succeeded usr (.fileDownload content)) fs
  | blank {path : Str} {resp : StorageServiceResp} (there : fs.entries (components path) = some .dir ∨
        fs.entries (components path) = some (.file []))
      (either : resp = succeeded usr (.fileDownload []) ∨
        resp = failed ("Failed to retrieve content for file ".toList ++ path)) :
      Performs usr fs ⟨.fileDownload, .fileDownloadReq path⟩ resp fs
  | unmovable {path : Str} (missing : fs.entries (components path) = none) :
      Performs usr fs ⟨.queryAllDir, .queryAllFileToMove path⟩
        { failed ("Failed to find file ".toList ++ path) with username := some usr } fs
  | movable {path : Str} {entries : List DirEntry} (there : fs.entries (components path) ≠ none)
      (lists : MovableDirs usr fs.entries (components path) entries) :
      Performs usr fs ⟨.queryAllDir, .queryAllFileToMove path⟩
        { succeeded usr (.movableDirs entries) with errorMsg := some "Invalid request.".toList } fs

/-- The path ends with a slash only as that of the root folder. -/
def Direct (path : Str) : Prop := Trailing path → path = "/".toList

/-- The requests that are spoken of: the fields are those of the type, an entry is only looked up at
a path without a slash after it, the root folder is not moved and not renamed, a new name is one of
the alphabet of the metadata and has no slash, and there is a next id for a new entry. -/
def Regular (made : Nat) : StorageServiceReq → Prop
  | ⟨.fileUpload, .fileUploadReq path _⟩ | ⟨.dirCreate, .dirCreateOrQueryReq path⟩ =>
    made < INT_MAX ∧ validFilename (lastName path) = true
  | ⟨.fileRename, .renameReq path newName⟩ | ⟨.dirRename, .renameReq path newName⟩ =>
    ¬ Trailing path ∧ newName ≠ [] ∧ ∀ c ∈ newName, pathChar c = true ∧ c ≠ '/'
  | ⟨.fileMove, .moveReq path newDir⟩ | ⟨.dirMove, .moveReq path newDir⟩ =>
    ¬ Trailing path ∧ Direct newDir
  | ⟨.fileDownload, .fileDownloadReq path⟩ | ⟨.fileDele, .deleteReq path⟩
  | ⟨.dirDele, .deleteReq path⟩ | ⟨.dirQuery, .dirCreateOrQueryReq path⟩
  | ⟨.queryAllDir, .queryAllFileToMove path⟩ => Direct path
  | _ => False

/-! What a request leaves alone -/

/-- The request may change what stands at the path: it takes away or replaces an entry on the way
to it. -/
def Touches (path : List Str) : StorageServiceReq → Prop
  | ⟨.fileRename, .renameReq oldPath newName⟩ | ⟨.dirRename, .renameReq oldPath newName⟩ =>
    components oldPath <+: path ∨ (components oldPath).dropLast ++ [newName] <+: path
  | ⟨.fileMove, .moveReq source newDir⟩ | ⟨.dirMove, .moveReq source newDir⟩ =>
    components source <+: path ∨ components newDir ++ [lastName source] <+: path
  | ⟨.fileDele, .deleteReq source⟩ | ⟨.dirDele, .deleteReq source⟩ => components source <+: path
  | _ => False

theorem Performs.untouched {usr : Str} {fs fs' : UserFiles} {req : StorageServiceReq}
    {resp : StorageServiceResp} (performs : Performs usr fs req resp fs') {path : List Str}
    {entry : Entry Str} (there : fs.entries path = some entry) (apart : ¬ Touches path req) :
    fs'.entries path = some entry := by
  cases performs with
  | unknown | taken | orphan | vanished | nowhere | listed | downloaded | blank | unmovable
  | movable => exact there
  | made makes named missing parent =>
    have other : path ≠ components (creationPath req) := by
      rintro rfl
      rw [missing] at there
      cases there
    exact (put_apart _ other).trans there
  | renamed kind known =>
    have both := not_or.mp (by rcases kind with rfl | rfl <;> exact apart)
    exact (relocate_apart both.2 both.1).trans there
  | moved kind known target outside =>
    have both := not_or.mp (by rcases kind with rfl | rfl <;> exact apart)
    exact (relocate_apart both.2 both.1).trans there
  | lost kind known target inside =>
    have both := not_or.mp (by rcases kind with rfl | rfl <;> exact apart)
    exact (remove_apart both.1).trans there
  | deleted kind known below =>
    refine (remove_apart ?_).trans there
    rcases kind with rfl | rfl <;> exact apart
  | emptied kind =>
    refine absurd ?_ apart
    have top : components "/".toList <+: path := components_root ▸ List.nil_prefix
    rcases kind with rfl | rfl <;> exact top

/-! One request after the other -/

/-- Requests that are performed one after the other. -/
inductive PerformsAll (usr : Str) :
    UserFiles → List StorageServiceReq → List StorageServiceResp → UserFiles → Prop where
  | nil {fs : UserFiles} : PerformsAll usr fs [] [] fs
  | cons {fs fs' fs'' : UserFiles} {req : StorageServiceReq} {resp : StorageServiceResp}
      {reqs : List StorageServiceReq} {resps : List StorageServiceResp}
      (first : Performs usr fs req resp fs') (rest : PerformsAll usr fs' reqs resps fs'') :
      PerformsAll usr fs (req :: reqs) (resp :: resps) fs''

section Sessions
variable {usr : Str} {fs fs' : UserFiles}

theorem performs_made {req : StorageServiceReq} {resp : StorageServiceResp}
    (performs : Performs usr fs req resp fs') : fs'.made ≤ fs.made + 1 := by
  cases performs <;> simp

theorem regular_earlier {made made' : Nat} {req : StorageServiceReq} (regular : Regular made' req)
    (fewer : made ≤ made') : Regular made req := by
  rw [Regular.eq_def] at regular ⊢
  split at regular
  · exact ⟨lt_of_le_of_lt fewer regular.1, regular.2⟩
  · exact ⟨lt_of_le_of_lt fewer regular.1, regular.2⟩
  all_goals exact regular

theorem performsAll_append {first second : List StorageServiceReq}
    {resps : List StorageServiceResp} (performs : PerformsAll usr fs (first ++ second) resps fs') :
    ∃ resps₁ resps₂ between, resps = resps₁ ++ resps₂ ∧ PerformsAll usr fs first resps₁ between ∧
      PerformsAll usr between second resps₂ fs' := by
  induction first generalizing fs resps with
  | nil => exact ⟨[], resps, fs, rfl, .nil, performs⟩
  | cons req first ih =>
    cases performs with
    | cons one rest =>
      obtain ⟨resps₁, resps₂, between, rfl, before, after⟩ := ih rest
      exact ⟨_ :: resps₁, resps₂, between, rfl, .cons one before, after⟩

theorem PerformsAll.untouched {requests : List StorageServiceReq} {resps : List StorageServiceResp}
    (performs : PerformsAll usr fs requests resps fs') {path : List Str} {entry : Entry Str}
    (there : fs.entries path = some entry) (apart : ∀ req ∈ requests, ¬ Touches path req) :
    fs'.entries path = some entry := by
  induction performs with
  | nil => exact there
  | cons first rest ih =>
    obtain ⟨here, later⟩ := List.forall_mem_cons.mp apart
    exact ih (first.untouched there here) later

theorem subject_of_creates {req : StorageServiceReq} (makes : creates req = true) :
    subject req = none := by
  rw [creates] at makes
  split at makes
  · rename_i type request
    rw [subject.eq_def]
    split
    all_goals first | rfl | cases type
  · rename_i type request
    rw [subject.eq_def]
    split
    all_goals first | rfl | cases type
  · cases makes

/-- A creation in a folder under a free name makes the entry. -/
theorem creation_performed {req : StorageServiceReq} {resp : StorageServiceResp}
    (performs : Performs usr fs req resp fs') (makes : creates req = true)
    (named : ¬ Trailing (creationPath req))
    (folder : fs.entries (components (creationPath req)).dropLast = some .dir)
    (free : fs.entries (components (creationPath req)) = none) :
    resp = succeeded usr .notSet ∧
      fs' = ⟨put fs.entries (components (creationPath req)) (creation req), fs.made + 1⟩ := by
  cases performs with
  | unknown about missing =>
    rw [subject_of_creates makes] at about
    cases about
  | taken makes there => exact absurd free there
  | orphan makes missing lost =>
    rcases lost with trailing | absent
    · exact absurd trailing named
    · rw [folder] at absent
      cases absent
  | made makes named missing parent => exact ⟨rfl, rfl⟩
  | vanished makes named parent =>
    rw [folder] at parent
    cases parent
  | renamed kind | nowhere kind | moved kind | lost kind | deleted kind | emptied kind =>
    rcases kind with rfl | rfl <;> cases makes
  | listed | downloaded | blank | unmovable | movable => cases makes

/-- An upload into a folder makes the file. -/
theorem uploaded {path content : Str} {resp : StorageServiceResp}
    (performs : Performs usr fs ⟨.fileUpload, .fileUploadReq path content⟩ resp fs')
    (named : ¬ Trailing path) (folder : fs.entries (components path).dropLast = some .dir)
    (free : fs.entries (components path) = none) :
    resp = succeeded usr .notSet ∧ fs'.entries (components path) = some (.file content) := by
  obtain ⟨answer, rfl⟩ := creation_performed performs rfl named folder free
  exact ⟨answer, put_self ..⟩

/-- A download of a file that is there and not empty answers its content. -/
theorem downloaded {path content : Str} {resp : StorageServiceResp}
    (performs : Performs usr fs ⟨.fileDownload, .fileDownloadReq path⟩ resp fs')
    (there : fs.entries (components path) = some (.file content)) (nonempty : content ≠ []) :
    resp = succeeded usr (.fileDownload content) := by
  cases performs with
  | unknown about missing =>
    cases about
    rw [there] at missing
    cases missing
  | taken makes => cases makes
  | orphan makes => cases makes
  | made makes => cases makes
  | vanished makes => cases makes
  | downloaded nonempty' there' =>
    cases there.symm.trans there'
    rfl
  | blank blank =>
    rw [there] at blank
    rcases blank with folder | empty
    · cases folder
    · cases empty
      exact absurd rfl nonempty

end Sessions

end FileService
