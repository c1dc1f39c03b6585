import PennCloud.Dialogue
import PennCloud.StorageMetadata

/-!
# The storage service

The second half of `storage.h`: the requests, the responses and their handlers.
A handler is a dialogue with the backend; what it keeps between two calls is
passed on. `max_attempt` counts down to -1, here one more down to zero.
-/

namespace StorageHandler

open Text KvInterface UnorderedMap StorageMetadata

inductive StorageServiceType where
  | fileUpload
  | fileDownload
  | fileRename
  | fileMove
  | fileDele
  | dirCreate
  | dirRename
  | dirMove
  | dirDele
  | dirQuery
  | queryAllDir
  deriving DecidableEq, Repr

/-- The field of the `oneof` that is set. -/
inductive Request where
  | fileUploadReq (path content : Str)
  | fileDownloadReq (path : Str)
  | dirCreateOrQueryReq (path : Str)
  | deleteReq (path : Str)
  | renameReq (oldPath newName : Str)
  | moveReq (path newDir : Str)
  | queryAllFileToMove (path : Str)
  | notSet
  deriving DecidableEq, Repr

structure StorageServiceReq where
  type : StorageServiceType
  request : Request
  deriving DecidableEq, Repr

/-- The path of an upload, read as empty where another field is set. -/
def StorageServiceReq.uploadPath (req : StorageServiceReq) : Str :=
  match req.request with
  | .fileUploadReq path _ => path
  | _ => []

def StorageServiceReq.uploadContent (req : StorageServiceReq) : Str :=
  match req.request with
  | .fileUploadReq _ content => content
  | _ => []

def StorageServiceReq.dirPath (req : StorageServiceReq) : Str :=
  match req.request with
  | .dirCreateOrQueryReq path => path
  | _ => []

inductive Status where
  | success
  | fail
  deriving DecidableEq, Repr

structure DirEntry where
  name : Str
  isDir : Bool
  deriving DecidableEq, Repr

inductive RespBody where
  | notSet
  | fileDownload (content : Str)
  | dirInfo (name : Str) (entries : List DirEntry)
  | movableDirs (entries : List DirEntry)
  deriving DecidableEq, Repr

structure StorageServiceResp where
  username : Option Str := none
  status : Option Status := none
  errorMsg : Option Str := none
  body : RespBody := .notSet
  deriving DecidableEq, Repr

/-- The accessor `status()`, which reads an absent field as the first value declared. -/
def StorageServiceResp.getStatus (resp : StorageServiceResp) : Status :=
  resp.status.getD .success

/-- `Clear`. -/
def StorageServiceResp.cleared : StorageServiceResp := {}

def StorageServiceResp.fail (resp : StorageServiceResp) (errorMsg : Str) : StorageServiceResp :=
  { resp with status := some .fail, errorMsg := some errorMsg }

/-! The calls of the backend -/

inductive KvCall where
  | gets (usr key : Str)
  | puts (usr key value : Str)
  | cput (usr key prevValue newValue : Str)
  | dele (usr key : Str)
  deriving DecidableEq, Repr

structure KvReply where
  status : KvState
  value : Str := []
  deriving DecidableEq, Repr

/-- A computation of the front end that calls the backend. -/
abbrev Service (α : Type) := Dialogue KvCall KvReply α

def kMaxAttempt : Nat := 20
def kMetadataFp : Str := "storage_metadata".toList

/-- `ReadMetadata`. A reply that did not arrive leaves the text as it was. -/
def readMetadata (env : Env) (h : Handler) : Service (Bool × Handler) :=
  (Dialogue.question (.gets h.usr kMetadataFp)).bind fun reply =>
    let h := if reply.status = .linkError then h else { h with metadataStr := reply.value }
    if reply.status ≠ .finished then .done (false, h)
    else .ofOption (h.parseMetadataFile env)

/-- `WriteMetadataToKv`: whether the text was stored, and the text. -/
def writeMetadataToKv (env : Env) (h : Handler) : Service (Bool × Str) :=
  (Dialogue.ofOption (h.getMetadataStr env)).bind fun newMetadata =>
    (Dialogue.question (.cput h.usr kMetadataFp h.metadataStr newMetadata)).bind fun reply =>
      .done (reply.status = .finished, newMetadata)

def populateSuccessResp (h : Handler) (resp : StorageServiceResp) : StorageServiceResp :=
  { resp with username := some h.usr, status := some .success, errorMsg := some [] }

def maxAttemptReached (resp : StorageServiceResp) : StorageServiceResp :=
  resp.fail "Creation failed after max attempt due to CPUT failures.".toList

/-! Changes of the tree, and how they are taken back -/

/-- A new entry of the parent with the next id; adding one to the largest `int` is undefined. The
object that had the id is freed. -/
def createEntry (h : Handler) (parentDir : Option Ptr) (relativePath : Str) (id : Nat)
    (isFile : Bool) : Option Handler :=
  if INT_MAX < id then none
  else
    let made := (h.free (h.directories.lookup id)).allocate
      { relativePath := relativePath, id := id, isFile := isFile }
    let h := { made.1 with directories := made.1.directories.insert id made.2 }
    (h.update parentDir (Dirent.addEntry relativePath (some made.2))).bind fun h =>
      (h.update (some made.2) (Dirent.updateParent parentDir)).map fun h =>
        { h with latestId := h.latestId.map (· + 1) }

def revertCreate (h : Handler) (parentDir : Option Ptr) (relativePath : Str) (id : Nat) :
    Option Handler :=
  (h.update parentDir (Dirent.deleteEntry relativePath)).map fun h =>
    { h.free (h.directories.lookup id) with
      directories := h.directories.erase id
      latestId := h.latestId.map (· - 1) }

def renameEntry (env : Env) (h : Handler) (parentDir curDir : Option Ptr)
    (relativePath newName : Str) : Option Handler :=
  (h.path env parentDir).bind fun _ =>
    (h.update curDir (Dirent.updateRelativePath newName)).bind fun h =>
      (h.update parentDir (Dirent.deleteEntry relativePath)).bind fun h =>
        h.update parentDir (Dirent.addEntry newName curDir)

def revertRename (h : Handler) (parentDir curDir : Option Ptr) (relativePath newName : Str) :
    Option Handler :=
  (h.update curDir (Dirent.updateRelativePath relativePath)).bind fun h =>
    (h.update parentDir (Dirent.deleteEntry newName)).bind fun h =>
      h.update parentDir (Dirent.addEntry relativePath curDir)

def moveEntry (env : Env) (h : Handler) (oldParentDir curEntry newDir : Option Ptr)
    (relativePath : Str) : Option Handler :=
  (h.path env newDir).bind fun _ =>
    (h.update curEntry (Dirent.updateParent newDir)).bind fun h =>
      (h.update oldParentDir (Dirent.deleteEntry relativePath)).bind fun h =>
        h.update newDir (Dirent.addEntry relativePath curEntry)

def revertMove (h : Handler) (oldParentDir curEntry newDir : Option Ptr) (relativePath : Str) :
    Option Handler :=
  (h.update curEntry (Dirent.updateParent oldParentDir)).bind fun h =>
    (h.update oldParentDir (Dirent.addEntry relativePath curEntry)).bind fun h =>
      h.update newDir (Dirent.deleteEntry relativePath)

/-- The entry is taken out of its parent and its object out of the map from ids. -/
def removeEntry (h : Handler) (parentDir : Option Ptr) (relativePath : Str) (id : Nat) :
    Option Handler :=
  (h.update parentDir (Dirent.deleteEntry relativePath)).map fun h =>
    { h with directories := h.directories.erase id }

def revertRemove (h : Handler) (parentDir : Option Ptr) (relativePath : Str) (id : Nat)
    (dir : Option Ptr) : Option Handler :=
  let h := match dir with
    | some p => { h with directories := h.directories.insert id p }
    | none => h
  h.update parentDir (Dirent.addEntry relativePath dir)

/-! The handlers -/

def handleMove (env : Env) (path newDir : Str) : Nat → Handler → StorageServiceResp →
    Service (Handler × StorageServiceResp)
  | 0, h, resp => .done (h, maxAttemptReached resp)
  | attempts + 1, h, resp =>
    (Dialogue.ofOption (h.validatePathAndGetDir path)).bind fun old =>
      if !old.valid then
        .done (old.handler, resp.fail ("Failed to find file: ".toList ++ path))
      else (Dialogue.ofOption (old.handler.validatePathAndGetDir newDir)).bind fun new =>
        if !new.valid then
          .done (new.handler, resp.fail ("Failed to locate new directory: ".toList ++ newDir))
        else
          (Dialogue.ofOption (moveEntry env new.handler old.parentDir old.dir new.dir
            old.relativePath)).bind fun h =>
            (writeMetadataToKv env h).bind fun written =>
              if written.1 then
                .done ({ h with metadataStr := written.2 }, populateSuccessResp h resp)
              else
                (Dialogue.ofOption (revertMove h old.parentDir old.dir new.dir
                  old.relativePath)).bind fun h =>
                  (readMetadata env h).bind fun read =>
                    if read.1 then handleMove env path newDir attempts read.2 .cleared
                    else .done (read.2, .cleared)

def handleRename (env : Env) (oldPath newName : Str) : Nat → Handler → StorageServiceResp →
    Service (Handler × StorageServiceResp)
  | 0, h, resp => .done (h, maxAttemptReached resp)
  | attempts + 1, h, resp =>
    (Dialogue.ofOption (h.validatePathAndGetDir oldPath)).bind fun found =>
      if !found.valid then
        .done (found.handler, resp.fail ("Failed to find file: ".toList ++ oldPath))
      else
        (Dialogue.ofOption (renameEntry env found.handler found.parentDir found.dir
          found.relativePath newName)).bind fun h =>
          (writeMetadataToKv env h).bind fun written =>
            if written.1 then
              .done ({ h with metadataStr := written.2 }, populateSuccessResp h resp)
            else
              (Dialogue.ofOption (revertRename h found.parentDir found.dir found.relativePath
                newName)).bind fun h =>
                (readMetadata env h).bind fun read =>
                  if read.1 then handleRename env oldPath newName attempts read.2 .cleared
                  else .done (read.2, .cleared)

/-- The path of an entry below the root folder, which comes first in `Path`. -/
def belowRoot : Str → Option Str
  | [] => none
  | c :: tail => some (if '/' ∈ tail then tail.dropWhile (· ≠ '/') else c :: tail)

/-- The paths of the entries of a directory. -/
def entryPaths (env : Env) (h : Handler) (p : Ptr) (d : Dirent) : Option (List Str) :=
  (env.it.pairs p d.entries).mapM fun e => (h.path env e.2).bind belowRoot

/-- Delete each of the paths until one fails. -/
def deleteEach (delete : Str → Handler → StorageServiceResp →
    Service (Handler × StorageServiceResp)) :
    List Str → Handler → StorageServiceResp → Service (Bool × Handler × StorageServiceResp)
  | [], h, resp => .done (true, h, resp)
  | path :: paths, h, resp =>
    (delete path h resp).bind fun r =>
      if r.2.getStatus = .fail then .done (false, r) else deleteEach delete paths r.1 r.2

/-- `HandleDelete`. The fuel bounds the depth of the recursion. -/
def handleDelete (env : Env) : Nat → Nat → Bool → Str → Handler → StorageServiceResp →
    Service (Handler × StorageServiceResp)
  | 0, _, _, _, _, _ => .stuck
  | _ + 1, 0, _, _, h, resp => .done (h, maxAttemptReached resp)
  | fuel + 1, attempts + 1, expectKvFailure, fp, h, resp =>
    (Dialogue.ofOption (h.validatePathAndGetDir fp)).bind fun found =>
      if !found.valid then
        .done (found.handler, resp.fail ("Failed to find file ".toList ++ fp))
      else (Dialogue.ofOption (found.handler.deref found.dir)).bind fun curDir =>
        (if !curDir.isFile && 0 < curDir.entries.keys.length then
            (Dialogue.ofOption (entryPaths env found.handler (found.dir.getD 0) curDir)).bind
              fun paths => deleteEach (handleDelete env fuel 1 expectKvFailure) paths
                found.handler resp
          else .done (true, found.handler, resp)).bind fun emptied =>
          if !emptied.1 then .done emptied.2
          else
            (if curDir.isFile then
                (Dialogue.question (.dele h.usr (toDecimal curDir.id))).bind fun reply =>
                  .done (decide (reply.status = .finished))
              else .done true).bind fun deleted =>
              if !deleted && !expectKvFailure then
                .done (emptied.2.1, emptied.2.2.fail ("Failed to delete file ".toList ++ (fp ++
                  (" to KV with fd ".toList ++ showInt h.backendFd))))
              else
                (Dialogue.ofOption (removeEntry emptied.2.1 found.parentDir found.relativePath
                  curDir.id)).bind fun h' =>
                  (writeMetadataToKv env h').bind fun written =>
                    if written.1 then
                      .done ({ h'.free (emptied.2.1.directories.lookup curDir.id) with
                        metadataStr := written.2 }, populateSuccessResp h' emptied.2.2)
                    else
                      (Dialogue.ofOption (revertRemove h' found.parentDir found.relativePath
                        curDir.id (emptied.2.1.directories.lookup curDir.id))).bind fun h' =>
                        (readMetadata env h').bind fun read =>
                          if read.1 then handleDelete env fuel attempts true fp read.2 .cleared
                          else .done (read.2, StorageServiceResp.cleared.fail
                            ("Failed to read in updated metadata when reverting ".toList ++
                            ("changes for file delete failures, resulting in ".toList ++
                            ("inconsistent state in metadata and KV store for file ".toList ++
                              fp))))

/-- The content of an upload, once its entry is stored. -/
def putContent (env : Env) (path content : Str) (id : Nat) (h : Handler)
    (resp : StorageServiceResp) : Service (Handler × StorageServiceResp) :=
  (Dialogue.question (.puts h.usr (toDecimal id) content)).bind fun reply =>
    if reply.status = .finished then .done (h, populateSuccessResp h resp)
    else (readMetadata env h).bind fun read =>
      if !read.1 then
        .done (read.2, resp.fail
          ("Failed to read in updated metadata when reverting ".toList ++
          ("changes for file upload failures, resulting in ".toList ++
          ("inconsistent state in metadata and KV store regarding file ".toList ++ path))))
      else (handleDelete env env.fuel 2 true path read.2 resp).bind fun r =>
        .done (r.1, r.2.fail ("Failed to upload file ".toList ++ (path ++
          (" to KV with fd ".toList ++ showInt h.backendFd))))

/-- The entries of a directory as a query lists them. -/
def listEntries (env : Env) (h : Handler) (p : Ptr) (d : Dirent) : Option (List DirEntry) :=
  (env.it.pairs p d.entries).mapM fun e =>
    (h.deref e.2).bind fun entry => (h.path env e.2).map fun path => ⟨path, !entry.isFile⟩

/-- The answer to a query, with the directory that was found. -/
def answerQuery (env : Env) (found : Found) (resp : StorageServiceResp) :
    Service (Handler × StorageServiceResp) :=
  (Dialogue.ofOption (found.handler.deref found.dir)).bind fun curDir =>
    (Dialogue.ofOption (found.handler.path env found.dir)).bind fun name =>
      (Dialogue.ofOption (listEntries env found.handler (found.dir.getD 0) curDir)).bind
        fun entries => .done (found.handler, populateSuccessResp found.handler
          { resp with body := .dirInfo name entries })

def handleCreationAndQuery (env : Env) (req : StorageServiceReq) : Nat → Handler →
    StorageServiceResp → Service (Handler × StorageServiceResp)
  | 0, h, resp => .done (h, maxAttemptReached resp)
  | attempts + 1, h, resp =>
    let isFile := decide (req.type = .fileUpload)
    let isQuery := decide (req.type = .dirQuery)
    let path := if isFile then req.uploadPath else req.dirPath
    (Dialogue.ofOption (h.validatePathAndGetDir path)).bind fun found =>
      if isQuery && (!found.valid || found.parentDir.isNone || found.dir.isNone) then
        .done (found.handler, resp.fail ("Failed to find file: ".toList ++ path))
      else if !isQuery && found.valid then
        .done (found.handler, resp.fail ("File or folder already exists: ".toList ++ path))
      else if !isQuery && found.parentDir.isNone then
        .done (found.handler, resp.fail
          ("Failed to upload file due to non-existent parent folder(s): ".toList ++
            req.uploadPath))
      else if isQuery then answerQuery env found resp
      else match found.handler.latestId with
        | none =>
          .done (found.handler, resp.fail
            ("Failed to upload file due to uninitialized ID: ".toList ++ req.uploadPath))
        | some latestId =>
          (Dialogue.ofOption (createEntry found.handler found.parentDir found.relativePath
            (latestId + 1) isFile)).bind fun h =>
            (writeMetadataToKv env h).bind fun written =>
              if written.1 then
                if isFile then
                  putContent env path req.uploadContent (latestId + 1)
                    { h with metadataStr := written.2 } resp
                else .done ({ h with metadataStr := written.2 }, populateSuccessResp h resp)
              else
                (Dialogue.ofOption (revertCreate h found.parentDir found.relativePath
                  (latestId + 1))).bind fun h =>
                  (readMetadata env h).bind fun read =>
                    if read.1 then handleCreationAndQuery env req attempts read.2 .cleared
                    else .done (read.2, .cleared)

def handleFileDownload (fp : Str) (h : Handler) (resp : StorageServiceResp) :
    Service (Handler × StorageServiceResp) :=
  (Dialogue.ofOption (h.validatePathAndGetDir fp)).bind fun found =>
    if !found.valid then
      .done (found.handler, resp.fail ("Failed to find file ".toList ++ fp))
    else (Dialogue.ofOption (found.handler.deref found.dir)).bind fun curDir =>
      (Dialogue.question (.gets h.usr (toDecimal curDir.id))).bind fun reply =>
        if reply.status ≠ .finished then
          .done (found.handler, resp.fail ("Failed to retrieve content for file ".toList ++ fp))
        else .done (found.handler,
          { populateSuccessResp h resp with body := .fileDownload reply.value })

/-- The directories among the entries. -/
def dirsAmong (h : Handler) : List (Str × Option Ptr) → Option (List (Option Ptr))
  | [] => some []
  | (_, p) :: rest =>
    (h.deref p).bind fun entry => (dirsAmong h rest).map fun dirs =>
      if entry.isFile then dirs else p :: dirs

/-- The queue of `HandleQueryAllMovableDir`. -/
def movableQueue (env : Env) (h : Handler) (found : Found) : Nat → List (Option Ptr) →
    Option (List DirEntry)
  | _, [] => some []
  | 0, _ :: _ => none
  | fuel + 1, cur :: queue =>
    (h.deref found.dir).bind fun curDir =>
      if !curDir.isFile && found.dir = cur then movableQueue env h found fuel queue
      else (h.deref cur).bind fun d =>
        (if cur = found.parentDir then some []
          else (h.path env cur).map fun path => [⟨path, true⟩]).bind fun listed =>
          (dirsAmong h (env.it.pairs (cur.getD 0) d.entries)).bind fun dirs =>
            (movableQueue env h found fuel (queue ++ dirs)).map fun rest => listed ++ rest

def handleQueryAllMovableDir (env : Env) (fp : Str) (h : Handler) (resp : StorageServiceResp) :
    Service (Handler × StorageServiceResp) :=
  let resp := { resp with username := some h.usr }
  if h.root = none then .done (h, resp.fail "Root directory not yet initialized.".toList)
  else (Dialogue.ofOption (h.validatePathAndGetDir fp)).bind fun found =>
    if !found.valid then
      .done (found.handler, resp.fail ("Failed to find file ".toList ++ fp))
    else (Dialogue.ofOption (movableQueue env found.handler found env.fuel [h.root])).bind
      fun dirs => .done (found.handler,
        { resp with status := some .success, body := .movableDirs dirs })

/-- `HandleRequest`. -/
def handleRequest (env : Env) (h : Handler) (req : StorageServiceReq) :
    Service (Handler × StorageServiceResp) :=
  let resp := StorageServiceResp.cleared.fail "Invalid request.".toList
  match req.type, req.request with
  | .fileUpload, .fileUploadReq _ _ =>
    handleCreationAndQuery env req (kMaxAttempt + 1) h resp
  | .fileDownload, .fileDownloadReq path => handleFileDownload path h resp
  | .fileRename, .renameReq oldPath newName
  | .dirRename, .renameReq oldPath newName =>
    handleRename env oldPath newName (kMaxAttempt + 1) h resp
  | .fileDele, .deleteReq path
  | .dirDele, .deleteReq path =>
    handleDelete env env.fuel (kMaxAttempt + 1) false path h resp
  | .dirQuery, .dirCreateOrQueryReq _
  | .dirCreate, .dirCreateOrQueryReq _ =>
    handleCreationAndQuery env req (kMaxAttempt + 1) h resp
  | .fileMove, .moveReq path newDir
  | .dirMove, .moveReq path newDir => handleMove env path newDir (kMaxAttempt + 1) h resp
  | .queryAllDir, .queryAllFileToMove path => handleQueryAllMovableDir env path h resp
  | _, _ => .done (h, resp)

/-- `InitializeHandler` on a new handler, then the request: `create_or_query_dir`,
`rename_file_or_dir`, `move_file_or_dir`, `delete_file_or_dir`, `upload_file`, `download_file` and
`query_movable_dir` differ in the request only. -/
def serve (env : Env) (usr : Str) (fd : Int) (req : StorageServiceReq) :
    Service StorageServiceResp :=
  (readMetadata env { usr := usr, backendFd := fd }).bind fun read =>
    if !read.1 then
      .done (StorageServiceResp.cleared.fail
        ("Failed to initialize storage service for user ".toList ++ usr))
    else (handleRequest env read.2 req).bind fun r => .done r.2

end StorageHandler
