import PennCloud.StorageHandler

/-!
# Requests with their calls written down

The handlers of the storage service once more, with notes of what they do on the way:
a move or a rename is about to be made, the tree is about to be printed. Without the
notes they are the handlers.
-/

namespace StorageTrace

open Text UnorderedMap StorageMetadata
open StorageHandler (KvCall KvReply Service StorageServiceReq StorageServiceResp kMaxAttempt
  kMetadataFp populateSuccessResp maxAttemptReached createEntry revertCreate renameEntry
  revertRename moveEntry revertMove removeEntry revertRemove entryPaths
  handleFileDownload handleQueryAllMovableDir answerQuery)

/-- An event comes with the handler as it is then. -/
inductive Event where
  | handleMove (h : Handler) (path newDir : Str)
  | handleRename (h : Handler) (oldPath newName : Str)
  | getMetadataStr (h : Handler)
  | backend (h : Handler) (call : KvCall)

abbrev Traced (α : Type) := Dialogue Event KvReply α

/-- The calls of the backend among the events. -/
def Event.call : Event → Option KvCall
  | .backend _ call => some call
  | _ => none

instance : Inhabited KvReply := ⟨⟨.finished, []⟩⟩

/-- Calls of the backend by one handler. -/
def traced {α : Type} (h : Handler) (p : Service α) : Traced α := p.relabel (.backend h)

def readMetadata (env : Env) (h : Handler) : Traced (Bool × Handler) :=
  traced h (StorageHandler.readMetadata env h)

def writeMetadataToKv (env : Env) (h : Handler) : Traced (Bool × Str) :=
  .note (.getMetadataStr h) (traced h (StorageHandler.writeMetadataToKv env h))

def handleMove (env : Env) (path newDir : Str) : Nat → Handler → StorageServiceResp →
    Traced (Handler × StorageServiceResp)
  | 0, h, resp => .done (h, maxAttemptReached resp)
  | attempts + 1, h, resp =>
    .note (.handleMove h path newDir) <|
    (Dialogue.ofOption (h.validatePathAndGetDir path)).bind fun old =>
      if !old.valid then
        .done (old.handler, resp.fail ("Failed to find file: ".toList ++ path))
      else (Dialogue.ofOption (old.handler.validatePathAndGetDir newDir)).bind fun new =>
        if !new.valid then
          .done (new.handler, resp.fail ("Failed to locate new directory: ".toList ++ newDir))
        else
          (Dialogue.ofOption (moveEntry env new.handler old.parentDir old.dir new.dir
            old.relativePath)).bind fun h =>
            (writeMetadataToKv env h).bind fun written =>
              if written.1 then
                .done ({ h with metadataStr := written.2 }, populateSuccessResp h resp)
              else
                (Dialogue.ofOption (revertMove h old.parentDir old.dir new.dir
                  old.relativePath)).bind fun h =>
                  (readMetadata env h).bind fun read =>
                    if read.1 then handleMove env path newDir attempts read.2 .cleared
                    else .done (read.2, .cleared)

def handleRename (env : Env) (oldPath newName : Str) : Nat → Handler → StorageServiceResp →
    Traced (Handler × StorageServiceResp)
  | 0, h, resp => .done (h, maxAttemptReached resp)
  | attempts + 1, h, resp =>
    .note (.handleRename h oldPath newName) <|
    (Dialogue.ofOption (h.validatePathAndGetDir oldPath)).bind fun found =>
      if !found.valid then
        .done (found.handler, resp.fail ("Failed to find file: ".toList ++ oldPath))
      else
        (Dialogue.ofOption (renameEntry env found.handler found.parentDir found.dir
          found.relativePath newName)).bind fun h =>
          (writeMetadataToKv env h).bind fun written =>
            if written.1 then
              .done ({ h with metadataStr := written.2 }, populateSuccessResp h resp)
            else
              (Dialogue.ofOption (revertRename h found.parentDir found.dir found.relativePath
                newName)).bind fun h =>
                (readMetadata env h).bind fun read =>
                  if read.1 then handleRename env oldPath newName attempts read.2 .cleared
                  else .done (read.2, .cleared)

/-- Delete each of the paths until one fails. -/
def deleteEach (delete : Str → Handler → StorageServiceResp →
    Traced (Handler × StorageServiceResp)) :
    List Str → Handler → StorageServiceResp → Traced (Bool × Handler × StorageServiceResp)
  | [], h, resp => .done (true, h, resp)
  | path :: paths, h, resp =>
    (delete path h resp).bind fun r =>
      if r.2.getStatus = .fail then .done (false, r) else deleteEach delete paths r.1 r.2

def handleDelete (env : Env) : Nat → Nat → Bool → Str → Handler → StorageServiceResp →
    Traced (Handler × StorageServiceResp)
  | 0, _, _, _, _, _ => .stuck
  | _ + 1, 0, _, _, h, resp => .done (h, maxAttemptReached resp)
  | fuel + 1, attempts + 1, expectKvFailure, fp, h, resp =>
    (Dialogue.ofOption (h.validatePathAndGetDir fp)).bind fun found =>
      if !found.valid then
        .done (found.handler, resp.fail ("Failed to find file ".toList ++ fp))
      else (Dialogue.ofOption (found.handler.deref found.dir)).bind fun curDir =>
        (if !curDir.isFile && 0 < curDir.entries.keys.length then
            (Dialogue.ofOption (entryPaths env found.handler (found.dir.getD 0) curDir)).bind
              fun paths => deleteEach (handleDelete env fuel 1 expectKvFailure) paths
                found.handler resp
          else .done (true, found.handler, resp)).bind fun emptied =>
          if !emptied.1 then .done emptied.2
          else
            (if curDir.isFile then
                (traced emptied.2.1 (Dialogue.question (.dele h.usr (toDecimal curDir.id)))).bind
                  fun reply => .done (decide (reply.status = .finished))
              else .done true).bind fun deleted =>
              if !deleted && !expectKvFailure then
                .done (emptied.2.1, emptied.2.2.fail ("Failed to delete file ".toList ++ (fp ++
                  (" to KV with fd ".toList ++ showInt h.backendFd))))
              else
                (Dialogue.ofOption (removeEntry emptied.2.1 found.parentDir found.relativePath
                  curDir.id)).bind fun h' =>
                  (writeMetadataToKv env h').bind fun written =>
                    if written.1 then
                      .done ({ h'.free (emptied.2.1.directories.lookup curDir.id) with
                        metadataStr := written.2 }, populateSuccessResp h' emptied.2.2)
                    else
                      (Dialogue.ofOption (revertRemove h' found.parentDir found.relativePath
                        curDir.id (emptied.2.1.directories.lookup curDir.id))).bind fun h' =>
                        (readMetadata env h').bind fun read =>
                          if read.1 then handleDelete env fuel attempts true fp read.2 .cleared
                          else .done (read.2, StorageServiceResp.cleared.fail
                            ("Failed to read in updated metadata when reverting ".toList ++
                            ("changes for file delete failures, resulting in ".toList ++
                            ("inconsistent state in metadata and KV store for file ".toList ++
                              fp))))

def putContent (env : Env) (path content : Str) (id : Nat) (h : Handler)
    (resp : StorageServiceResp) : Traced (Handler × StorageServiceResp) :=
  (traced h (Dialogue.question (.puts h.usr (toDecimal id) content))).bind fun reply =>
    if reply.status = .finished then .done (h, populateSuccessResp h resp)
    else (readMetadata env h).bind fun read =>
      if !read.1 then
        .done (read.2, resp.fail
          ("Failed to read in updated metadata when reverting ".toList ++
          ("changes for file upload failures, resulting in ".toList ++
          ("inconsistent state in metadata and KV store regarding file ".toList ++ path))))
      else (handleDelete env env.fuel 2 true path read.2 resp).bind fun r =>
        .done (r.1, r.2.fail ("Failed to upload file ".toList ++ (path ++
          (" to KV with fd ".toList ++ showInt h.backendFd))))

def handleCreationAndQuery (env : Env) (req : StorageServiceReq) : Nat → Handler →
    StorageServiceResp → Traced (Handler × StorageServiceResp)
  | 0, h, resp => .done (h, maxAttemptReached resp)
  | attempts + 1, h, resp =>
    let isFile := decide (req.type = .fileUpload)
    let isQuery := decide (req.type = .dirQuery)
    let path := if isFile then req.uploadPath else req.dirPath
    (Dialogue.ofOption (h.validatePathAndGetDir path)).bind fun found =>
      if isQuery && (!found.valid || found.parentDir.isNone || found.dir.isNone) then
        .done (found.handler, resp.fail ("Failed to find file: ".toList ++ path))
      else if !isQuery && found.valid then
        .done (found.handler, resp.fail ("File or folder already exists: ".toList ++ path))
      else if !isQuery && found.parentDir.isNone then
        .done (found.handler, resp.fail
          ("Failed to upload file due to non-existent parent folder(s): ".toList ++
            req.uploadPath))
      else if isQuery then traced found.handler (answerQuery env found resp)
      else match found.handler.latestId with
        | none =>
          .done (found.handler, resp.fail
            ("Failed to upload file due to uninitialized ID: ".toList ++ req.uploadPath))
        | some latestId =>
          (Dialogue.ofOption (createEntry found.handler found.parentDir found.relativePath
            (latestId + 1) isFile)).bind fun h =>
            (writeMetadataToKv env h).bind fun written =>
              if written.1 then
                if isFile then
                  putContent env path req.uploadContent (latestId + 1)
                    { h with metadataStr := written.2 } resp
                else .done ({ h with metadataStr := written.2 }, populateSuccessResp h resp)
              else
                (Dialogue.ofOption (revertCreate h found.parentDir found.relativePath
                  (latestId + 1))).bind fun h =>
                  (readMetadata env h).bind fun read =>
                    if read.1 then handleCreationAndQuery env req attempts read.2 .cleared
                    else .done (read.2, .cleared)

def handleRequest (env : Env) (h : Handler) (req : StorageServiceReq) :
    Traced (Handler × StorageServiceResp) :=
  let resp := StorageServiceResp.cleared.fail "Invalid request.".toList
  match req.type, req.request with
  | .fileUpload, .fileUploadReq _ _ =>
    handleCreationAndQuery env req (kMaxAttempt + 1) h resp
  | .fileDownload, .fileDownloadReq path => traced h (handleFileDownload path h resp)
  | .fileRename, .renameReq oldPath newName
  | .dirRename, .renameReq oldPath newName =>
    handleRename env oldPath newName (kMaxAttempt + 1) h resp
  | .fileDele, .deleteReq path
  | .dirDele, .deleteReq path =>
    handleDelete env env.fuel (kMaxAttempt + 1) false path h resp
  | .dirQuery, .dirCreateOrQueryReq _
  | .dirCreate, .dirCreateOrQueryReq _ =>
    handleCreationAndQuery env req (kMaxAttempt + 1) h resp
  | .fileMove, .moveReq path newDir
  | .dirMove, .moveReq path newDir => handleMove env path newDir (kMaxAttempt + 1) h resp
  | .queryAllDir, .queryAllFileToMove path => traced h (handleQueryAllMovableDir env path h resp)
  | _, _ => .done (h, resp)

/-- What a user does: a request to the handler at hand, or a new handler. -/
inductive Step where
  | handle (req : StorageServiceReq)
  | opened (usr : Str) (fd : Int)

/-- One step after the other. The tree is printed after each request where the program is built to
say what it does. A new handler that cannot read its metadata serves no request. -/
def session (env : Env) : List Step → Handler → Traced Handler
  | [], h => .done h
  | .handle req :: steps, h => (handleRequest env h req).bind fun r =>
    .note (.getMetadataStr r.1) (session env steps r.1)
  | .opened usr fd :: steps, h => (readMetadata env { usr := usr, backendFd := fd }).bind fun read =>
    if read.1 then session env steps read.2 else session env steps h

/-! Without the notes -/

section Erased
variable {env : Env} {α : Type}

/-- What is left without the notes. -/
def calls (p : Traced α) : Service α := p.erase Event.call

@[simp] theorem calls_traced (h : Handler) (p : Service α) : calls (traced h p) = p :=
  Dialogue.erase_relabel Event.call (fun _ : KvCall => rfl) p

@[simp] theorem calls_done (a : α) : calls (.done a) = .done a := rfl

@[simp] theorem calls_bind {β : Type} (p : Traced α) (f : α → Traced β) :
    calls (p.bind f) = (calls p).bind fun a => calls (f a) := Dialogue.erase_bind _ p f

@[simp] theorem calls_ofOption (a : Option α) : calls (.ofOption a) = .ofOption a :=
  Dialogue.erase_ofOption _ a

@[simp] theorem calls_ite {c : Prop} [Decidable c] (p q : Traced α) :
    calls (if c then p else q) = if c then calls p else calls q := Dialogue.erase_ite _ p q

@[simp] theorem calls_readMetadata (h : Handler) :
    calls (readMetadata env h) = StorageHandler.readMetadata env h := calls_traced _ _

@[simp] theorem calls_writeMetadataToKv (h : Handler) :
    calls (writeMetadataToKv env h) = StorageHandler.writeMetadataToKv env h :=
  (Dialogue.erase_note _ rfl _).trans (calls_traced _ _)

@[simp] theorem calls_handleMove (path newDir : Str) (attempts : Nat) (h : Handler)
    (resp : StorageServiceResp) : calls (handleMove env path newDir attempts h resp) =
      StorageHandler.handleMove env path newDir attempts h resp := by
  induction attempts generalizing h resp with
  | zero => rfl
  | succ attempts ih =>
    rw [handleMove, calls, Dialogue.erase_note _ rfl, StorageHandler.handleMove, ← calls]
    simp only [calls_bind, calls_ofOption, calls_ite, calls_done, calls_writeMetadataToKv,
      calls_readMetadata, ih]

@[simp] theorem calls_handleRename (oldPath newName : Str) (attempts : Nat) (h : Handler)
    (resp : StorageServiceResp) : calls (handleRename env oldPath newName attempts h resp) =
      StorageHandler.handleRename env oldPath newName attempts h resp := by
  induction attempts generalizing h resp with
  | zero => rfl
  | succ attempts ih =>
    rw [handleRename, calls, Dialogue.erase_note _ rfl, StorageHandler.handleRename, ← calls]
    simp only [calls_bind, calls_ofOption, calls_ite, calls_done, calls_writeMetadataToKv,
      calls_readMetadata, ih]

theorem calls_deleteEach {delete : Str → Handler → StorageServiceResp →
      Traced (Handler × StorageServiceResp)}
    {plain : Str → Handler → StorageServiceResp → Service (Handler × StorageServiceResp)}
    (each : ∀ path h resp, calls (delete path h resp) = plain path h resp) (paths : List Str)
    (h : Handler) (resp : StorageServiceResp) :
    calls (deleteEach delete paths h resp) = StorageHandler.deleteEach plain paths h resp := by
  induction paths generalizing h resp with
  | nil => rfl
  | cons path paths ih =>
    simp only [deleteEach, StorageHandler.deleteEach, calls_bind, calls_ite, calls_done, each, ih]

@[simp] theorem calls_handleDelete (fuel attempts : Nat) (expectKvFailure : Bool) (fp : Str)
    (h : Handler) (resp : StorageServiceResp) :
    calls (handleDelete env fuel attempts expectKvFailure fp h resp) =
      StorageHandler.handleDelete env fuel attempts expectKvFailure fp h resp := by
  induction fuel generalizing attempts expectKvFailure fp h resp with
  | zero => rfl
  | succ fuel ih =>
    cases attempts with
    | zero => rfl
    | succ attempts =>
      rw [handleDelete, StorageHandler.handleDelete]
      simp only [calls_bind, calls_ofOption, calls_ite, calls_done, calls_writeMetadataToKv,
        calls_readMetadata, calls_traced, calls_deleteEach (ih 1 expectKvFailure), ih]

@[simp] theorem calls_putContent (path content : Str) (id : Nat) (h : Handler)
    (resp : StorageServiceResp) : calls (putContent env path content id h resp) =
      StorageHandler.putContent env path content id h resp := by
  rw [putContent, StorageHandler.putContent]
  simp only [calls_bind, calls_ite, calls_done, calls_readMetadata, calls_traced,
    calls_handleDelete]

@[simp] theorem calls_handleCreationAndQuery (req : StorageServiceReq) (attempts : Nat)
    (h : Handler) (resp : StorageServiceResp) :
    calls (handleCreationAndQuery env req attempts h resp) =
      StorageHandler.handleCreationAndQuery env req attempts h resp := by
  induction attempts generalizing h resp with
  | zero => rfl
  | succ attempts ih =>
    rw [handleCreationAndQuery, StorageHandler.handleCreationAndQuery, calls_bind, calls_ofOption]
    refine congrArg _ (funext fun found => ?_)
    cases found.handler.latestId with
    | none => simp only [calls_ite, calls_done, calls_traced]
    | some latestId =>
      simp only [calls_bind, calls_ofOption, calls_ite, calls_done, calls_writeMetadataToKv,
        calls_readMetadata, calls_traced, calls_putContent, ih]

/-- The notes change nothing. -/
theorem calls_handleRequest (h : Handler) (req : StorageServiceReq) :
    calls (handleRequest env h req) = StorageHandler.handleRequest env h req := by
  obtain ⟨type, request⟩ := req
  cases type
  all_goals cases request
  all_goals simp only [handleRequest, StorageHandler.handleRequest, calls_handleCreationAndQuery,
    calls_traced, calls_handleRename, calls_handleDelete, calls_handleMove, calls_done]

end Erased

end StorageTrace
