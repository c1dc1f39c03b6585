import PennCloud.HandlerText

/-!
# What a successful response says

A request that changes the tree is answered with SUCCESS after its metadata was
stored, except where the response is only cleared: a response without a status
reads as SUCCESS.
-/

namespace StorageCommit

open Text KvInterface UnorderedMap StorageMetadata StorageHandler Dialogue HandlerText

abbrev Exchange := KvCall × KvReply

/-- Requests that change the tree. -/
def Mutates (req : StorageServiceReq) : Prop :=
  req.type ≠ .fileDownload ∧ req.type ≠ .dirQuery ∧ req.type ≠ .queryAllDir

def Deletes (req : StorageServiceReq) : Prop := req.type = .fileDele ∨ req.type = .dirDele

/-- The call stores new metadata if the old is still there. -/
def MetadataCput (call : KvCall) : Prop :=
  ∃ usr old new, call = .cput usr kMetadataFp old new

/-! The parts of a deletion -/

/-- The entry is taken out of its directory and the metadata is stored. Where it is refused, the
entry is put back and the deletion is tried again. -/
def storeRemoved (env : Env) (fuel attempts : Nat) (fp : Str) (found : Found) (id : Nat)
    (h : Handler) (resp : StorageServiceResp) : Service (Handler × StorageServiceResp) :=
  (Dialogue.ofOption (removeEntry h found.parentDir found.relativePath id)).bind fun h' =>
    (writeMetadataToKv env h').bind fun written =>
      if written.1 then
        .done ({ h'.free (h.directories.lookup id) with metadataStr := written.2 },
          populateSuccessResp h' resp)
      else
        (Dialogue.ofOption (revertRemove h' found.parentDir found.relativePath id
          (h.directories.lookup id))).bind fun h' =>
          (readMetadata env h').bind fun read =>
            if read.1 then handleDelete env fuel attempts true fp read.2 .cleared
            else .done (read.2, StorageServiceResp.cleared.fail
              ("Failed to read in updated metadata when reverting ".toList ++
              ("changes for file delete failures, resulting in ".toList ++
              ("inconsistent state in metadata and KV store for file ".toList ++ fp))))

/-- The content of a file is removed, and then its entry. -/
def deleteEmptied (env : Env) (fuel attempts : Nat) (expectKvFailure : Bool) (fp : Str) (h : Handler)
    (found : Found) (curDir : Dirent) (emptied : Handler × StorageServiceResp) :
    Service (Handler × StorageServiceResp) :=
  (if curDir.isFile then
      (Dialogue.question (.dele h.usr (toDecimal curDir.id))).bind fun reply =>
        .done (decide (reply.status = .finished))
    else .done true).bind fun deleted =>
    if !deleted && !expectKvFailure then
      .done (emptied.1, emptied.2.fail ("Failed to delete file ".toList ++ (fp ++
        (" to KV with fd ".toList ++ showInt h.backendFd))))
    else storeRemoved env fuel attempts fp found curDir.id emptied.1 emptied.2

/-- The entries of a directory are deleted first. -/
def emptyFirst (env : Env) (fuel : Nat) (expectKvFailure : Bool) (found : Found) (curDir : Dirent)
    (resp : StorageServiceResp) : Service (Bool × Handler × StorageServiceResp) :=
  if !curDir.isFile && 0 < curDir.entries.keys.length then
    (Dialogue.ofOption (entryPaths env found.handler (found.dir.getD 0) curDir)).bind
      fun paths => deleteEach (handleDelete env fuel 1 expectKvFailure) paths found.handler resp
  else .done (true, found.handler, resp)

theorem handleDelete_eq (env : Env) (fuel attempts : Nat) (expectKvFailure : Bool) (fp : Str)
    (h : Handler) (resp : StorageServiceResp) :
    handleDelete env (fuel + 1) (attempts + 1) expectKvFailure fp h resp =
      (Dialogue.ofOption (h.validatePathAndGetDir fp)).bind fun found =>
        if !found.valid then
          .done (found.handler, resp.fail ("Failed to find file ".toList ++ fp))
        else (Dialogue.ofOption (found.handler.deref found.dir)).bind fun curDir =>
          (emptyFirst env fuel expectKvFailure found curDir resp).bind fun emptied =>
            if !emptied.1 then .done emptied.2
            else deleteEmptied env fuel attempts expectKvFailure fp h found curDir emptied.2 := rfl

/-! What is stored -/

/-- The content of what is deleted is removed first, if it is a file. Where the deletion is tried
again it may be gone. -/
def RemovesContent (usr : Str) (expectKvFailure : Bool) (curDir : Dirent) (calls : List Exchange) :
    Prop :=
  if curDir.isFile then
    ∃ reply, calls = [(.dele usr (toDecimal curDir.id), reply)] ∧
      (reply.status = .finished ∨ expectKvFailure = true)
  else calls = []

/-- One attempt at a request of the handler: the calls that it makes before it stores the metadata,
the handler with the change that is asked for, and what becomes of it where the change is taken
back. -/
inductive Changes (env : Env) (expectKvFailure : Bool) (h : Handler) :
    Request → List Exchange → Handler → Option Handler → Prop where
  | upload {path content : Str} {found : Found} {latestId : Nat} {h' : Handler}
      (looked : h.validatePathAndGetDir path = some found) (new : found.valid = false)
      (latest : found.handler.latestId = some latestId)
      (made : createEntry found.handler found.parentDir found.relativePath (latestId + 1) true =
        some h') :
      Changes env expectKvFailure h (.fileUploadReq path content) [] h'
        (revertCreate h' found.parentDir found.relativePath (latestId + 1))
  | create {path : Str} {found : Found} {latestId : Nat} {h' : Handler}
      (looked : h.validatePathAndGetDir path = some found) (new : found.valid = false)
      (latest : found.handler.latestId = some latestId)
      (made : createEntry found.handler found.parentDir found.relativePath (latestId + 1) false =
        some h') :
      Changes env expectKvFailure h (.dirCreateOrQueryReq path) [] h'
        (revertCreate h' found.parentDir found.relativePath (latestId + 1))
  | rename {oldPath newName : Str} {found : Found} {h' : Handler}
      (looked : h.validatePathAndGetDir oldPath = some found) (valid : found.valid = true)
      (renamed : renameEntry env found.handler found.parentDir found.dir found.relativePath newName =
        some h') :
      Changes env expectKvFailure h (.renameReq oldPath newName) [] h'
        (revertRename h' found.parentDir found.dir found.relativePath newName)
  | move {path newDir : Str} {old new : Found} {h' : Handler}
      (looked : h.validatePathAndGetDir path = some old) (valid : old.valid = true)
      (located : old.handler.validatePathAndGetDir newDir = some new) (valid' : new.valid = true)
      (moved : moveEntry env new.handler old.parentDir old.dir new.dir old.relativePath = some h') :
      Changes env expectKvFailure h (.moveReq path newDir) [] h'
        (revertMove h' old.parentDir old.dir new.dir old.relativePath)
  | delete {path : Str} {found : Found} {curDir : Dirent} {fuel : Nat}
      {resp resp' : StorageServiceResp} {nested content : List Exchange} {emptied h' : Handler}
      (looked : h.validatePathAndGetDir path = some found) (valid : found.valid = true)
      (object : found.handler.deref found.dir = some curDir)
      -- the entries of a directory were deleted one after the other
      (emptying : Conversation (emptyFirst env fuel expectKvFailure found curDir resp) nested
        (true, emptied, resp'))
      (contentGone : RemovesContent h.usr expectKvFailure curDir content)
      (removed : removeEntry emptied found.parentDir found.relativePath curDir.id = some h') :
      Changes env expectKvFailure h (.deleteReq path) (nested ++ content) h'
        (revertRemove h' found.parentDir found.relativePath curDir.id
          (emptied.directories.lookup curDir.id))

/-- The attempts that were refused: each took its change back and read the metadata again, into
the tree that was left. The last handler starts the next attempt. -/
inductive Refused (env : Env) (request : Request) :
    Bool → Handler → List Exchange → Bool → Handler → Prop where
  | none (expectKvFailure : Bool) (h : Handler) :
      Refused env request expectKvFailure h [] expectKvFailure h
  | again {expectKvFailure expectKvFailure' : Bool} {h h' back next last : Handler} {new : Str}
      {made calls : List Exchange} {refused reload : KvReply}
      (changes : Changes env expectKvFailure h request made h' (some back))
      (printed : h'.getMetadataStr env = some new) (failed : refused.status ≠ .finished)
      (read : reload.status = .finished)
      (parsed : Handler.parseMetadataFile env { back with metadataStr := reload.value } =
        some (true, next))
      (later : Refused env request true next calls expectKvFailure' last) :
      Refused env request expectKvFailure h
        (made ++ (.cput h.usr kMetadataFp h'.metadataStr new, refused) ::
          (.gets h.usr kMetadataFp, reload) :: calls) expectKvFailure' last

/-- The last metadata that the calls tried to store for the user of the handler were stored, and
are the text of its tree with the change of the request: the tree that it held, or, after attempts
that were refused, the one that it has read. The content of an upload was stored after them, under
the new id. -/
def CommittedAfter (env : Env) (req : StorageServiceReq) (expectKvFailure : Bool) (h : Handler)
    (calls : List Exchange) : Prop :=
  ∃ earlier expectKvFailure' last made h' back new reply after,
    Refused env req.request expectKvFailure h earlier expectKvFailure' last ∧
    Changes env expectKvFailure' last req.request made h' back ∧
    h'.getMetadataStr env = some new ∧
    calls = earlier ++ (made ++ (.cput h.usr kMetadataFp h'.metadataStr new, reply) :: after) ∧
    reply.status = .finished ∧ (∀ c ∈ after, ¬ MetadataCput c.1) ∧
    (req.type = .fileUpload → ∃ id stored, h'.latestId = some id ∧ stored.status = .finished ∧
      after = [(.puts h.usr (toDecimal id) req.uploadContent, stored)])

/-- The request was committed. A deletion does not expect the content to be gone at first. -/
abbrev Committed (env : Env) (req : StorageServiceReq) (h : Handler) (calls : List Exchange) :
    Prop :=
  CommittedAfter env req false h calls

/-- `ReadMetadata` fails on the reply. -/
def failedReload (reply : KvReply) : Bool :=
  decide (reply.status ≠ .finished) || decide (reply.value = [])

/-- Every CPUT is refused, and the last reload fails. -/
def lostReload : List KvReply → Bool
  | refused :: reload :: rest =>
    decide (refused.status ≠ .finished) && (if rest = [] then failedReload reload else lostReload rest)
  | _ => false

/-! Calls that read and store the metadata -/

theorem conversation_bind_ofOption {α β : Type} {a : Option α} {f : α → Service β}
    {calls : List Exchange} {r : β} (h : Conversation ((Dialogue.ofOption a).bind f) calls r) :
    ∃ b, a = some b ∧ Conversation (f b) calls r := by
  obtain ⟨first, second, b, rfl, ha, hf⟩ := conversation_bind.mp h
  obtain ⟨rfl, hb⟩ := conversation_ofOption.mp ha
  exact ⟨b, hb, hf⟩

theorem conversation_write {env : Env} {h : Handler} {β : Type} {f : Bool × Str → Service β}
    {calls : List Exchange} {r : β} (h' : Conversation ((writeMetadataToKv env h).bind f) calls r) :
    ∃ new reply rest, h.getMetadataStr env = some new ∧
      calls = (.cput h.usr kMetadataFp h.metadataStr new, reply) :: rest ∧
      Conversation (f (decide (reply.status = .finished), new)) rest r := by
  obtain ⟨first, second, w, rfl, hw, hf⟩ := conversation_bind.mp h'
  obtain ⟨new, text, written⟩ := conversation_bind_ofOption hw
  obtain ⟨asked, none, reply, rfl, hasked, hdone⟩ := conversation_bind.mp written
  obtain ⟨rfl, rfl⟩ := conversation_done.mp hdone
  rw [conversation_question.mp hasked]
  exact ⟨new, reply, second, text, rfl, hf⟩

theorem parseMetadataFile_fst {env : Env} {h : Handler} {r : Bool × Handler}
    (parsed : h.parseMetadataFile env = some r) : r.1 = !decide (h.metadataStr = []) := by
  unfold Handler.parseMetadataFile at parsed
  by_cases empty : h.metadataStr = []
  · rw [if_pos empty] at parsed
    cases parsed
    simp [empty]
  · rw [if_neg empty] at parsed
    obtain ⟨h', -, rfl⟩ := Option.map_eq_some_iff.mp parsed
    simp [empty]

theorem conversation_read {env : Env} {h : Handler} {β : Type} {f : Bool × Handler → Service β}
    {calls : List Exchange} {r : β} (h' : Conversation ((readMetadata env h).bind f) calls r) :
    ∃ reply rest read, calls = (.gets h.usr kMetadataFp, reply) :: rest ∧
      read.1 = !failedReload reply ∧ (read.1 = true → reply.status = .finished ∧
        Handler.parseMetadataFile env { h with metadataStr := reply.value } = some read) ∧
      read.2.usr = h.usr ∧ Conversation (f read) rest r := by
  obtain ⟨first, second, read, rfl, hread, hf⟩ := conversation_bind.mp h'
  obtain ⟨asked, later, reply, rfl, hasked, hrest⟩ := conversation_bind.mp hread
  rw [conversation_question.mp hasked]
  have outcome : later = [] ∧ read.1 = (!failedReload reply) ∧ (read.1 = true →
      reply.status = .finished ∧
        Handler.parseMetadataFile env { h with metadataStr := reply.value } = some read) ∧
      read.2.usr = h.usr := by
    by_cases finished : reply.status = .finished
    · have replied : Conversation (Dialogue.ofOption
          ({ h with metadataStr := reply.value }.parseMetadataFile env)) later read := by
        simpa [finished] using hrest
      obtain ⟨rfl, parsed⟩ := conversation_ofOption.mp replied
      refine ⟨rfl, ?_, fun _ => ⟨finished, parsed⟩, (sameText_parseMetadataFile parsed).usr⟩
      rw [parseMetadataFile_fst parsed]
      simp [failedReload, finished]
    · simp only [ne_eq, finished, not_false_eq_true, if_true] at hrest
      obtain ⟨rfl, rfl⟩ := conversation_done.mp hrest
      refine ⟨rfl, by simp [failedReload, finished], nofun, ?_⟩
      split
      · rfl
      · rfl
  obtain ⟨rfl, known, parsed, usr⟩ := outcome
  exact ⟨reply, second, read, by simp, known, parsed, usr, hf⟩

/-! The user of a handler that deletes -/

section User
variable {env : Env}

theorem usr_deleteEach {delete : Str → Handler → StorageServiceResp →
      Service (Handler × StorageServiceResp)}
    (each : ∀ {path h resp calls r}, Conversation (delete path h resp) calls r → r.1.usr = h.usr)
    {paths : List Str} {h : Handler} {resp : StorageServiceResp} {calls : List Exchange}
    {r : Bool × Handler × StorageServiceResp}
    (ran : Conversation (deleteEach delete paths h resp) calls r) : r.2.1.usr = h.usr := by
  induction paths generalizing h resp calls with
  | nil =>
    obtain ⟨-, rfl⟩ := conversation_done.mp ran
    rfl
  | cons path paths ih =>
    obtain ⟨first, second, one, rfl, deleted, ran⟩ := conversation_bind.mp ran
    split at ran
    · obtain ⟨-, rfl⟩ := conversation_done.mp ran
      exact each deleted
    · exact (ih ran).trans (each deleted)

theorem usr_emptyFirst_of {fuel : Nat} {expectKvFailure : Bool}
    (each : ∀ {path h resp calls r},
      Conversation (handleDelete env fuel 1 expectKvFailure path h resp) calls r → r.1.usr = h.usr)
    {found : Found} {curDir : Dirent} {resp : StorageServiceResp} {calls : List Exchange}
    {r : Bool × Handler × StorageServiceResp}
    (ran : Conversation (emptyFirst env fuel expectKvFailure found curDir resp) calls r) :
    r.2.1.usr = found.handler.usr := by
  rw [emptyFirst] at ran
  split at ran
  · obtain ⟨paths, -, ran⟩ := conversation_bind_ofOption ran
    exact usr_deleteEach each ran
  · obtain ⟨-, rfl⟩ := conversation_done.mp ran
    rfl

/-- A deletion asks for the content of a file first, and goes on with the entry if that is gone or
need not be there. -/
theorem conversation_deleteEmptied {fuel attempts : Nat} {expectKvFailure : Bool} {fp : Str}
    {h : Handler} {found : Found} {curDir : Dirent} {emptied : Handler × StorageServiceResp}
    {calls : List Exchange} {r : Handler × StorageServiceResp}
    (ran : Conversation (deleteEmptied env fuel attempts expectKvFailure fp h found curDir emptied)
      calls r) :
    (∃ errorMsg, r = (emptied.1, emptied.2.fail errorMsg)) ∨
      ∃ content rest, calls = content ++ rest ∧ RemovesContent h.usr expectKvFailure curDir content ∧
        Conversation (storeRemoved env fuel attempts fp found curDir.id emptied.1 emptied.2) rest r := by
  rw [deleteEmptied] at ran
  obtain ⟨content, rest, deleted, rfl, asked, ran⟩ := conversation_bind.mp ran
  have removes : (deleted = true ∨ expectKvFailure = true) →
      RemovesContent h.usr expectKvFailure curDir content := by
    intro gone
    rw [RemovesContent]
    split at asked
    · rename_i file
      obtain ⟨query, none, reply, rfl, question, ended⟩ := conversation_bind.mp asked
      obtain ⟨rfl, rfl⟩ := conversation_done.mp ended
      rw [if_pos file, conversation_question.mp question, List.append_nil]
      exact ⟨reply, rfl, gone.imp_left of_decide_eq_true⟩
    · rename_i folder
      rw [if_neg folder]
      exact (conversation_done.mp asked).1
  split at ran
  · exact .inl ⟨_, (conversation_done.mp ran).2⟩
  · rename_i goes
    refine .inr ⟨content, rest, rfl, removes ?_, ran⟩
    cases deleted with
    | true => exact .inl rfl
    | false => exact .inr (by simpa using goes)

theorem usr_delete {fuel attempts : Nat} {expectKvFailure : Bool} {path : Str} {h : Handler}
    {resp : StorageServiceResp} {calls : List Exchange} {r : Handler × StorageServiceResp}
    (ran : Conversation (handleDelete env fuel attempts expectKvFailure path h resp) calls r) :
    r.1.usr = h.usr := by
  induction fuel generalizing attempts expectKvFailure path h resp calls r with
  | zero => exact absurd ran not_conversation_stuck
  | succ fuel ih =>
    cases attempts with
    | zero =>
      obtain ⟨-, rfl⟩ := conversation_done.mp ran
      rfl
    | succ attempts =>
      rw [handleDelete_eq] at ran
      obtain ⟨found, looked, ran⟩ := conversation_bind_ofOption ran
      have here : found.handler.usr = h.usr := (sameText_validate looked).usr
      split at ran
      · obtain ⟨-, rfl⟩ := conversation_done.mp ran
        exact here
      · obtain ⟨curDir, -, ran⟩ := conversation_bind_ofOption ran
        obtain ⟨nested, later, emptied, rfl, emptying, ran⟩ := conversation_bind.mp ran
        have kept : emptied.2.1.usr = h.usr := (usr_emptyFirst_of ih emptying).trans here
        split at ran
        · obtain ⟨-, rfl⟩ := conversation_done.mp ran
          exact kept
        · rcases conversation_deleteEmptied ran with ⟨_, rfl⟩ | ⟨content, rest, rfl, -, ran⟩
          · exact kept
          · obtain ⟨h', removed, ran⟩ := conversation_bind_ofOption ran
            have kept' : h'.usr = h.usr := (sameText_removeEntry removed).usr.trans kept
            obtain ⟨new, reply, rest, -, rfl, wrote⟩ := conversation_write ran
            split at wrote
            · obtain ⟨-, rfl⟩ := conversation_done.mp wrote
              cases emptied.2.1.directories.lookup curDir.id with
              | none => exact kept'
              | some p => exact kept'
            · obtain ⟨back, reverted, refused⟩ := conversation_bind_ofOption wrote
              obtain ⟨reload, rest, read, rfl, -, -, usr, reloaded⟩ := conversation_read refused
              have kept'' : read.2.usr = h.usr :=
                (usr.trans (sameText_revertRemove reverted).usr).trans kept'
              split at reloaded
              · exact (ih reloaded).trans kept''
              · obtain ⟨-, rfl⟩ := conversation_done.mp reloaded
                exact kept''

/-- A change is made for the user of the handler, and is taken back for it. -/
theorem Changes.usr {expectKvFailure : Bool} {h h' : Handler} {request : Request}
    {made : List Exchange} {back : Option Handler}
    (changes : Changes env expectKvFailure h request made h' back) :
    h'.usr = h.usr ∧ ∀ h'', back = some h'' → h''.usr = h.usr := by
  cases changes with
  | upload looked new latest made | create looked new latest made =>
    have usr := (sameText_createEntry made).usr.trans (sameText_validate looked).usr
    exact ⟨usr, fun h'' reverted => (sameText_revertCreate reverted).usr.trans usr⟩
  | rename looked valid renamed =>
    have usr := (sameText_renameEntry renamed).usr.trans (sameText_validate looked).usr
    exact ⟨usr, fun h'' reverted => (sameText_updates reverted).usr.trans usr⟩
  | move looked valid located valid' moved =>
    have usr := ((sameText_moveEntry moved).usr.trans (sameText_validate located).usr).trans
      (sameText_validate looked).usr
    exact ⟨usr, fun h'' reverted => (sameText_updates reverted).usr.trans usr⟩
  | delete looked valid object emptying contentGone removed =>
    have usr := ((sameText_removeEntry removed).usr.trans
      (usr_emptyFirst_of usr_delete emptying)).trans (sameText_validate looked).usr
    exact ⟨usr, fun h'' reverted => (sameText_revertRemove reverted).usr.trans usr⟩

end User

/-! One attempt after the other -/

section Attempts
variable {env : Env} {req : StorageServiceReq} {expectKvFailure : Bool} {h h' back next : Handler}
  {made rest calls : List Exchange} {new : Str} {refused reload : KvReply}

/-- The metadata are to be read, and are not. -/
def ReloadFails (c : Exchange) : Prop :=
  (∃ usr, c.1 = .gets usr kMetadataFp) ∧ failedReload c.2 = true

/-- The outcome of a request that ended with SUCCESS: stored, or only cleared. -/
def Outcome (env : Env) (req : StorageServiceReq) (expectKvFailure : Bool) (h : Handler)
    (calls : List Exchange) : Prop :=
  (CommittedAfter env req expectKvFailure h calls ∧ lostReload (calls.map Prod.snd) = false) ∨
    ((∃ c ∈ calls, MetadataCput c.1) ∧
      (∀ c ∈ calls, MetadataCput c.1 → c.2.status ≠ .finished) ∧
      lostReload (calls.map Prod.snd) = true ∧ ∃ c ∈ calls, ReloadFails c)

/-- What is committed after an attempt that was refused is committed. -/
theorem CommittedAfter.retry
    (changes : Changes env expectKvFailure h req.request made h' (some back))
    (printed : h'.getMetadataStr env = some new) (failed : refused.status ≠ .finished)
    (read : reload.status = .finished)
    (parsed : Handler.parseMetadataFile env { back with metadataStr := reload.value } =
      some (true, next)) (committed : CommittedAfter env req true next rest) :
    CommittedAfter env req expectKvFailure h
      (made ++ (.cput h.usr kMetadataFp h'.metadataStr new, refused) ::
        (.gets h.usr kMetadataFp, reload) :: rest) := by
  obtain ⟨earlier, expect, last, made', h'', back', new', reply, after, before, changes', printed',
    rfl, others⟩ := committed
  have usr : next.usr = h.usr := (sameText_parseMetadataFile parsed).usr.trans (changes.usr.2 back rfl)
  rw [usr] at others ⊢
  exact ⟨_, expect, last, made', h'', back', new', reply, after,
    .again changes printed failed read parsed before, changes', printed', by simp, others⟩

theorem not_committed (refused : ∀ c ∈ calls, MetadataCput c.1 → c.2.status ≠ .finished) :
    ¬ CommittedAfter env req expectKvFailure h calls := by
  rintro ⟨earlier, expect, last, made, h', back, new, reply, after, -, -, -, rfl, finished, -⟩
  refine refused (.cput h.usr kMetadataFp h'.metadataStr new, reply) ?_ ⟨_, _, _, rfl⟩ finished
  exact List.mem_append_right _ (List.mem_append_right _ List.mem_cons_self)

theorem lostReload_retry (rest : List KvReply) (first : refused.status ≠ .finished)
    (read : failedReload reload = false) :
    lostReload (refused :: reload :: rest) = lostReload rest := by
  cases rest with
  | nil => simp [lostReload, read]
  | cons reply rest => simp [lostReload, first]

/-- A reload after a refused CPUT does not change how the later calls turn out. -/
theorem Outcome.retry (changes : Changes env expectKvFailure h req.request [] h' (some back))
    (printed : h'.getMetadataStr env = some new) (failed : refused.status ≠ .finished)
    (read : reload.status = .finished) (whole : failedReload reload = false)
    (parsed : Handler.parseMetadataFile env { back with metadataStr := reload.value } =
      some (true, next)) (outcome : Outcome env req true next rest) :
    Outcome env req expectKvFailure h ((.cput h.usr kMetadataFp h'.metadataStr new, refused) ::
      (.gets h.usr kMetadataFp, reload) :: rest) := by
  have same := lostReload_retry (rest.map Prod.snd) failed whole
  rcases outcome with ⟨committed, kept⟩ | ⟨-, all, lost, c, mem, fails⟩
  · exact .inl ⟨committed.retry changes printed failed read parsed, same.trans kept⟩
  · refine .inr ⟨⟨_, List.mem_cons_self, _, _, _, rfl⟩, fun c hc put => ?_, same.trans lost,
      c, List.mem_cons_of_mem _ (List.mem_cons_of_mem _ mem), fails⟩
    rcases List.mem_cons.mp hc with rfl | later
    · exact failed
    · rcases List.mem_cons.mp later with rfl | later
      · obtain ⟨usr, old, new, gets⟩ := put
        cases gets
      · exact all c later put

theorem outcome_lost {usr usr' old : Str} (first : refused.status ≠ .finished)
    (failed : failedReload reload = true) :
    Outcome env req expectKvFailure h
      [(.cput usr kMetadataFp old new, refused), (.gets usr' kMetadataFp, reload)] := by
  refine .inr ⟨⟨_, List.mem_cons_self, usr, old, new, rfl⟩, fun c hc put => ?_,
    by simp [lostReload, first, failed],
    _, List.mem_cons_of_mem _ (List.mem_singleton_self _), ⟨usr', rfl⟩, failed⟩
  rcases List.mem_cons.mp hc with rfl | later
  · exact first
  · obtain ⟨usr, old, new, gets⟩ := put
    rw [List.mem_singleton.mp later] at gets
    cases gets

/-- The metadata are stored at once. -/
theorem committed_stored {reverted : Option Handler} {reply : KvReply} {after : List Exchange}
    (changes : Changes env expectKvFailure h req.request made h' reverted)
    (printed : h'.getMetadataStr env = some new) (finished : reply.status = .finished)
    (content : (after = [] ∧ req.type ≠ .fileUpload) ∨ ∃ id stored, h'.latestId = some id ∧
      stored.status = .finished ∧
      after = [(.puts h.usr (toDecimal id) req.uploadContent, stored)]) :
    CommittedAfter env req expectKvFailure h
      (made ++ (.cput h.usr kMetadataFp h'.metadataStr new, reply) :: after) := by
  refine ⟨[], expectKvFailure, h, made, h', reverted, new, reply, after, .none _ h, changes,
    printed, rfl, finished, ?_, fun upload => ?_⟩
  · rintro c hc ⟨usr', old, new', put⟩
    rcases content with ⟨rfl, -⟩ | ⟨id, stored, -, -, rfl⟩
    · cases hc
    · rw [List.mem_singleton.mp hc] at put
      cases put
  · rcases content with ⟨-, other⟩ | stored
    · exact absurd upload other
    · exact stored

theorem lostReload_stored {reply : KvReply} (finished : reply.status = .finished)
    (after : List KvReply) : lostReload (reply :: after) = false := by
  cases after with
  | nil => rfl
  | cons c after => simp [lostReload, finished]

end Attempts

/-! The handlers -/

/-- How move, rename and creation end: they store the metadata, or take the change back, reload
and start again. -/
theorem outcome_write {env : Env} {req : StorageServiceReq} {expectKvFailure : Bool}
    {h h' : Handler} {reverted : Option Handler}
    {stored : Bool × Str → Service (Handler × StorageServiceResp)}
    {again : Bool × Handler → Service (Handler × StorageServiceResp)} {calls : List Exchange}
    {r : Handler × StorageServiceResp}
    (changes : Changes env expectKvFailure h req.request [] h' reverted)
    (content : ∀ new rest, Conversation (stored (true, new)) rest r →
      (rest = [] ∧ req.type ≠ .fileUpload) ∨ ∃ id reply, h'.latestId = some id ∧
        reply.status = .finished ∧
        rest = [(.puts h'.usr (toDecimal id) req.uploadContent, reply)])
    (later : ∀ read rest, Conversation (again read) rest r → Outcome env req true read.2 rest)
    (ran : Conversation ((writeMetadataToKv env h').bind fun written =>
      if written.1 then stored written
      else (Dialogue.ofOption reverted).bind fun h => (readMetadata env h).bind fun read =>
        if read.1 then again read else .done (read.2, .cleared)) calls r) :
    Outcome env req expectKvFailure h calls := by
  obtain ⟨new, reply, rest, printed, rfl, wrote⟩ := conversation_write ran
  obtain ⟨usr, usrBack⟩ := changes.usr
  rw [usr] at content ⊢
  by_cases finished : reply.status = .finished
  · simp only [finished, decide_true, if_true] at wrote
    refine .inl ⟨?_, lostReload_stored finished _⟩
    exact committed_stored changes printed finished (content new rest wrote)
  · simp only [finished, decide_false, Bool.false_eq_true, if_false] at wrote
    obtain ⟨back, rfl, refused⟩ := conversation_bind_ofOption wrote
    obtain ⟨reload, rest', ⟨whole, next⟩, rfl, known, parsed, -, reloaded⟩ :=
      conversation_read refused
    rw [usrBack back rfl]
    split at reloaded
    · rename_i reading
      obtain rfl : whole = true := reading
      obtain ⟨read, parsed⟩ := parsed rfl
      exact (later _ _ reloaded).retry changes printed finished read (by simpa using known) parsed
    · rename_i lost
      obtain ⟨rfl, -⟩ := conversation_done.mp reloaded
      obtain rfl : whole = false := by simpa using lost
      exact outcome_lost finished (by simpa using known)

theorem outcome_move {env : Env} {req : StorageServiceReq} {path newDir : Str}
    (request : req.request = .moveReq path newDir) (type : req.type ≠ .fileUpload)
    {attempts : Nat} {h : Handler} {resp : StorageServiceResp} {calls : List Exchange}
    {r : Handler × StorageServiceResp} (success : r.2.getStatus = .success)
    (ran : Conversation (handleMove env path newDir attempts h resp) calls r)
    (expectKvFailure : Bool) : Outcome env req expectKvFailure h calls := by
  induction attempts generalizing h resp calls expectKvFailure with
  | zero =>
    obtain ⟨-, rfl⟩ := conversation_done.mp ran
    cases success
  | succ attempts ih =>
    rw [handleMove] at ran
    obtain ⟨old, found, ran⟩ := conversation_bind_ofOption ran
    split at ran
    · obtain ⟨-, rfl⟩ := conversation_done.mp ran
      cases success
    · rename_i valid
      obtain ⟨new, located, ran⟩ := conversation_bind_ofOption ran
      split at ran
      · obtain ⟨-, rfl⟩ := conversation_done.mp ran
        cases success
      · rename_i valid'
        obtain ⟨h', moved, ran⟩ := conversation_bind_ofOption ran
        have changes : Changes env expectKvFailure h req.request [] h'
            (revertMove h' old.parentDir old.dir new.dir old.relativePath) := by
          rw [request]
          exact .move found (by simpa using valid) located (by simpa using valid') moved
        refine outcome_write changes ?_ ?_ ran
        · exact fun text rest stored => .inl ⟨(conversation_done.mp stored).1, type⟩
        · exact fun read rest again => ih again true

theorem outcome_rename {env : Env} {req : StorageServiceReq} {oldPath newName : Str}
    (request : req.request = .renameReq oldPath newName) (type : req.type ≠ .fileUpload)
    {attempts : Nat} {h : Handler} {resp : StorageServiceResp} {calls : List Exchange}
    {r : Handler × StorageServiceResp} (success : r.2.getStatus = .success)
    (ran : Conversation (handleRename env oldPath newName attempts h resp) calls r)
    (expectKvFailure : Bool) : Outcome env req expectKvFailure h calls := by
  induction attempts generalizing h resp calls expectKvFailure with
  | zero =>
    obtain ⟨-, rfl⟩ := conversation_done.mp ran
    cases success
  | succ attempts ih =>
    rw [handleRename] at ran
    obtain ⟨found, known, ran⟩ := conversation_bind_ofOption ran
    split at ran
    · obtain ⟨-, rfl⟩ := conversation_done.mp ran
      cases success
    · rename_i valid
      obtain ⟨h', renamed, ran⟩ := conversation_bind_ofOption ran
      have changes : Changes env expectKvFailure h req.request [] h'
          (revertRename h' found.parentDir found.dir found.relativePath newName) := by
        rw [request]
        exact .rename known (by simpa using valid) renamed
      refine outcome_write changes ?_ ?_ ran
      · exact fun text rest stored => .inl ⟨(conversation_done.mp stored).1, type⟩
      · exact fun read rest again => ih again true

/-- An upload that ends with SUCCESS has put its content. -/
theorem putContent_success {env : Env} {path content : Str} {id : Nat} {h : Handler}
    {resp : StorageServiceResp} {calls : List Exchange} {r : Handler × StorageServiceResp}
    (success : r.2.getStatus = .success)
    (ran : Conversation (putContent env path content id h resp) calls r) :
    ∃ reply, reply.status = .finished ∧ calls = [(.puts h.usr (toDecimal id) content, reply)] := by
  obtain ⟨asked, rest, reply, rfl, hasked, answered⟩ := conversation_bind.mp ran
  rw [conversation_question.mp hasked]
  split at answered
  · rename_i finished
    obtain ⟨rfl, -⟩ := conversation_done.mp answered
    exact ⟨reply, finished, rfl⟩
  · obtain ⟨reload, rest', read, rfl, -, -, -, reloaded⟩ := conversation_read answered
    split at reloaded
    · obtain ⟨-, rfl⟩ := conversation_done.mp reloaded
      cases success
    · obtain ⟨first, second, deleted, rfl, -, failed⟩ := conversation_bind.mp reloaded
      obtain ⟨-, rfl⟩ := conversation_done.mp failed
      cases success

theorem outcome_create {env : Env} {req : StorageServiceReq}
    (request : (∃ path content, req.type = .fileUpload ∧ req.request = .fileUploadReq path content) ∨
      ∃ path, req.type = .dirCreate ∧ req.request = .dirCreateOrQueryReq path)
    {attempts : Nat} {h : Handler} {resp : StorageServiceResp} {calls : List Exchange}
    {r : Handler × StorageServiceResp} (success : r.2.getStatus = .success)
    (ran : Conversation (handleCreationAndQuery env req attempts h resp) calls r)
    (expectKvFailure : Bool) : Outcome env req expectKvFailure h calls := by
  have noQuery : decide (req.type = .dirQuery) = false := by
    rcases request with ⟨path, content, type, -⟩ | ⟨path, type, -⟩ <;> simp [type]
  induction attempts generalizing h resp calls expectKvFailure with
  | zero =>
    obtain ⟨-, rfl⟩ := conversation_done.mp ran
    cases success
  | succ attempts ih =>
    rw [handleCreationAndQuery] at ran
    simp only [noQuery, Bool.false_and, Bool.false_eq_true, if_false, Bool.not_false,
      Bool.true_and] at ran
    obtain ⟨found, known, ran⟩ := conversation_bind_ofOption ran
    split at ran
    · obtain ⟨-, rfl⟩ := conversation_done.mp ran
      cases success
    · rename_i invalid
      split at ran
      · obtain ⟨-, rfl⟩ := conversation_done.mp ran
        cases success
      · split at ran
        · obtain ⟨-, rfl⟩ := conversation_done.mp ran
          cases success
        · rename_i latestId latest
          obtain ⟨h', created, ran⟩ := conversation_bind_ofOption ran
          have changes : Changes env expectKvFailure h req.request [] h'
              (revertCreate h' found.parentDir found.relativePath (latestId + 1)) := by
            rcases request with ⟨path, content, type, set⟩ | ⟨path, type, set⟩
            · rw [set]
              simp only [type, decide_true, if_true, StorageServiceReq.uploadPath, set] at known created
              exact .upload known (by simpa using invalid) latest created
            · rw [set]
              simp only [type, reduceCtorEq, decide_false, Bool.false_eq_true, if_false,
                StorageServiceReq.dirPath, set] at known created
              exact .create known (by simpa using invalid) latest created
          refine outcome_write changes ?_ ?_ ran
          · intro text rest stored
            rcases request with ⟨path, content, type, set⟩ | ⟨path, type, set⟩
            · simp only [type, decide_true, if_true] at stored
              obtain ⟨reply, finished, rfl⟩ := putContent_success success stored
              have counted : h'.latestId = some (latestId + 1) := by
                rw [(createEntry_parent created).2, latest]
                rfl
              exact .inr ⟨latestId + 1, reply, counted, finished, rfl⟩
            · simp only [type, reduceCtorEq, decide_false, Bool.false_eq_true, if_false] at stored
              exact .inl ⟨(conversation_done.mp stored).1, by simp [type]⟩
          · exact fun read rest again => ih again true

/-- The loop over the entries stops at the first that fails. -/
theorem deleteEach_failed {delete : Str → Handler → StorageServiceResp →
    Service (Handler × StorageServiceResp)} {paths : List Str} {h : Handler}
    {resp : StorageServiceResp} {calls : List Exchange} {r : Bool × Handler × StorageServiceResp}
    (ran : Conversation (deleteEach delete paths h resp) calls r) (stopped : r.1 = false) :
    r.2.2.getStatus = .fail := by
  induction paths generalizing h resp calls with
  | nil =>
    obtain ⟨-, rfl⟩ := conversation_done.mp ran
    cases stopped
  | cons path paths ih =>
    obtain ⟨first, second, one, rfl, -, ran⟩ := conversation_bind.mp ran
    split at ran
    · rename_i failed
      obtain ⟨-, rfl⟩ := conversation_done.mp ran
      exact failed
    · exact ih ran

theorem emptyFirst_failed {env : Env} {fuel : Nat} {expectKvFailure : Bool} {found : Found}
    {curDir : Dirent} {resp : StorageServiceResp} {calls : List Exchange}
    {r : Handler × StorageServiceResp}
    (ran : Conversation (emptyFirst env fuel expectKvFailure found curDir resp) calls (false, r)) :
    r.2.getStatus = .fail := by
  rw [emptyFirst] at ran
  split at ran
  · obtain ⟨paths, -, loop⟩ := conversation_bind_ofOption ran
    exact deleteEach_failed loop rfl
  · cases (conversation_done.mp ran).2

/-- A deletion that ends with SUCCESS has stored the metadata last. -/
theorem committed_delete {env : Env} {req : StorageServiceReq} {fp : Str}
    (request : req.request = .deleteReq fp) (type : req.type ≠ .fileUpload)
    {fuel attempts : Nat} {expectKvFailure : Bool} {h : Handler} {resp : StorageServiceResp}
    {calls : List Exchange} {r : Handler × StorageServiceResp} (success : r.2.getStatus = .success)
    (ran : Conversation (handleDelete env fuel attempts expectKvFailure fp h resp) calls r) :
    CommittedAfter env req expectKvFailure h calls := by
  induction fuel generalizing attempts expectKvFailure h resp calls with
  | zero => exact absurd ran not_conversation_stuck
  | succ fuel ih =>
    cases attempts with
    | zero =>
      obtain ⟨-, rfl⟩ := conversation_done.mp ran
      cases success
    | succ attempts =>
      rw [handleDelete_eq] at ran
      obtain ⟨found, known, ran⟩ := conversation_bind_ofOption ran
      split at ran
      · obtain ⟨-, rfl⟩ := conversation_done.mp ran
        cases success
      · rename_i valid
        obtain ⟨curDir, present, ran⟩ := conversation_bind_ofOption ran
        obtain ⟨nested, later, ⟨whole, emptied, resp'⟩, rfl, emptying, ran⟩ :=
          conversation_bind.mp ran
        cases whole with
        | false =>
          obtain ⟨-, rfl⟩ := conversation_done.mp ran
          have failed : resp'.getStatus = .fail := emptyFirst_failed emptying
          cases failed.symm.trans success
        | true =>
          rcases conversation_deleteEmptied ran with ⟨_, rfl⟩ | ⟨content, rest, rfl, gone, ran⟩
          · cases success
          · obtain ⟨h', removed, removing⟩ := conversation_bind_ofOption ran
            have changes : Changes env expectKvFailure h req.request (nested ++ content) h'
                (revertRemove h' found.parentDir found.relativePath curDir.id
                  (emptied.directories.lookup curDir.id)) := by
              rw [request]
              exact .delete known (by simpa using valid) present emptying gone removed
            obtain ⟨usr, usrBack⟩ := changes.usr
            obtain ⟨new, reply, rest, printed, rfl, wrote⟩ := conversation_write removing
            rw [← List.append_assoc, usr]
            by_cases finished : reply.status = .finished
            · simp only [finished, decide_true, if_true] at wrote
              obtain ⟨rfl, -⟩ := conversation_done.mp wrote
              exact committed_stored changes printed finished (.inl ⟨rfl, type⟩)
            · simp only [finished, decide_false, Bool.false_eq_true, if_false] at wrote
              obtain ⟨back, reverted, refused⟩ := conversation_bind_ofOption wrote
              obtain ⟨reload, rest', ⟨read, next⟩, rfl, -, parsed, -, reloaded⟩ :=
                conversation_read refused
              rw [reverted] at changes
              rw [usrBack back reverted]
              split at reloaded
              · rename_i reading
                obtain rfl : read = true := reading
                obtain ⟨read, parsed⟩ := parsed rfl
                exact (ih reloaded).retry changes printed finished read parsed
              · obtain ⟨-, rfl⟩ := conversation_done.mp reloaded
                cases success

/-! Requests -/

theorem outcome_request {env : Env} {h : Handler} {req : StorageServiceReq} (mutates : Mutates req)
    {calls : List Exchange} {r : Handler × StorageServiceResp}
    (success : r.2.getStatus = .success)
    (ran : Conversation (handleRequest env h req) calls r) :
    (Deletes req → Committed env req h calls) ∧ (¬ Deletes req → Outcome env req false h calls) := by
  obtain ⟨type, request⟩ := req
  have invalid : ∀ {calls : List Exchange}, Conversation (.done (h,
      StorageServiceResp.cleared.fail "Invalid request.".toList) :
        Service (Handler × StorageServiceResp)) calls r → False := by
    intro calls ended
    obtain ⟨-, rfl⟩ := conversation_done.mp ended
    cases success
  have other : ∀ {req : StorageServiceReq} {calls : List Exchange}, Outcome env req false h calls →
      ¬ Deletes req → (Deletes req → Committed env req h calls) ∧
        (¬ Deletes req → Outcome env req false h calls) :=
    fun outcome no => ⟨fun yes => absurd yes no, fun _ => outcome⟩
  cases type with
  | fileUpload =>
    cases request with
    | fileUploadReq path content =>
      exact other (outcome_create (.inl ⟨path, content, rfl, rfl⟩) success ran false) (by simp [Deletes])
    | _ => exact (invalid ran).elim
  | dirCreate =>
    cases request with
    | dirCreateOrQueryReq path =>
      exact other (outcome_create (.inr ⟨path, rfl, rfl⟩) success ran false) (by simp [Deletes])
    | _ => exact (invalid ran).elim
  | fileRename | dirRename =>
    cases request with
    | renameReq oldPath newName =>
      exact other (outcome_rename rfl (by simp) success ran false) (by simp [Deletes])
    | _ => exact (invalid ran).elim
  | fileMove | dirMove =>
    cases request with
    | moveReq path newDir =>
      exact other (outcome_move rfl (by simp) success ran false) (by simp [Deletes])
    | _ => exact (invalid ran).elim
  | fileDele | dirDele =>
    cases request with
    | deleteReq path =>
      exact ⟨fun _ => committed_delete rfl (by simp) success ran,
        fun no => absurd (by simp [Deletes]) no⟩
    | _ => exact (invalid ran).elim
  | fileDownload => exact absurd rfl mutates.1
  | dirQuery => exact absurd rfl mutates.2.1
  | queryAllDir => exact absurd rfl mutates.2.2

def env : Env := ⟨Iteration.stored Ptr, 20⟩

/-- A handler of bob that has read the text. -/
def reading (text : String) : Option Handler :=
  (Handler.parseMetadataFile env
    { usr := "bob".toList, backendFd := 5, metadataStr := text.toList }).map Prod.snd

def rename : StorageServiceReq := ⟨.dirRename, .renameReq "/d".toList "e".toList⟩

/-- One directory in the root folder. -/
def oneDir : Option Handler :=
  reading "Latest ID: 2\nRoot folder: /bob ID 1 Items 1\nd ID 2 D\nFolder: /bob/d ID 2 Items 0\n"

end StorageCommit
