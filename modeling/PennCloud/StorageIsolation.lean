import PennCloud.StoredFiles

/-!
# The storage of a user is its own

Whatever is stored, asked for and answered, the service calls the store with the name
of its user only, and with the keys of the storage of a user only.
-/

namespace StorageIsolation

open Text KvInterface UnorderedMap StorageMetadata StorageHandler StorageCommit Dialogue
  HandlerText StorageDelete FileService StoredFiles

/-- The call is one of the user, about its storage. -/
def Own (usr : Str) (call : KvCall) : Prop :=
  (SharedMetadata.place call).1 = usr ∧ OfStorage (SharedMetadata.place call).2

/-- Whatever is answered, all calls are the own ones of the user. -/
abbrev Anyway {α : Type} (usr : Str) (p : Service α) (post : α → Prop) : Prop :=
  p.Respects (fun _ _ => True) (Own usr) post

/-- The handler is that of the user, and its response has no body. If it is SUCCESS nothing is
left of an earlier one. -/
structure Answered (usr : Str) (r : Handler × StorageServiceResp) : Prop where
  user : r.1.usr = usr
  body : r.2.body = .notSet
  success : r.2.status = some .success → r.2 = succeeded usr .notSet

section Parts
variable {usr : Str} {h h' : Handler} {env : Env} {resp : StorageServiceResp}

theorem answered_fail (user : h.usr = usr) (body : resp.body = .notSet) (errorMsg : Str) :
    Answered usr (h, resp.fail errorMsg) := ⟨user, body, nofun⟩

theorem answered_success (user : h.usr = usr) (user' : h'.usr = usr)
    (body : resp.body = .notSet) : Answered usr (h', populateSuccessResp h resp) where
  user := user'
  body := body
  success _ := by rw [populateSuccessResp, succeeded, user, body]

theorem anyway_read (user : h.usr = usr) :
    Anyway usr (readMetadata env h) fun read => read.2.usr = usr := by
  refine ⟨⟨user, ofStorage_metadata⟩, fun reply _ => ?_⟩
  show Anyway usr (if reply.status ≠ .finished then _ else _) _
  have same : ∀ h', h' = (if reply.status = .linkError then h
      else { h with metadataStr := reply.value }) → h'.usr = usr := by
    rintro h' rfl
    split
    · exact user
    · exact user
  split
  · exact same _ rfl
  · cases parsed : Handler.parseMetadataFile env (if reply.status = .linkError then h
        else { h with metadataStr := reply.value }) with
    | none => trivial
    | some read => exact (sameText_parseMetadataFile parsed).usr.trans (same _ rfl)

/-- The metadata is printed and given to the store. -/
theorem anyway_write {α : Type} {f : Bool × Str → Service α} {post : α → Prop} (user : h.usr = usr)
    (next : ∀ written, Anyway usr (f written) post) :
    Anyway usr ((writeMetadataToKv env h).bind f) post := by
  rw [writeMetadataToKv, bind_assoc]
  refine respects_ofOption fun text _ => ⟨⟨user, ofStorage_metadata⟩, fun reply _ => ?_⟩
  exact next _

/-- A change that was refused is taken back, and tried once more after the metadata was read. -/
theorem anyway_retry {a : Option Handler} {again : Handler → Service (Handler × StorageServiceResp)}
    {post : Handler × StorageServiceResp → Prop} (user : ∀ h', a = some h' → h'.usr = usr)
    (next : ∀ h', h'.usr = usr → Anyway usr (again h') post)
    (last : Handler → StorageServiceResp) (failed : ∀ h', h'.usr = usr → post (h', last h')) :
    Anyway usr ((Dialogue.ofOption a).bind fun h => (readMetadata env h).bind fun read =>
      if read.1 then again read.2 else .done (read.2, last read.2)) post := by
  refine respects_ofOption fun h' reverted => ?_
  refine respects_bind ((anyway_read (user h' reverted)).mono fun read kept => ?_)
  split
  · exact next _ kept
  · exact failed _ kept

end Parts

/-! Deletions -/

section Deletions
variable {usr : Str} {h : Handler} {env : Env} {resp : StorageServiceResp}

theorem anyway_deleteEach {delete : Str → Handler → StorageServiceResp →
      Service (Handler × StorageServiceResp)}
    (each : ∀ path h resp, h.usr = usr → resp.body = .notSet →
      Anyway usr (delete path h resp) (Answered usr)) {paths : List Str} (user : h.usr = usr)
    (body : resp.body = .notSet) : Anyway usr (deleteEach delete paths h resp) fun r =>
      r.2.1.usr = usr ∧ r.2.2.body = .notSet ∧ (r.1 = false → r.2.2.status = some .fail) := by
  induction paths generalizing h resp with
  | nil => exact ⟨user, body, nofun⟩
  | cons path paths ih =>
    rw [deleteEach]
    refine respects_bind ((each path h resp user body).mono fun r answered => ?_)
    split
    · rename_i failed
      refine ⟨answered.user, answered.body, fun _ => ?_⟩
      cases status : r.2.status with
      | none =>
        rw [StorageServiceResp.getStatus, status] at failed
        cases failed
      | some s =>
        rw [StorageServiceResp.getStatus, status] at failed
        exact congrArg some failed
    · exact ih answered.user answered.body

theorem anyway_delete {fuel attempts : Nat} {expectKvFailure : Bool} {fp : Str} (user : h.usr = usr)
    (body : resp.body = .notSet) :
    Anyway usr (handleDelete env fuel attempts expectKvFailure fp h resp) (Answered usr) := by
  induction fuel generalizing attempts expectKvFailure fp h resp with
  | zero => trivial
  | succ fuel ih =>
    cases attempts with
    | zero => exact answered_fail user body _
    | succ attempts =>
      rw [handleDelete_eq]
      refine respects_ofOption fun found looked => ?_
      have here : found.handler.usr = usr := (sameText_validate looked).usr.trans user
      cases valid : found.valid with
      | false => exact answered_fail here body _
      | true =>
        refine respects_ofOption fun curDir _ => ?_
        have emptying : Anyway usr (emptyFirst env fuel expectKvFailure found curDir resp) fun r =>
            r.2.1.usr = usr ∧ r.2.2.body = .notSet ∧ (r.1 = false → r.2.2.status = some .fail) := by
          rw [emptyFirst]
          split
          · refine respects_ofOption fun paths _ => ?_
            exact anyway_deleteEach (fun path h resp user body => ih user body) here body
          · refine ⟨here, body, ?_⟩
            intro no
            cases no
        refine respects_bind (emptying.mono ?_)
        rintro ⟨done, h₁, resp₁⟩ ⟨user₁, body₁, stopped⟩
        cases done with
        | false =>
          refine ⟨user₁, body₁, fun ok => ?_⟩
          rw [stopped rfl] at ok
          cases ok
        | true =>
          show Anyway usr (deleteEmptied env fuel attempts expectKvFailure fp h found curDir
            (h₁, resp₁)) _
          rw [deleteEmptied]
          have removing : Anyway usr (storeRemoved env fuel attempts fp found curDir.id h₁ resp₁)
              (Answered usr) := by
            refine respects_ofOption fun h' removed => ?_
            have user' : h'.usr = usr := (sameText_removeEntry removed).usr.trans user₁
            refine anyway_write user' fun written => ?_
            split
            · refine answered_success user' ?_ body₁
              cases h₁.directories.lookup curDir.id with
              | none => exact user'
              | some p => exact user'
            · exact anyway_retry
                (fun h'' reverted => (sameText_revertRemove reverted).usr.trans user')
                (fun h'' again => ih again rfl) _ fun h'' again => answered_fail again rfl _
          split
          · refine ⟨⟨user, ofStorage_id _⟩, fun reply _ => ?_⟩
            show Anyway usr (if (!decide (reply.status = .finished) && !expectKvFailure) = true
              then _ else _) _
            split
            · exact answered_fail user₁ body₁ _
            · exact removing
          · exact removing

end Deletions

/-! The other requests -/

section Requests
variable {usr : Str} {h : Handler} {env : Env} {resp : StorageServiceResp}

theorem anyway_move {path newDir : Str} {attempts : Nat} (user : h.usr = usr) :
    Anyway usr (handleMove env path newDir attempts h resp) fun _ => True := by
  induction attempts generalizing h resp with
  | zero => trivial
  | succ attempts ih =>
    rw [handleMove]
    refine respects_ofOption fun old looked => ?_
    have here : old.handler.usr = usr := (sameText_validate looked).usr.trans user
    split
    · trivial
    · refine respects_ofOption fun new located => ?_
      have there : new.handler.usr = usr := (sameText_validate located).usr.trans here
      split
      · trivial
      · refine respects_ofOption fun h' moved => ?_
        have user' : h'.usr = usr := (sameText_moveEntry moved).usr.trans there
        refine anyway_write user' fun written => ?_
        split
        · trivial
        · have back : ∀ h'', revertMove h' old.parentDir old.dir new.dir old.relativePath =
              some h'' → h''.usr = usr := fun h'' reverted =>
            (sameText_updates reverted).usr.trans user'
          exact anyway_retry back (fun h'' again => ih again) (fun _ => .cleared) fun _ _ => trivial

theorem anyway_rename {oldPath newName : Str} {attempts : Nat} (user : h.usr = usr) :
    Anyway usr (handleRename env oldPath newName attempts h resp) fun _ => True := by
  induction attempts generalizing h resp with
  | zero => trivial
  | succ attempts ih =>
    rw [handleRename]
    refine respects_ofOption fun found looked => ?_
    have here : found.handler.usr = usr := (sameText_validate looked).usr.trans user
    split
    · trivial
    · refine respects_ofOption fun h' renamed => ?_
      have user' : h'.usr = usr := (sameText_renameEntry renamed).usr.trans here
      refine anyway_write user' fun written => ?_
      split
      · trivial
      · have back : ∀ h'', revertRename h' found.parentDir found.dir found.relativePath newName =
            some h'' → h''.usr = usr := fun h'' reverted =>
          (sameText_updates reverted).usr.trans user'
        exact anyway_retry back (fun h'' again => ih again) (fun _ => .cleared) fun _ _ => trivial

theorem anyway_putContent {path content : Str} {id : Nat} (user : h.usr = usr)
    (body : resp.body = .notSet) :
    Anyway usr (putContent env path content id h resp) fun _ => True := by
  refine ⟨⟨user, ofStorage_id id⟩, fun reply _ => ?_⟩
  show Anyway usr (if reply.status = .finished then _ else _) _
  split
  · trivial
  · refine respects_bind ((anyway_read user).mono fun read kept => ?_)
    split
    · trivial
    · exact respects_bind ((anyway_delete kept body).mono fun _ _ => trivial)

theorem anyway_answerQuery {found : Found} :
    Anyway usr (answerQuery env found resp) fun _ => True := by
  refine respects_ofOption fun curDir _ => respects_ofOption fun name _ => ?_
  exact respects_ofOption fun entries _ => trivial

theorem anyway_creation {req : StorageServiceReq} {attempts : Nat} (user : h.usr = usr)
    (body : resp.body = .notSet) :
    Anyway usr (handleCreationAndQuery env req attempts h resp) fun _ => True := by
  induction attempts generalizing h resp with
  | zero => trivial
  | succ attempts ih =>
    rw [handleCreationAndQuery]
    refine respects_ofOption fun found looked => ?_
    have here : found.handler.usr = usr := (sameText_validate looked).usr.trans user
    split
    · trivial
    split
    · trivial
    split
    · trivial
    split
    · exact anyway_answerQuery
    split
    · trivial
    · refine respects_ofOption fun h' created => ?_
      have user' : h'.usr = usr := (sameText_createEntry created).usr.trans here
      refine anyway_write user' fun written => ?_
      split
      · split
        · exact anyway_putContent user' body
        · trivial
      · have back : ∀ {id} h'', revertCreate h' found.parentDir found.relativePath id = some h'' →
            h''.usr = usr := fun h'' reverted => (sameText_revertCreate reverted).usr.trans user'
        exact anyway_retry back (fun h'' again => ih again rfl) (fun _ => .cleared)
          fun _ _ => trivial

theorem anyway_download {fp : Str} (user : h.usr = usr) :
    Anyway usr (handleFileDownload fp h resp) fun _ => True := by
  refine respects_ofOption fun found _ => ?_
  split
  · trivial
  · refine respects_ofOption fun curDir _ => ⟨⟨user, ofStorage_id _⟩, fun reply _ => ?_⟩
    show Anyway usr (if reply.status ≠ .finished then _ else _) _
    split
    · trivial
    · trivial

theorem anyway_movable {fp : Str} :
    Anyway usr (handleQueryAllMovableDir env fp h resp) fun _ => True := by
  rw [handleQueryAllMovableDir]
  split
  · trivial
  · refine respects_ofOption fun found _ => ?_
    split
    · trivial
    · exact respects_ofOption fun dirs _ => trivial

theorem anyway_request {req : StorageServiceReq} (user : h.usr = usr) :
    Anyway usr (handleRequest env h req) fun _ => True := by
  unfold handleRequest
  split
  · exact anyway_creation user rfl
  · exact anyway_download user
  · exact anyway_rename user
  · exact anyway_rename user
  · exact (anyway_delete user rfl).mono fun _ _ => trivial
  · exact (anyway_delete user rfl).mono fun _ _ => trivial
  · exact anyway_creation user rfl
  · exact anyway_creation user rfl
  · exact anyway_move user
  · exact anyway_move user
  · exact anyway_movable
  · trivial

theorem anyway_serve (env : Env) (usr : Str) (fd : Int) (req : StorageServiceReq) :
    Anyway usr (serve env usr fd req) fun _ => True := by
  refine respects_bind ((anyway_read (h := { usr := usr, backendFd := fd }) rfl).mono
    fun read kept => ?_)
  split
  · trivial
  · exact respects_bind ((anyway_request kept).mono fun _ _ => trivial)

/-- A service asks for nothing but the storage of its own user, whatever was stored there, and
whatever the request is and the answers are, also where it is given up or does not end. -/
theorem serve_asks_own {env : Env} {usr : Str} {fd : Int} {req : StorageServiceReq}
    {transcript : List (KvCall × KvReply)} {call : KvCall}
    (asked : Asks (serve env usr fd req) transcript call) : Own usr call :=
  (anyway_serve env usr fd req).asks asked fun _ _ => trivial

/-- An upload of bob, once the new metadata are stored. -/
theorem bob_asks_own : ∃ transcript, transcript.length = 2 ∧
    Asks (serve ⟨.stored Ptr, 20⟩ "bob".toList 3
      ⟨.fileUpload, .fileUploadReq "/f".toList "x".toList⟩) transcript
      (.puts "bob".toList (toDecimal 2) "x".toList) ∧
    Own "bob".toList (.puts "bob".toList (toDecimal 2) "x".toList) := by
  have outcome : ((serve ⟨.stored Ptr, 20⟩ "bob".toList 3
      ⟨.fileUpload, .fileUploadReq "/f".toList "x".toList⟩).converse
        [⟨.finished, SharedMetadata.initialMetadata "bob".toList⟩, ⟨.finished, []⟩,
          ⟨.finished, []⟩]).map (fun r => (r.2.drop 2).map Prod.fst) =
      some [.puts "bob".toList (toDecimal 2) "x".toList] := by decide +kernel
  obtain ⟨⟨resp, transcript⟩, ran, last⟩ := Option.map_eq_some_iff.mp outcome
  obtain ⟨spoken, answers⟩ := conversation_of_converse ran
  have length : transcript.length = 3 := by
    simpa using congrArg List.length answers
  obtain ⟨c, tail, split⟩ := List.exists_cons_of_ne_nil (l := transcript.drop 2) (by
    intro empty
    rw [empty] at last
    cases last)
  rw [split, List.map_cons, List.cons.injEq] at last
  obtain ⟨query, answer⟩ := c
  obtain ⟨rfl, -⟩ := last
  rw [← List.take_append_drop 2 transcript, split] at spoken
  have asked := asks_of_conversation spoken
  exact ⟨transcript.take 2, by simp [length], asked, serve_asks_own asked⟩

end Requests

end StorageIsolation
