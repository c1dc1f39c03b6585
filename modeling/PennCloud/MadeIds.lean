import PennCloud.HandlerText
import PennCloud.SharedMetadata

/-!
# The ids of new entries

A creation or an upload takes the next id before its CPUT and gives it back when the
CPUT is not FINISHED. So it is the one whose CPUT advances the last id to it.
-/

namespace SharedMetadata

open Text KvInterface UnorderedMap StorageMetadata StorageHandler MetadataIds HandlerText

/-! An entry that is not stored yet -/

/-- The only object with the new id is in the map from ids. -/
def Mine (id : Nat) (h : Handler) : Prop :=
  ∀ p d, h.memory.lookup p = some d → d.id = id → h.directories.lookup id = some p

/-- A handler with a new entry: its last id is one more than that of the text it would replace. -/
def Made (usr : Str) (k : Nat) (h : Handler) : Prop :=
  Mine (k + 1) h ∧ ∃ text, Sound usr (k + 1) (some (k + 1)) text h ∧ ∀ j, Stored j text → j = k

section Making
variable {usr : Str} {k : Nat} {h h' : Handler} {parentDir : Option Ptr} {relativePath : Str}

theorem Mine.update {id : Nat} {p : Option Ptr} {f : Dirent → Dirent} (mine : Mine id h)
    (updated : h.update p f = some h') (keeps : ∀ d, (f d).id = d.id) : Mine id h' := by
  obtain ⟨q, rfl, found⟩ := Option.bind_eq_some_iff.mp updated
  obtain ⟨d, object, rfl⟩ := Option.map_eq_some_iff.mp found
  intro other e stored same
  by_cases here : other = q
  · subst here
    cases (AList.lookup_insert h.memory).symm.trans stored
    exact mine _ d object ((keeps d).symm.trans same)
  · exact mine other e ((AList.lookup_insert_ne here).symm.trans stored) same

/-- The new object, under its id. -/
theorem made_object {text : Str} {latest : Option Nat} {d : Dirent}
    (sound : Sound usr k latest text h) (fit : Fit (k + 1) d) :
    Sound usr (k + 1) latest text { (h.allocate d).1 with
      directories := (h.allocate d).1.directories.insert (k + 1) (h.allocate d).2 } ∧
    Mine (k + 1) { (h.allocate d).1 with
      directories := (h.allocate d).1.directories.insert (k + 1) (h.allocate d).2 } := by
  refine ⟨((sound.mono (Nat.le_succ k)).allocate fit).directories _, fun p e stored same => ?_⟩
  by_cases new : p = h.nextPtr
  · rw [new]
    exact AList.lookup_insert _
  · have old := sound.objects p e ((AList.lookup_insert_ne new).symm.trans stored)
    exact absurd old.id_le (by omega)

theorem Knows.createEntry {isFile : Bool} (knows : Knows usr k h)
    (spelled : ∀ c ∈ relativePath, pathChar c = true)
    (made : createEntry h parentDir relativePath (k + 1) isFile = some h') : Made usr k h' := by
  obtain ⟨text, sound, only⟩ := knows
  obtain ⟨-, made⟩ := Option.ite_none_left_eq_some.mp made
  obtain ⟨linked, first, made⟩ := Option.bind_eq_some_iff.mp made
  obtain ⟨last, second, rfl⟩ := Option.map_eq_some_iff.mp made
  obtain ⟨allocated, mine⟩ := made_object (sound.free (h.directories.lookup (k + 1)))
    (fit_new isFile spelled le_rfl)
  have finished := (allocated.update (fun d => Fit.addEntry spelled _) first).update
    (fun d => Fit.updateParent _) second
  have mine' := (mine.update first fun _ => rfl).update second fun _ => rfl
  exact ⟨mine', text, ⟨finished.usr, by rw [finished.latestId]; rfl, finished.metadataStr,
    finished.objects⟩, only⟩

theorem Made.revertCreate (made : Made usr k h)
    (reverted : revertCreate h parentDir relativePath (k + 1) = some h') : Knows usr k h' := by
  obtain ⟨mine, text, sound, only⟩ := made
  obtain ⟨without, first, rfl⟩ := Option.map_eq_some_iff.mp reverted
  have removed := sound.update (fun d => Fit.deleteEntry relativePath) first
  have mine' := mine.update first fun _ => rfl
  have freed := removed.free (without.directories.lookup (k + 1))
  refine ⟨text, ⟨freed.usr, by rw [removed.latestId]; rfl, freed.metadataStr, fun p d object => ?_⟩,
    only⟩
  have fit := freed.objects p d object
  have other : d.id ≠ k + 1 := by
    intro same
    cases here : without.directories.lookup (k + 1) with
    | none =>
      simp only [here, Handler.free] at object
      cases here.symm.trans (mine' p d object same)
    | some q =>
      simp only [here, Handler.free] at object
      by_cases freed : p = q
      · rw [freed, AList.lookup_erase] at object
        cases object
      · rw [AList.lookup_erase_ne freed] at object
        cases here.symm.trans (mine' p d object same)
        exact freed rfl
  exact ⟨by have := fit.id_le; omega, fit.relativePath, fit.entries⟩

/-- The entry is stored. -/
theorem Made.stored {new : Str} (made : Made usr k h) (text : Stored (k + 1) new) :
    Knows usr (k + 1) { h with metadataStr := new } := by
  obtain ⟨-, old, sound, -⟩ := made
  exact ⟨new, ⟨sound.usr, sound.latestId, rfl, sound.objects⟩, fun j again => again.unique text⟩

end Making

/-! The id that a program gives -/

/-- The path of the new entry. -/
def creationPath (req : StorageServiceReq) : Str :=
  if req.type = .fileUpload then req.uploadPath else req.dirPath

/-- The program is an attempt of the request that has made an entry with the id, which it goes on to
store. -/
def Gives (env : Env) (req : StorageServiceReq)
    (program : Service (Handler × StorageServiceResp)) (id : Nat) : Prop :=
  ∃ attempts h resp found h', program = handleCreationAndQuery env req (attempts + 1) h resp ∧
    h.validatePathAndGetDir (creationPath req) = some found ∧ found.valid = false ∧
    found.handler.latestId = some (id - 1) ∧ 0 < id ∧
    createEntry found.handler found.parentDir found.relativePath id
      (decide (req.type = .fileUpload)) = some h'

section Giving
variable {usr : Str} {k n : Nat} {env : Env} {req : StorageServiceReq} {h h' : Handler}
  {resp : StorageServiceResp}

/-- What a creation does after its CPUT. -/
def afterWrite (env : Env) (req : StorageServiceReq) (attempts : Nat) (found : Found) (id : Nat)
    (h : Handler) (resp : StorageServiceResp) (written : Bool × Str) :
    Service (Handler × StorageServiceResp) :=
  if written.1 then
    if decide (req.type = .fileUpload) then
      putContent env (creationPath req) req.uploadContent id { h with metadataStr := written.2 } resp
    else .done ({ h with metadataStr := written.2 }, populateSuccessResp h resp)
  else
    (Dialogue.ofOption (revertCreate h found.parentDir found.relativePath id)).bind fun h =>
      (readMetadata env h).bind fun read =>
        if read.1 then handleCreationAndQuery env req attempts read.2 .cleared
        else .done (read.2, .cleared)

theorem handleCreation_made {attempts latestId : Nat} {found : Found}
    (creates : req.type ≠ .dirQuery)
    (located : h.validatePathAndGetDir (creationPath req) = some found)
    (invalid : found.valid = false) (known : found.handler.latestId = some latestId)
    (made : createEntry found.handler found.parentDir found.relativePath (latestId + 1)
      (decide (req.type = .fileUpload)) = some h') :
    handleCreationAndQuery env req (attempts + 1) h resp =
      (writeMetadataToKv env h').bind (afterWrite env req attempts found (latestId + 1) h' resp) := by
  have path : (if decide (req.type = .fileUpload) = true then req.uploadPath else req.dirPath) =
      creationPath req := by simp [creationPath]
  rw [handleCreationAndQuery]
  simp only [path, located, Dialogue.ofOption, Dialogue.bind, creates, decide_false,
    Bool.false_and, Bool.false_eq_true, if_false, invalid, Bool.not_false,
    Bool.true_and, (createEntry_parent made).1, known, made]
  rfl

/-- What is printed says the last id. -/
theorem latest_of_printed {id m : Nat} {new : Str} (printed : h.getMetadataStr env = some new)
    (latest : h.latestId = some id) (stored : Stored m new) : id = m := by
  obtain ⟨lines, same, -⟩ := stored
  obtain ⟨r, -, printed⟩ := Option.bind_eq_some_iff.mp printed
  obtain ⟨rest, -, spelled⟩ := Option.map_eq_some_iff.mp printed
  rw [latest, same, MetadataText.unlines_cons, MetadataText.latestLine, List.append_assoc] at spelled
  have numbers := (List.append_right_inj MetadataText.latestWords).mp spelled
  exact toDecimal_injective (append_blank_inj (fun _ => dark_toDecimal) (fun _ => dark_toDecimal)
    (by decide) (by decide) numbers).1

theorem gives_iff {attempts : Nat} {found : Found} {new : Str} (creates : req.type ≠ .dirQuery)
    (located : h.validatePathAndGetDir (creationPath req) = some found)
    (invalid : found.valid = false) (known : found.handler.latestId = some k)
    (made : createEntry found.handler found.parentDir found.relativePath (k + 1)
      (decide (req.type = .fileUpload)) = some h')
    (printed : h'.getMetadataStr env = some new) (stored : Stored (k + 1) new) (id : Nat) :
    Gives env req ((writeMetadataToKv env h').bind
      (afterWrite env req attempts found (k + 1) h' resp)) id ↔ id = k + 1 := by
  constructor
  · rintro ⟨attempts', other, resp', found', made', same, located', invalid', known', pos, entry⟩
    obtain ⟨latestId, rfl⟩ : ∃ latestId, id = latestId + 1 := ⟨id - 1, by omega⟩
    rw [handleCreation_made creates located' invalid' known' entry,
      writeMetadataToKv_bind printed] at same
    have latest : made'.latestId = some (latestId + 1) := by
      rw [(createEntry_parent entry).2, known']
      rfl
    cases text : made'.getMetadataStr env with
    | none =>
      rw [writeMetadataToKv_stuck text] at same
      cases same
    | some new' =>
      rw [writeMetadataToKv_bind text] at same
      obtain ⟨asked, -⟩ := Dialogue.ask.inj same
      obtain ⟨-, -, -, rfl⟩ := KvCall.cput.inj asked
      exact latest_of_printed text latest stored
  · rintro rfl
    exact ⟨attempts, h, resp, found, h', (handleCreation_made creates located invalid known made).symm,
      located, invalid, known, Nat.succ_pos k, made⟩

theorem tame_putContent {gives : Service (Handler × StorageServiceResp) → Nat → Prop}
    {path content : Str} {id : Nat} (knows : Knows usr k h) (le : k ≤ n) :
    Tame usr gives (Rests usr) false n (putContent env path content id h resp) := by
  rw [putContent]
  refine tame_elsewhere (fun same => toDecimal_ne_metadata id (congrArg Prod.snd same))
    fun reply m le' => ?_
  split
  · exact ⟨k, le.trans le', knows⟩
  · refine tame_read knows (le.trans le') fun read j m' known small _ => ?_
    split
    · exact ⟨j, small, known⟩
    · exact tame_bind (tame_imp (fun m r rests => rests) (tame_delete known small))

/-- The CPUT of a new entry. -/
theorem tame_made {f : Bool × Str → Service (Handler × StorageServiceResp)}
    {gives : Service (Handler × StorageServiceResp) → Nat → Prop} (made : Made usr k h)
    (gave : ∀ new, h.getMetadataStr env = some new → Stored (k + 1) new →
      ∀ id, gives ((writeMetadataToKv env h).bind f) id ↔ id = k + 1)
    (stored : ∀ new, Stored (k + 1) new →
      Tame usr gives (Rests usr) false (k + 1) (f (true, new)))
    (failed : ∀ new m, n ≤ m → Tame usr gives (Rests usr) true m (f (false, new))) :
    Tame usr gives (Rests usr) true n ((writeMetadataToKv env h).bind f) := by
  obtain ⟨-, old, sound, only⟩ := made
  cases printed : h.getMetadataStr env with
  | none =>
    rw [writeMetadataToKv_stuck printed]
    trivial
  | some new =>
    have text := sound.getMetadataStr printed
    have given := gave new printed text
    rw [writeMetadataToKv_bind printed, sound.usr, sound.metadataStr] at given ⊢
    refine tame_cput (fun j _ before => ?_) text (fun _ j _ before => ⟨?_, given⟩)
      (fun _ => stored new text) fun status m bad le' => ?_
    · rw [only j before]
      exact Nat.le_succ k
    · rw [only j before]
      exact Nat.lt_succ_self k
    · rw [decide_eq_false bad]
      exact failed new m le'

theorem tame_creation {attempts : Nat} (creates : req.type ≠ .dirQuery)
    (checked : ∀ c ∈ lastName (creationPath req), pathChar c = true)
    (knows : Knows usr k h) (le : k ≤ n) :
    Tame usr (Gives env req) (Rests usr) true n
      (handleCreationAndQuery env req attempts h resp) := by
  induction attempts generalizing h resp k n with
  | zero => exact ⟨k, le, knows⟩
  | succ attempts ih =>
    have path : (if decide (req.type = .fileUpload) = true then req.uploadPath else req.dirPath) =
        creationPath req := by simp [creationPath]
    rw [handleCreationAndQuery]
    simp only [path, creates, decide_false, Bool.false_and, Bool.false_eq_true, if_false,
      Bool.not_false, Bool.true_and]
    refine tame_ofOption fun found located => ?_
    obtain ⟨known, -, name⟩ := knows.validate located
    split
    · exact ⟨k, le, known⟩
    · rename_i valid
      have invalid : found.valid = false := by simpa using valid
      split
      · exact ⟨k, le, known⟩
      · rename_i parent
        have spelled : ∀ c ∈ found.relativePath, pathChar c = true := by
          rw [name invalid (by simpa [Option.isSome_iff_ne_none] using parent)]
          exact checked
        have latest : found.handler.latestId = some k := by
          obtain ⟨text, sound, -⟩ := known
          exact sound.latestId
        simp only [latest]
        refine tame_ofOption fun h' made => ?_
        have entry := known.createEntry spelled made
        refine tame_made (f := afterWrite env req attempts found (k + 1) h' resp) entry
          (fun new printed text => gives_iff creates located invalid latest made printed text)
          (fun new text => ?_) fun new m le' => ?_
        · have rests := entry.stored text
          rw [afterWrite, if_pos rfl]
          split
          · exact tame_putContent rests le_rfl
          · exact ⟨k + 1, le_rfl, rests⟩
        · rw [afterWrite, if_neg Bool.false_ne_true]
          refine tame_ofOption fun h back => ?_
          refine tame_read (entry.revertCreate back) (le.trans le') fun read j m' read' small _ => ?_
          split
          · exact ih read' small
          · exact ⟨j, small, read'⟩

/-! Requests that only read -/

theorem tame_query {gives : Service (Handler × StorageServiceResp) → Nat → Prop} {attempts : Nat}
    (query : req.type = .dirQuery) (knows : Knows usr k h) (le : k ≤ n) :
    Tame usr gives (Rests usr) false n (handleCreationAndQuery env req attempts h resp) := by
  cases attempts with
  | zero => exact ⟨k, le, knows⟩
  | succ attempts =>
    have other : decide (req.type = .fileUpload) = false := by simp [query]
    rw [handleCreationAndQuery]
    simp only [query, decide_true, Bool.not_true, Bool.false_and, Bool.false_eq_true, if_false,
      if_true, Bool.true_and]
    refine tame_ofOption fun found located => ?_
    obtain ⟨known, -⟩ := knows.validate located
    split
    · exact ⟨k, le, known⟩
    · refine tame_ofOption fun curDir _ => tame_ofOption fun name _ => ?_
      exact tame_ofOption fun entries _ => ⟨k, le, known⟩

theorem tame_download {gives : Service (Handler × StorageServiceResp) → Nat → Prop} {fp : Str}
    (knows : Knows usr k h) (le : k ≤ n) :
    Tame usr gives (Rests usr) false n (handleFileDownload fp h resp) := by
  rw [handleFileDownload]
  refine tame_ofOption fun found located => ?_
  obtain ⟨known, -⟩ := knows.validate located
  split
  · exact ⟨k, le, known⟩
  · refine tame_ofOption fun curDir _ => ?_
    refine tame_elsewhere
      (fun same => toDecimal_ne_metadata curDir.id (congrArg Prod.snd same)) fun reply m le' => ?_
    split <;> exact ⟨k, le.trans le', known⟩

theorem tame_movable {gives : Service (Handler × StorageServiceResp) → Nat → Prop} {fp : Str}
    (knows : Knows usr k h) (le : k ≤ n) :
    Tame usr gives (Rests usr) false n (handleQueryAllMovableDir env fp h resp) := by
  rw [handleQueryAllMovableDir]
  simp only []
  split
  · exact ⟨k, le, knows⟩
  · refine tame_ofOption fun found located => ?_
    obtain ⟨known, -⟩ := knows.validate located
    split
    · exact ⟨k, le, known⟩
    · exact tame_ofOption fun dirs _ => ⟨k, le, known⟩

/-! Requests -/

/-- The request makes an entry. -/
def creates (req : StorageServiceReq) : Bool :=
  match req.type, req.request with
  | .fileUpload, .fileUploadReq _ _ | .dirCreate, .dirCreateOrQueryReq _ => true
  | _, _ => false

/-- The new names of the request are over the alphabet of the metadata. -/
def Named (req : StorageServiceReq) : Prop :=
  (creates req = true → ∀ c ∈ lastName (creationPath req), pathChar c = true) ∧
  ∀ oldPath newName, req.request = .renameReq oldPath newName → ∀ c ∈ newName, pathChar c = true

theorem tame_request (named : Named req) (knows : Knows usr k h) (le : k ≤ n) :
    Tame usr (Gives env req) (Rests usr) (creates req) n (handleRequest env h req) := by
  obtain ⟨type, request⟩ := req
  rw [handleRequest]
  simp only []
  split
  · exact tame_creation (by simp) (named.1 rfl) knows le
  · exact tame_download knows le
  · exact tame_rename (named.2 _ _ rfl) knows le
  · exact tame_rename (named.2 _ _ rfl) knows le
  · exact tame_delete knows le
  · exact tame_delete knows le
  · exact tame_query rfl knows le
  · exact tame_creation (by simp) (named.1 rfl) knows le
  · exact tame_move knows le
  · exact tame_move knows le
  · exact tame_movable knows le
  · exact ⟨k, le, knows⟩

end Giving

end SharedMetadata
