import PennCloud.MetadataMerging
import PennCloud.StorageLinks
import PennCloud.StorageTrace

/-!
# Printing the tree ends

The printer follows the directories below the root folder and remembers none that it has
been to, so it ends where none of them is below itself. A new link closes a cycle where a
directory is put below itself: by a move, by a rename of the root folder, by taking the
deletion of the root folder back, or by a text that moves directories which the handler
still holds elsewhere.
-/

namespace StorageCycles

open Text UnorderedMap StorageMetadata StorageTrace HandlerObjects StorageLinks Acyclicity Dialogue
open StorageTree (Tree Exact ptrOf)
open MetadataMerging (bobsRoot node_bobsRoot wellFormed_bobsRoot)
open Relation (ReflTransGen TransGen)
open StorageHandler (KvCall KvReply Service StorageServiceReq StorageServiceResp kMetadataFp
  createEntry revertCreate renameEntry revertRename moveEntry revertMove removeEntry revertRemove)

/-- No directory below the root folder is below itself. -/
def NoLoop (h : Handler) : Prop :=
  ∀ p, ReflTransGen (Lists h) h.root p → ¬ TransGen (Lists h) p p

/-- The directories among the entries of a directory, which go into the queue. -/
def subdirs (env : Env) (h : Handler) (p : Option Ptr) : Option (List (Option Ptr)) :=
  (h.deref p).bind fun d => (writeEntries h (env.it.pairs (p.getD 0) d.entries)).map Prod.snd

/-- The loop of `GetMetadataStr` over its queue ends. -/
def QueueEnds (env : Env) (h : Handler) : Prop :=
  ∀ queue, subdirs env h h.root = some queue → Drains (subdirs env h) queue

/-- What is to hold whenever the tree is printed. -/
def Printable (env : Env) : Event → Prop
  | .getMetadataStr h => NoLoop h ∧ QueueEnds env h
  | _ => True

/-- The new directory is not what is moved, nor below it. -/
def Apart (h : Handler) (path newDir : Str) : Prop :=
  ∀ old new, h.validatePathAndGetDir path = some old → old.valid = true →
    old.handler.validatePathAndGetDir newDir = some new → new.valid = true →
    IsDir new.handler old.dir → ¬ ReflTransGen (Lists new.handler) old.dir new.dir

/-- The root folder is about to be deleted: the map from ids does not have it any more. -/
def RootOut (h : Handler) : Prop :=
  ∃ d, h.deref h.root = some d ∧ h.directories.lookup d.id = none

/-- No cycle is closed: the root folder is neither renamed nor moved, nothing is moved below itself,
a text that is read fits what the handler holds, and the deletion of the root folder is not
refused. -/
def Benign : Event → KvReply → Prop
  | .handleMove h path newDir, _ => path ≠ "/".toList ∧ Apart h path newDir
  | .handleRename _ oldPath _, _ => oldPath ≠ "/".toList
  | .backend h (.gets _ key), reply =>
    key = kMetadataFp → reply.status = .finished → Acyclic (Joined h reply.value)
  | .backend h (.cput _ _ _ _), reply => RootOut h → reply.status = .finished
  | _, _ => True

/-- The invariant of the handlers. -/
structure Orderly (h : Handler) : Prop extends Sound h where
  acyclic : Acyclic (Lists h)

/-! The queue -/

section Queue
variable {env : Env} {h : Handler}

theorem writeEntries_dirs {entries : List (Str × Option Ptr)} {r : Str × List (Option Ptr)}
    (written : writeEntries h entries = some r) : ∀ q ∈ r.2, IsDir h q ∧ ∃ name, (name, q) ∈ entries := by
  induction entries generalizing r with
  | nil =>
    cases written
    exact fun _ mem => absurd mem List.not_mem_nil
  | cons entry entries ih =>
    obtain ⟨d, object, written⟩ := Option.bind_eq_some_iff.mp written
    obtain ⟨later, rest, rfl⟩ := Option.map_eq_some_iff.mp written
    intro q mem
    have old : q ∈ later.2 → IsDir h q ∧ ∃ name, (name, q) ∈ entry :: entries := by
      intro mem
      obtain ⟨dir, name, mem⟩ := ih rest q mem
      exact ⟨dir, name, List.mem_cons_of_mem _ mem⟩
    cases file : d.isFile with
    | true =>
      rw [file] at mem
      exact old mem
    | false =>
      rw [file] at mem
      rcases List.mem_cons.mp mem with rfl | mem
      · exact ⟨⟨d, object, file⟩, entry.1, List.mem_cons_self⟩
      · exact old mem

theorem subdirs_lists {p : Option Ptr} {queue : List (Option Ptr)}
    (listed : subdirs env h p = some queue) : ∀ q ∈ queue, Lists h p q := by
  obtain ⟨d, object, listed⟩ := Option.bind_eq_some_iff.mp listed
  obtain ⟨entries, each, rfl⟩ := Option.map_eq_some_iff.mp listed
  intro q mem
  obtain ⟨dir, name, mem⟩ := writeEntries_dirs each q mem
  exact ⟨⟨d, name, object, (env.it.mem_pairs _ _).mp mem⟩, dir⟩

theorem subdirs_of_written {header : Str} {p : Option Ptr} {r : Str × List (Option Ptr)}
    (written : writeFolder env h header p = some r) : subdirs env h p = some r.2 := by
  obtain ⟨d, object, written⟩ := Option.bind_eq_some_iff.mp written
  obtain ⟨path, -, written⟩ := Option.bind_eq_some_iff.mp written
  obtain ⟨entries, each, rfl⟩ := Option.map_eq_some_iff.mp written
  rw [subdirs, object, Option.bind_some, each, Option.map_some]

theorem finite_lists (h : Handler) : {p | ∃ q, Lists h p q}.Finite := by
  refine Set.Finite.subset (h.memory.keys.map some).toFinset.finite_toSet ?_
  rintro p ⟨q, ⟨d, name, object, -⟩, -⟩
  obtain ⟨x, rfl, object⟩ := deref_some.mp object
  have mem : x ∈ h.memory := AList.lookup_isSome.mp (Option.isSome_of_eq_some object)
  exact List.mem_toFinset.mpr (List.mem_map_of_mem mem)

/-- The directories below the root folder are objects of the handler. -/
theorem finite_below (h : Handler) : {p | ReflTransGen (Lists h) h.root p}.Finite := by
  refine ((h.memory.keys.map some).toFinset.finite_toSet.insert h.root).subset ?_
  intro p way
  rcases ReflTransGen.cases_tail way with same | ⟨q, -, link⟩
  · exact .inl same
  · obtain ⟨-, d, object, -⟩ := link
    obtain ⟨x, rfl, object⟩ := deref_some.mp object
    have mem : x ∈ h.memory := AList.lookup_isSome.mp (Option.isSome_of_eq_some object)
    exact .inr (List.mem_toFinset.mpr (List.mem_map_of_mem mem))

theorem printable_of_acyclic (acyclic : Acyclic (Lists h)) : Printable env (.getMetadataStr h) := by
  constructor
  · exact fun p _ => acyclic p
  · intro queue _
    exact drains (acyclic.wellFounded (finite_lists h)) (fun p qs listed => subdirs_lists listed)
      queue

/-- Where the queue runs empty, enough fuel gives the text or the failure, and more changes nothing. -/
theorem writeQueue_ends {queue : List (Option Ptr)} (ends : Drains (subdirs env h) queue) :
    ∃ enough, ∀ more, writeQueue env h (enough + more) queue = writeQueue env h enough queue := by
  have stuck : ∀ p queue, writeFolder env h "Folder: ".toList p = none →
      ∃ enough, ∀ more, writeQueue env h (enough + more) (p :: queue) =
        writeQueue env h enough (p :: queue) := by
    intro p queue failed
    refine ⟨1, fun more => ?_⟩
    rw [Nat.add_comm, writeQueue, writeQueue, failed]
    rfl
  induction ends with
  | empty => exact ⟨0, fun more => by cases more <;> rfl⟩
  | @fails p queue failed =>
    refine stuck p queue (Option.eq_none_iff_forall_ne_some.mpr fun r written => ?_)
    cases failed.symm.trans (subdirs_of_written written)
  | @turn p queue children visited rest ih =>
    cases written : writeFolder env h "Folder: ".toList p with
    | none => exact stuck p queue written
    | some r =>
      cases visited.symm.trans (subdirs_of_written written)
      obtain ⟨enough, same⟩ := ih
      refine ⟨enough + 1, fun more => ?_⟩
      rw [Nat.add_right_comm, writeQueue, writeQueue, written, Option.bind_some, Option.bind_some,
        same]

end Queue

/-! Changes of the tree -/

section Changes
variable {S : Option Ptr → Option Ptr → Prop} {h h' : Handler} {env : Env}
  {p q : Option Ptr} {name newName : Str} {id : Nat}

theorem Orderly.kept (orderly : Orderly h) : Kept (Lists h) h :=
  ⟨orderly.toSound, fun _ _ link => link⟩

theorem orderly_of_kept (acyclic : Acyclic S) (kept : Kept S h) : Orderly h :=
  ⟨kept.toSound, acyclic.mono kept.inside⟩

theorem Orderly.shrunk (orderly : Orderly h) (shrinks : Shrinks h h') (sound : Sound h') :
    Orderly h' :=
  ⟨sound, orderly.acyclic.mono shrinks.links⟩

/-- The text that was read or stored and the last id are no links. -/
theorem Orderly.congr (orderly : Orderly h) (memory : h'.memory = h.memory)
    (directories : h'.directories = h.directories) (nextPtr : h'.nextPtr = h.nextPtr) :
    Orderly h' := by
  obtain ⟨usr, fd, text, root, dirs, latest, mem, next⟩ := h
  obtain ⟨usr', fd', text', root', dirs', latest', mem', next'⟩ := h'
  cases memory
  cases directories
  cases nextPtr
  exact ⟨⟨⟨orderly.bounded, orderly.registered⟩, orderly.below, orderly.whole⟩, orderly.acyclic⟩

theorem fits_of_has (inside : ∀ p q, Lists h p q → S p q) (has : Has h p q)
    (present : ∃ e, h.deref q = some e) : Fits S h p q :=
  .inr ⟨present, fun dir => inside p q ⟨has, dir⟩⟩

theorem Kept.renameEntry (kept : Kept S h) (fits : Fits S h p q)
    (renamed : renameEntry env h p q name newName = some h') : Kept S h' ∧ Fits S h' p q := by
  obtain ⟨path, -, renamed⟩ := Option.bind_eq_some_iff.mp renamed
  obtain ⟨named, first, renamed⟩ := Option.bind_eq_some_iff.mp renamed
  obtain ⟨removed, second, third⟩ := Option.bind_eq_some_iff.mp renamed
  have fits := (fits.update first fun _ => ⟨rfl, rfl⟩).update second fun _ => ⟨rfl, rfl⟩
  have kept := (kept.updateRelativePath first).deleteEntry second
  exact ⟨kept.addEntry third fits, fits.update third fun _ => ⟨rfl, rfl⟩⟩

theorem Kept.revertRename (kept : Kept S h) (fits : Fits S h p q)
    (reverted : revertRename h p q name newName = some h') : Kept S h' := by
  obtain ⟨named, first, reverted⟩ := Option.bind_eq_some_iff.mp reverted
  obtain ⟨removed, second, third⟩ := Option.bind_eq_some_iff.mp reverted
  have fits := (fits.update first fun _ => ⟨rfl, rfl⟩).update second fun _ => ⟨rfl, rfl⟩
  exact ((kept.updateRelativePath first).deleteEntry second).addEntry third fits

theorem Kept.moveEntry {r : Option Ptr} (kept : Kept S h) (old : Fits S h p q) (new : Fits S h r q)
    (moved : moveEntry env h p q r name = some h') :
    Kept S h' ∧ Fits S h' p q := by
  obtain ⟨path, -, moved⟩ := Option.bind_eq_some_iff.mp moved
  obtain ⟨linked, first, moved⟩ := Option.bind_eq_some_iff.mp moved
  obtain ⟨removed, second, third⟩ := Option.bind_eq_some_iff.mp moved
  have later : ∀ x, Fits S h x q → Fits S removed x q := fun x fits =>
    (fits.update first fun _ => ⟨rfl, rfl⟩).update second fun _ => ⟨rfl, rfl⟩
  have kept := (kept.updateParent first).deleteEntry second
  exact ⟨kept.addEntry third (later r new), (later p old).update third fun _ => ⟨rfl, rfl⟩⟩

theorem Kept.revertMove {r : Option Ptr} (kept : Kept S h) (fits : Fits S h p q)
    (reverted : revertMove h p q r name = some h') : Kept S h' := by
  obtain ⟨linked, first, reverted⟩ := Option.bind_eq_some_iff.mp reverted
  obtain ⟨added, second, third⟩ := Option.bind_eq_some_iff.mp reverted
  have fits := fits.update first fun _ => ⟨rfl, rfl⟩
  exact ((kept.updateParent first).addEntry second fits).deleteEntry third

/-- A new object has no entries, so that it closes no cycle. -/
theorem Orderly.createEntry {isFile : Bool} (orderly : Orderly h)
    (parent : ∃ d, h.deref p = some d) (created : createEntry h p name id isFile = some h') :
    Orderly h' := by
  unfold StorageHandler.createEntry at created
  split at created
  · cases created
  obtain ⟨added, first, created⟩ := Option.bind_eq_some_iff.mp created
  obtain ⟨linked, second, rfl⟩ := Option.map_eq_some_iff.mp created
  have next : (h.free (h.directories.lookup id)).nextPtr = h.nextPtr :=
    (free_directories (h.directories.lookup id)).2.2
  have dirs : (h.free (h.directories.lookup id)).directories = h.directories :=
    (free_directories (h.directories.lookup id)).1
  have unnamed : ∀ x d, (h.free (h.directories.lookup id)).memory.lookup x = some d →
      h.memory.lookup x = some d ∧ d.id ≠ id := fun x d => orderly.unnamed
  have below : ∀ x d other y, (h.free (h.directories.lookup id)).memory.lookup x = some d →
      d.entries.lookup other = some (some y) →
      y < (h.free (h.directories.lookup id)).nextPtr := by
    intro x d other y stored entry
    rw [next]
    exact orderly.below x d other y (unnamed x d stored).1 entry
  have made := sound_allocate (h := h.free (h.directories.lookup id))
    (d := { relativePath := name, id := id, isFile := isFile }) rfl
    (fun x d stored => by rw [next]; exact orderly.bounded x d (unnamed x d stored).1)
    (fun other x apart known => by
      rw [dirs] at known
      obtain ⟨d, stored, ident⟩ := orderly.registered other x known
      refine ⟨d, ?_, ident⟩
      cases here : h.directories.lookup id with
      | none => exact stored
      | some y =>
        have different : x ≠ y := by
          rintro rfl
          obtain ⟨d', stored', ident'⟩ := orderly.registered id x here
          cases stored.symm.trans stored'
          exact apart (ident.symm.trans ident')
        exact (AList.lookup_erase_ne different).trans stored)
    below
    (fun x d stored => ⟨(unnamed x d stored).2, by
      rw [dirs]
      exact orderly.whole x d (unnamed x d stored).1⟩)
  -- the graph with the one new link
  let S (x y : Option Ptr) : Prop := Lists h x y ∨ x = p ∧ y = some h.nextPtr
  have kept : Kept S _ := ⟨made, fun x y link => .inl ?_⟩
  · have linked := kept.addEntry first
      (.inr ⟨⟨_, AList.lookup_insert _⟩, fun _ => .inr ⟨rfl, by rw [← next]; rfl⟩⟩)
    have acyclic : Acyclic S := by
      refine orderly.acyclic.insert (fun way => ?_) (fun x y edge => edge)
      have fresh : h.deref (some h.nextPtr) = none := by
        by_contra some
        obtain ⟨d, object⟩ := Option.ne_none_iff_exists'.mp some
        exact absurd (orderly.bounded _ d object) (Nat.lt_irrefl _)
      rcases ReflTransGen.cases_head way with same | ⟨x, ⟨⟨d, other, object, -⟩, -⟩, -⟩
      · obtain ⟨d, object⟩ := parent
        rw [← same, fresh] at object
        cases object
      · rw [fresh] at object
        cases object
    exact (orderly_of_kept acyclic (linked.updateParent second)).congr
      rfl rfl rfl
  · exact lists_free (lists_allocate rfl below link)

theorem Orderly.freed (orderly : Orderly h) (id : Nat) (text : Str) (latest : Option Nat) :
    Orderly { h.free (h.directories.lookup id) with
      directories := h.directories.erase id, metadataStr := text, latestId := latest } := by
  have sound := orderly.toSound.free id
  refine ⟨⟨⟨sound.bounded, sound.registered⟩, sound.below, sound.whole⟩, ?_⟩
  exact orderly.acyclic.mono fun x y link => lists_free link

theorem Orderly.revertCreate (orderly : Orderly h)
    (reverted : revertCreate h p name id = some h') : Orderly h' := by
  obtain ⟨removed, first, rfl⟩ := Option.map_eq_some_iff.mp reverted
  have shrunk := orderly.shrunk (shrinks_deleteEntry first)
    (orderly.kept.deleteEntry first).toSound
  refine (shrunk.freed id removed.metadataStr removed.latestId).congr ?_ ?_ ?_
  · rfl
  · rfl
  · rfl

/-- Another map from ids that answers the same. -/
theorem sound_lookup (sound : Sound h) {dirs : UMap Nat Ptr}
    (same : ∀ i, dirs.lookup i = h.directories.lookup i) : Sound { h with directories := dirs } := by
  refine ⟨⟨sound.bounded, fun i x known => ?_⟩, sound.below, fun x d stored => ?_⟩
  · exact sound.registered i x ((same i).symm.trans known)
  · exact (same d.id).trans (sound.whole x d stored)

theorem removed_eq (removed : removeEntry h p name id = some h') : ∃ g,
    h.update p (Dirent.deleteEntry name) = some g ∧ g.directories = h.directories ∧
      h' = { g with directories := h.directories.erase id } := by
  obtain ⟨g, first, rfl⟩ := Option.map_eq_some_iff.mp removed
  exact ⟨g, first, update_directories first, by rw [update_directories first]⟩

theorem shrinks_freed (id : Nat) (text : Str) : Shrinks h { h.free (h.directories.lookup id) with
    directories := h.directories.erase id, metadataStr := text } := by
  refine ⟨(free_directories (h.directories.lookup id)).2.1, fun i x known => ?_,
    fun x e object => ?_, fun x y link => lists_free link⟩
  · by_cases same : i = id
    · rw [same, AList.lookup_erase] at known
      cases known
    · exact (AList.lookup_erase_ne same).symm.trans known
  · obtain ⟨y, rfl, stored⟩ := deref_some.mp object
    exact ⟨e, (lookup_free stored).1, rfl, rfl⟩

/-- The entry is gone, and its object is freed. -/
theorem Orderly.removeEntry (orderly : Orderly h)
    (removed : removeEntry h p name id = some h') (text : Str) :
    Acyclic (Lists h') ∧
      Orderly { h'.free (h.directories.lookup id) with metadataStr := text } ∧
      Shrinks h { h'.free (h.directories.lookup id) with metadataStr := text } := by
  obtain ⟨g, first, dirs, rfl⟩ := removed_eq removed
  have kept := orderly.kept.deleteEntry first
  have shrunk := orderly.shrunk (shrinks_deleteEntry first) kept.toSound
  have freed := shrunk.freed id text g.latestId
  have less := (shrinks_deleteEntry first).trans (shrinks_freed id text)
  refine ⟨shrunk.acyclic, ?_, ?_⟩
  · rw [← dirs]
    refine freed.congr ?_ ?_ ?_
    all_goals cases g.directories.lookup id <;> rfl
  · have same : ({ Handler.free { g with directories := h.directories.erase id }
        (h.directories.lookup id) with metadataStr := text } : Handler) =
        { g.free (g.directories.lookup id) with
          directories := g.directories.erase id, metadataStr := text } := by
      rw [← dirs]
      cases g.directories.lookup id <;> rfl
    rw [same]
    exact less

/-- The entry is put back where it was. -/
theorem Kept.revertRemove {h'' : Handler} (kept : Kept S h)
    (fits : Fits S h p (h.directories.lookup id))
    (removed : removeEntry h p name id = some h')
    (reverted : revertRemove h' p name id (h.directories.lookup id) = some h'') : Kept S h'' := by
  obtain ⟨g, first, dirs, rfl⟩ := removed_eq removed
  have without := kept.deleteEntry first
  have fits := fits.update first fun _ => ⟨rfl, rfl⟩
  have back : ∀ (D : UMap Nat Ptr), (∀ i, D.lookup i = h.directories.lookup i) →
      Kept S { g with directories := D } := by
    intro D same
    exact ⟨sound_lookup without.toSound fun i => (same i).trans (congrArg _ dirs.symm),
      without.inside⟩
  cases pointer : h.directories.lookup id with
  | none =>
    rw [pointer] at reverted fits
    refine (back _ fun i => ?_).addEntry reverted fits
    by_cases same : i = id
    · rw [same, AList.lookup_erase, pointer]
    · exact AList.lookup_erase_ne same
  | some x =>
    rw [pointer] at reverted fits
    refine Kept.addEntry (back _ fun i => ?_) reverted fits
    by_cases same : i = id
    · rw [same, AList.lookup_insert, pointer]
    · exact (AList.lookup_insert_ne same).trans (AList.lookup_erase_ne same)

end Changes

/-! The handlers -/

section Handlers
variable {env : Env} {h : Handler}

theorem respects_call {α : Type} {call : KvCall} {f : KvReply → Traced α} {post : α → Prop}
    (next : ∀ reply, Benign (.backend h call) reply → (f reply).Respects Benign (Printable env) post) :
    ((traced h (Dialogue.question call)).bind f).Respects Benign (Printable env) post :=
  ⟨trivial, next⟩

theorem respects_writeMetadataToKv (acyclic : Acyclic (Lists h)) :
    (writeMetadataToKv env h).Respects Benign (Printable env)
      fun written => RootOut h → written.1 = true := by
  refine ⟨printable_of_acyclic acyclic, fun _ _ => ?_⟩
  rw [StorageHandler.writeMetadataToKv]
  cases h.getMetadataStr env with
  | none => trivial
  | some text => exact ⟨trivial, fun reply benign out => decide_eq_true (benign out)⟩

theorem respects_readMetadata (orderly : Orderly h) :
    (readMetadata env h).Respects Benign (Printable env) fun read => Orderly read.2 := by
  refine ⟨trivial, fun reply benign => ?_⟩
  change (relabel _ (if reply.status ≠ .finished then _ else _)).Respects _ _ _
  by_cases finished : reply.status = .finished
  · have notLost : reply.status ≠ .linkError := by
      rw [finished]
      decide
    have same : Orderly { h with metadataStr := reply.value } := orderly.congr rfl rfl rfl
    have read := same.toSound
    rw [if_neg (not_not.mpr finished), if_neg notLost]
    cases parsed : Handler.parseMetadataFile env { h with metadataStr := reply.value } with
    | none => trivial
    | some r =>
      obtain ⟨sound, acyclic⟩ := parseMetadataFile_links read (benign rfl finished) parsed
      exact ⟨sound, acyclic⟩
  · rw [if_pos finished]
    split
    · exact orderly
    · exact orderly.congr rfl rfl rfl

/-- What a lookup leaves of the handler is in order. -/
theorem Orderly.looked {path : Str} {found : Found} (orderly : Orderly h)
    (looked : h.validatePathAndGetDir path = some found) :
    Orderly found.handler ∧ Shrinks h found.handler := by
  obtain ⟨sound, alike⟩ := validate_alike orderly.toSound looked
  exact ⟨orderly.shrunk alike.shrinks sound, alike.shrinks⟩

theorem respects_handleRename {oldPath newName : Str} {attempts : Nat} {resp : StorageServiceResp}
    (orderly : Orderly h) : (handleRename env oldPath newName attempts h resp).Respects Benign
      (Printable env) fun r => Orderly r.1 := by
  induction attempts generalizing h resp with
  | zero => exact orderly
  | succ attempts ih =>
    refine ⟨trivial, fun _ notRoot => ?_⟩
    refine respects_ofOption fun found looked => ?_
    have here := (orderly.looked looked).1
    have seen := looked_of_validate orderly.toSound looked notRoot
    cases valid : found.valid with
    | false => exact here
    | true =>
      refine respects_ofOption fun renamed step => ?_
      have present : ∃ e, found.handler.deref found.dir = some e := by
        obtain ⟨path, -, step⟩ := Option.bind_eq_some_iff.mp step
        obtain ⟨named, first, -⟩ := Option.bind_eq_some_iff.mp step
        exact deref_of_update first
      have fits := fits_of_has here.kept.inside (seen.entry valid) present
      obtain ⟨kept, fits⟩ := Kept.renameEntry here.kept fits step
      have now := orderly_of_kept here.acyclic kept
      refine respects_bind ((respects_writeMetadataToKv now.acyclic).mono fun written _ => ?_)
      cases written.1 with
      | true => exact now.congr rfl rfl rfl
      | false =>
        refine respects_ofOption fun reverted back => ?_
        have before := orderly_of_kept here.acyclic (Kept.revertRename kept fits back)
        refine respects_bind ((respects_readMetadata before).mono fun read after => ?_)
        cases read.1 with
        | true => exact ih after
        | false => exact after

theorem respects_handleMove {path newDir : Str} {attempts : Nat} {resp : StorageServiceResp}
    (orderly : Orderly h) : (handleMove env path newDir attempts h resp).Respects Benign
      (Printable env) fun r => Orderly r.1 := by
  induction attempts generalizing h resp with
  | zero => exact orderly
  | succ attempts ih =>
    refine ⟨trivial, fun _ benign => ?_⟩
    obtain ⟨notRoot, apart⟩ := benign
    refine respects_ofOption fun old looked => ?_
    have first := (orderly.looked looked).1
    have seen := looked_of_validate orderly.toSound looked notRoot
    cases valid : old.valid with
    | false => exact first
    | true =>
      refine respects_ofOption fun new looked' => ?_
      obtain ⟨sound, alike⟩ := validate_alike first.toSound looked'
      have here := first.shrunk alike.shrinks sound
      cases valid' : new.valid with
      | false => exact here
      | true =>
        refine respects_ofOption fun moved step => ?_
        have present : ∃ e, new.handler.deref old.dir = some e := by
          obtain ⟨_, -, step⟩ := Option.bind_eq_some_iff.mp step
          obtain ⟨linked, first, -⟩ := Option.bind_eq_some_iff.mp step
          exact deref_of_update first
        -- the graph with the link from the new directory, where a directory is moved
        let S (x y : Option Ptr) : Prop := Lists new.handler x y ∨
          (x = new.dir ∧ y = old.dir) ∧ IsDir new.handler old.dir
        have acyclic : Acyclic S := by
          by_cases dir : IsDir new.handler old.dir
          · exact here.acyclic.insert (apart old new looked valid looked' valid' dir)
              fun x y edge => edge.imp_right And.left
          · exact here.acyclic.mono fun x y edge => edge.resolve_right fun no => dir no.2
        have kept : Kept S new.handler := ⟨sound, fun x y link => .inl link⟩
        have stays : Fits S new.handler old.parentDir old.dir := by
          refine .inr ⟨present, fun dir => .inl ((alike.links _ _).mpr ⟨seen.entry valid, ?_⟩)⟩
          exact alike.shrinks.isDir dir
        have goes : Fits S new.handler new.dir old.dir :=
          .inr ⟨present, fun dir => .inr ⟨⟨rfl, rfl⟩, dir⟩⟩
        obtain ⟨kept, stays⟩ := Kept.moveEntry kept stays goes step
        have now := orderly_of_kept acyclic kept
        refine respects_bind ((respects_writeMetadataToKv now.acyclic).mono fun written _ => ?_)
        cases written.1 with
        | true => exact now.congr rfl rfl rfl
        | false =>
          refine respects_ofOption fun reverted back => ?_
          have before := orderly_of_kept acyclic (Kept.revertMove kept stays back)
          refine respects_bind ((respects_readMetadata before).mono fun read after => ?_)
          cases read.1 with
          | true => exact ih after
          | false => exact after

/-- How a deletion ends: one with a single attempt that does not fail has read nothing again. -/
structure Deleted (attempts : Nat) (h : Handler) (r : Handler × StorageServiceResp) : Prop where
  orderly : Orderly r.1
  exhausted : attempts = 0 → r.2.getStatus = .fail
  shrinks : attempts = 1 → r.2.getStatus ≠ .fail → Shrinks h r.1

theorem respects_deleteEach {delete : Str → Handler → StorageServiceResp →
      Traced (Handler × StorageServiceResp)}
    (each : ∀ path h resp, Orderly h →
      (delete path h resp).Respects Benign (Printable env) (Deleted 1 h)) {paths : List Str}
    {resp : StorageServiceResp} (orderly : Orderly h) :
    (deleteEach delete paths h resp).Respects Benign (Printable env) fun r =>
      Orderly r.2.1 ∧ (r.1 = true → Shrinks h r.2.1) ∧
        (r.1 = false → r.2.2.getStatus = .fail) := by
  induction paths generalizing h resp with
  | nil => exact ⟨orderly, fun _ => .refl h, fun no => (by cases no)⟩
  | cons path paths ih =>
    refine respects_bind ((each path h resp orderly).mono fun r deleted => ?_)
    split
    · rename_i failed
      exact ⟨deleted.orderly, fun no => (by cases no), fun _ => failed⟩
    · rename_i succeeded
      have less := deleted.shrinks rfl succeeded
      refine (ih deleted.orderly).mono fun r' later => ?_
      exact ⟨later.1, fun all => less.trans (later.2.1 all), later.2.2⟩

/-- The deletion of one entry, once it has been emptied. -/
theorem respects_remove {found : Found} {curDir : Dirent} {e : Handler}
    {resp : StorageServiceResp} (attempts : Nat)
    (retry : Handler → Traced (Handler × StorageServiceResp))
    (orderly : Orderly found.handler) (less : Shrinks found.handler e) (sound : Orderly e)
    (object : found.handler.deref found.dir = some curDir)
    (entry : Has found.handler found.parentDir found.dir ∨
      found.parentDir = found.handler.root ∧ found.dir = found.handler.root)
    (again : ∀ h, Orderly h → (retry h).Respects Benign (Printable env) fun r =>
      Orderly r.1 ∧ (attempts = 0 → r.2.getStatus = .fail)) {text : Str} :
    ((Dialogue.ofOption (removeEntry e found.parentDir found.relativePath curDir.id)).bind fun h' =>
      (writeMetadataToKv env h').bind fun written =>
        if written.1 then
          .done ({ h'.free (e.directories.lookup curDir.id) with metadataStr := written.2 },
            StorageHandler.populateSuccessResp h' resp)
        else
          (Dialogue.ofOption (revertRemove h' found.parentDir found.relativePath curDir.id
            (e.directories.lookup curDir.id))).bind fun h' =>
            (readMetadata env h').bind fun read =>
              if read.1 then retry read.2
              else .done (read.2, StorageServiceResp.cleared.fail text)).Respects Benign
        (Printable env) fun r => Orderly r.1 ∧
          (attempts = 0 → r.2.getStatus ≠ .fail → Shrinks found.handler r.1) := by
  refine respects_ofOption fun h' removed => ?_
  have gone := fun text => sound.removeEntry removed text
  refine respects_bind ((respects_writeMetadataToKv (gone []).1).mono fun written stored => ?_)
  cases done : written.1 with
  | true => exact ⟨(gone written.2).2.1, fun _ _ => less.trans (gone written.2).2.2⟩
  | false =>
    refine respects_ofOption fun reverted back => ?_
    have before : Orderly reverted := by
      rcases entry with has | ⟨parent, root⟩
      · -- the entry that is put back was one when it was found
        have fits : Fits (Lists found.handler) e found.parentDir
            (e.directories.lookup curDir.id) := by
          cases pointer : e.directories.lookup curDir.id with
          | none => exact .inl rfl
          | some x =>
            obtain ⟨d, stored, -⟩ := sound.registered _ x pointer
            obtain ⟨y, isDir, known⟩ := deref_some.mp object
            have same := (orderly.whole y curDir known).symm.trans (less.directories _ x pointer)
            refine .inr ⟨⟨d, stored⟩, fun dir => ?_⟩
            rw [← same, ← isDir] at dir ⊢
            exact ⟨has, less.isDir dir⟩
        exact orderly_of_kept orderly.acyclic
          (Kept.revertRemove (less.kept (fun _ _ link => link) sound.toSound) fits removed back)
      · -- the root folder is out, so that the text was stored
        have out : RootOut h' := by
          obtain ⟨g, first, dirs, rfl⟩ := removed_eq removed
          obtain ⟨d, there⟩ := deref_of_update first
          rw [parent, ← less.root] at first there
          have kept := shrinks_deleteEntry first
          obtain ⟨d', now, ident, -⟩ := (present_update first fun _ => ⟨rfl, rfl⟩).mpr
            ⟨d, there, rfl, rfl⟩
          obtain ⟨c, was, ident', -⟩ := less.present _ d there
          rw [less.root, ← root, object] at was
          cases was
          refine ⟨d', ?_, ?_⟩
          · exact (congrArg _ kept.root).trans now
          · rw [ident, ← ident']
            exact AList.lookup_erase curDir.id e.directories
        rw [stored out] at done
        cases done
    refine respects_bind ((respects_readMetadata before).mono fun read after => ?_)
    cases read.1 with
    | true =>
      exact (again _ after).mono fun r ends => ⟨ends.1, fun none ok => absurd (ends.2 none) ok⟩
    | false => exact ⟨after, fun _ ok => absurd rfl ok⟩

theorem respects_handleDelete {fuel attempts : Nat} {expectKvFailure : Bool} {fp : Str}
    {resp : StorageServiceResp} (orderly : Orderly h) :
    (handleDelete env fuel attempts expectKvFailure fp h resp).Respects Benign (Printable env)
      (Deleted attempts h) := by
  induction fuel generalizing attempts expectKvFailure fp h resp with
  | zero => trivial
  | succ fuel ih =>
    cases attempts with
    | zero => exact ⟨orderly, fun _ => rfl, fun no => (by cases no)⟩
    | succ attempts =>
      rw [handleDelete]
      refine respects_ofOption fun found looked => ?_
      obtain ⟨here, less⟩ := orderly.looked looked
      have failed : ∀ {h' : Handler} {resp' : StorageServiceResp}, Orderly h' →
          resp'.getStatus = .fail → Deleted (attempts + 1) h (h', resp') :=
        fun sound fails => ⟨sound, fun no => (by cases no), fun _ ok => absurd fails ok⟩
      cases valid : found.valid with
      | false => exact failed here rfl
      | true =>
        refine respects_ofOption fun curDir object => ?_
        have entry : Has found.handler found.parentDir found.dir ∨
            found.parentDir = found.handler.root ∧ found.dir = found.handler.root := by
          by_cases isRoot : fp = "/".toList
          · rw [isRoot, validate_root] at looked
            cases looked
            exact .inr ⟨rfl, rfl⟩
          · exact .inl ((looked_of_validate orderly.toSound looked isRoot).entry valid)
        have emptying : (if !curDir.isFile && 0 < curDir.entries.keys.length then
            (Dialogue.ofOption (StorageHandler.entryPaths env found.handler (found.dir.getD 0)
              curDir)).bind fun paths => deleteEach (handleDelete env fuel 1 expectKvFailure) paths
                found.handler resp
            else .done (true, found.handler, resp)).Respects Benign (Printable env) fun r =>
              Orderly r.2.1 ∧ (r.1 = true → Shrinks found.handler r.2.1) ∧
                (r.1 = false → r.2.2.getStatus = .fail) := by
          split
          · refine respects_ofOption fun paths _ => ?_
            exact respects_deleteEach (fun path h resp orderly => ih orderly) here
          · exact ⟨here, fun _ => .refl _, fun no => (by cases no)⟩
        refine respects_bind (emptying.mono fun emptied after => ?_)
        obtain ⟨sound, all, stopped⟩ := after
        cases done : emptied.1 with
        | false => exact failed sound (stopped done)
        | true =>
          have asking : (if curDir.isFile then
              (traced emptied.2.1 (Dialogue.question (.dele h.usr (toDecimal curDir.id)))).bind
                fun (reply : KvReply) => .done (decide (reply.status = .finished))
              else .done true).Respects Benign (Printable env) fun _ => True := by
            split
            · exact respects_call fun _ _ => trivial
            · trivial
          refine respects_bind (asking.mono fun deleted _ => ?_)
          split
          · exact failed sound rfl
          · refine (respects_remove attempts
              (fun h => handleDelete env fuel attempts true fp h .cleared) here (all done) sound
              object entry fun h orderly => ?_).mono fun r ends => ?_
            · exact (ih orderly).mono fun r deleted => ⟨deleted.orderly, deleted.exhausted⟩
            · exact ⟨ends.1, fun no => (by cases no), fun one ok =>
                less.trans (ends.2 (Nat.succ_injective one) ok)⟩

theorem respects_putContent {path content : Str} {id : Nat} {resp : StorageServiceResp}
    (orderly : Orderly h) : (putContent env path content id h resp).Respects Benign (Printable env)
      fun r => Orderly r.1 := by
  refine respects_call fun reply _ => ?_
  split
  · exact orderly
  · refine respects_bind ((respects_readMetadata orderly).mono fun read after => ?_)
    cases read.1 with
    | false => exact after
    | true => exact respects_bind ((respects_handleDelete after).mono fun r deleted => deleted.orderly)

theorem respects_answerQuery {found : Found} {resp : StorageServiceResp}
    (orderly : Orderly found.handler) :
    (traced found.handler (StorageHandler.answerQuery env found resp)).Respects Benign
      (Printable env) fun r => Orderly r.1 := by
  simp only [traced, StorageHandler.answerQuery, relabel_bind, relabel_ofOption]
  refine respects_ofOption fun curDir _ => ?_
  refine respects_ofOption fun name _ => ?_
  refine respects_ofOption fun entries _ => ?_
  exact orderly

theorem respects_handleFileDownload {fp : Str} {resp : StorageServiceResp} (orderly : Orderly h) :
    (traced h (StorageHandler.handleFileDownload fp h resp)).Respects Benign (Printable env)
      fun r => Orderly r.1 := by
  simp only [traced, StorageHandler.handleFileDownload, relabel_bind, relabel_ofOption]
  refine respects_ofOption fun found looked => ?_
  have here := (orderly.looked looked).1
  cases found.valid with
  | false => exact here
  | true =>
    simp only [Bool.not_true, Bool.false_eq_true, if_false, relabel_bind, relabel_ofOption]
    refine respects_ofOption fun curDir _ => respects_call fun reply _ => ?_
    split
    · exact here
    · exact here

theorem respects_handleQueryAllMovableDir {fp : Str} {resp : StorageServiceResp}
    (orderly : Orderly h) :
    (traced h (StorageHandler.handleQueryAllMovableDir env fp h resp)).Respects Benign
      (Printable env) fun r => Orderly r.1 := by
  rw [StorageHandler.handleQueryAllMovableDir]
  split
  · exact orderly
  · simp only [traced, relabel_bind, relabel_ofOption]
    refine respects_ofOption fun found looked => ?_
    have here := (orderly.looked looked).1
    cases found.valid with
    | false => exact here
    | true =>
      simp only [Bool.not_true, Bool.false_eq_true, if_false, relabel_bind, relabel_ofOption]
      exact respects_ofOption fun dirs _ => here

theorem respects_handleCreationAndQuery {req : StorageServiceReq} {attempts : Nat}
    {resp : StorageServiceResp} (orderly : Orderly h) :
    (handleCreationAndQuery env req attempts h resp).Respects Benign (Printable env)
      fun r => Orderly r.1 := by
  induction attempts generalizing h resp with
  | zero => exact orderly
  | succ attempts ih =>
    rw [handleCreationAndQuery]
    refine respects_ofOption fun found looked => ?_
    have here := (orderly.looked looked).1
    split
    · exact here
    split
    · exact here
    split
    · exact here
    split
    · exact respects_answerQuery here
    rename_i known parentless notQuery
    cases latest : found.handler.latestId with
    | none => exact here
    | some latestId =>
      refine respects_ofOption fun created step => ?_
      have parent : ∃ d, found.handler.deref found.parentDir = some d := by
        have invalid : found.valid = false := by simpa [notQuery] using known
        have notNone : found.parentDir ≠ none := by simpa [notQuery] using parentless
        by_cases isRoot : (if decide (req.type = .fileUpload) = true then req.uploadPath
            else req.dirPath) = "/".toList
        · rw [isRoot, validate_root] at looked
          cases looked
          cases invalid
        · exact ((looked_of_validate orderly.toSound looked isRoot).parent invalid).resolve_left
            notNone
      have now := here.createEntry parent step
      refine respects_bind ((respects_writeMetadataToKv now.acyclic).mono fun written _ => ?_)
      have stored : Orderly { created with metadataStr := written.2 } := now.congr rfl rfl rfl
      cases written.1 with
      | true =>
        cases decide (req.type = .fileUpload) with
        | true => exact respects_putContent stored
        | false => exact stored
      | false =>
        refine respects_ofOption fun reverted back => ?_
        have before := now.revertCreate back
        refine respects_bind ((respects_readMetadata before).mono fun read after => ?_)
        cases read.1 with
        | true => exact ih after
        | false => exact after

theorem respects_handleRequest {req : StorageServiceReq} (orderly : Orderly h) :
    (handleRequest env h req).Respects Benign (Printable env) fun r => Orderly r.1 := by
  rw [handleRequest]
  split
  · exact respects_handleCreationAndQuery orderly
  · exact respects_handleFileDownload orderly
  · exact respects_handleRename orderly
  · exact respects_handleRename orderly
  · exact (respects_handleDelete orderly).mono fun r deleted => deleted.orderly
  · exact (respects_handleDelete orderly).mono fun r deleted => deleted.orderly
  · exact respects_handleCreationAndQuery orderly
  · exact respects_handleCreationAndQuery orderly
  · exact respects_handleMove orderly
  · exact respects_handleMove orderly
  · exact respects_handleQueryAllMovableDir orderly
  · exact orderly

theorem orderly_new (usr : Str) (fd : Int) : Orderly { usr := usr, backendFd := fd } := by
  have nothing : ∀ x d, ({ usr := usr, backendFd := fd } : Handler).memory.lookup x ≠ some d := by
    intro x d stored
    cases stored
  refine ⟨⟨tidy_new usr fd [], fun x d name y stored => ?_, fun x d stored => ?_⟩, fun p cycle => ?_⟩
  · exact absurd stored (nothing x d)
  · exact absurd stored (nothing x d)
  · have link : ∃ q, Lists { usr := usr, backendFd := fd } p q := by
      cases cycle using TransGen.head_induction_on with
      | single link => exact ⟨_, link⟩
      | head link _ => exact ⟨_, link⟩
    obtain ⟨q, ⟨d, name, object, -⟩, -⟩ := link
    obtain ⟨x, -, stored⟩ := deref_some.mp object
    exact nothing x d stored

theorem respects_session {steps : List Step} (orderly : Orderly h) :
    (session env steps h).Respects Benign (Printable env) Orderly := by
  induction steps generalizing h with
  | nil => exact orderly
  | cons step steps ih =>
    cases step with
    | handle req =>
      refine respects_bind ((respects_handleRequest orderly).mono fun r after => ?_)
      exact ⟨printable_of_acyclic after.acyclic, fun _ _ => ih after⟩
    | opened usr fd =>
      refine respects_bind ((respects_readMetadata (orderly_new usr fd)).mono fun read after => ?_)
      cases read.1 with
      | true => exact ih after
      | false => exact ih orderly

end Handlers

/-! Runs from a tree -/

section Runs
variable {env : Env} {t : Tree} {h : Handler}

theorem sound_parsed {r : Bool × Handler} (sound : Sound h)
    (parsed : h.parseMetadataFile env = some r) : Sound r.2 := by
  unfold Handler.parseMetadataFile at parsed
  split at parsed
  · cases parsed
    exact sound
  · obtain ⟨h', read, rfl⟩ := Option.map_eq_some_iff.mp parsed
    exact (parseLines_links (R := fun _ _ => True) sound (fun _ _ _ _ _ _ _ _ => trivial)
      (fun _ _ => trivial) read).1

/-- An entry is further from the root folder than the directory that it stands in. -/
theorem acyclic_parents (wf : t.WellFormed) :
    Acyclic fun i j => ∃ m, t.node j = some m ∧ m.parent = some i := by
  intro i cycle
  have deeper : ∀ j, TransGen (fun i j => ∃ m, t.node j = some m ∧ m.parent = some i) i j →
      ∀ k, t.Depth i k → ∃ l, k < l ∧ t.Depth j l := by
    intro j way k depth
    induction way with
    | single child =>
      obtain ⟨m, here, parent⟩ := child
      obtain ⟨d, above, directory⟩ := wf.directory here parent
      exact ⟨k + 1, by omega, .entry here parent above directory depth⟩
    | tail _ child ih =>
      obtain ⟨l, more, depth'⟩ := ih
      obtain ⟨m, here, parent⟩ := child
      obtain ⟨d, above, directory⟩ := wf.directory here parent
      exact ⟨l + 1, by omega, .entry here parent above directory depth'⟩
  have there : ∃ m, t.node i = some m := by
    cases cycle with
    | single child => exact ⟨_, child.choose_spec.1⟩
    | tail _ child => exact ⟨_, child.choose_spec.1⟩
  obtain ⟨m, here⟩ := there
  obtain ⟨k, depth⟩ := wf.rooted here
  obtain ⟨l, more, depth'⟩ := deeper i cycle k depth
  have same := wf.depth_unique depth depth'
  omega

theorem acyclic_of_exact (wf : t.WellFormed) (exact : Exact t h) (sound : Sound h) :
    Acyclic (Lists h) := by
  refine (acyclic_parents wf).of_map (fun p => ((h.deref p).map Dirent.id).getD 0) ?_
  rintro p q ⟨⟨d, name, object, entry⟩, e, target, file⟩
  obtain ⟨x, rfl, stored⟩ := deref_some.mp object
  have known := sound.whole x d stored
  obtain ⟨n, here⟩ := Option.isSome_iff_exists.mp
    ((exact.ids d.id).mp (Option.isSome_of_eq_some known))
  have pointer : ptrOf h d.id = x := by rw [ptrOf, known, Option.getD_some]
  obtain ⟨d', stored', shows⟩ := exact.laid d.id n here
  rw [pointer] at stored'
  cases stored.symm.trans stored'
  cases kind : n.isFile with
  | true =>
    rw [exact.files d.id n d here kind (by rw [pointer]; exact stored)] at entry
    cases entry
  | false =>
    obtain ⟨c, m, child, parent, -, rfl⟩ := (shows.entries kind name q).mp entry
    obtain ⟨e', there, shows'⟩ := exact.laid c m child
    rw [Handler.deref, Option.bind_some, there] at target
    cases target
    refine ⟨m, ?_, ?_⟩
    · simp only [Handler.deref, Option.bind_some, there, Option.map_some, Option.getD_some,
        shows'.ident]
      exact child
    · simp only [Handler.deref, Option.bind_some, stored, Option.map_some, Option.getD_some]
      exact parent

/-- The root folder of bob with nothing in it. -/
def rootFolder : Handler where
  usr := ['b', 'o', 'b']
  backendFd := 5
  root := some 0
  directories := (∅ : UMap Nat Ptr).insert 1 0
  latestId := some 1
  memory := (∅ : UMap Ptr Dirent).insert 0 ⟨['b', 'o', 'b'], 1, false, none, true, ∅⟩
  nextPtr := 1

theorem lookup_rootFolder {p : Ptr} {d : Dirent} : rootFolder.memory.lookup p = some d ↔
    p = 0 ∧ d = ⟨['b', 'o', 'b'], 1, false, none, true, ∅⟩ := by
  rw [rootFolder]
  by_cases same : p = 0
  · rw [same, AList.lookup_insert, Option.some.injEq, and_iff_right rfl, eq_comm]
  · rw [AList.lookup_insert_ne same]
    exact ⟨fun object => (by cases object), fun first => absurd first.1 same⟩

theorem known_rootFolder {id : Nat} {p : Ptr} :
    rootFolder.directories.lookup id = some p ↔ id = 1 ∧ p = 0 := by
  rw [rootFolder]
  by_cases same : id = 1
  · rw [same, AList.lookup_insert, Option.some.injEq, and_iff_right rfl, eq_comm]
  · rw [AList.lookup_insert_ne same]
    exact ⟨fun known => (by cases known), fun first => absurd first.1 same⟩

theorem sound_rootFolder : Sound rootFolder where
  bounded := by
    intro p d object
    obtain ⟨rfl, -⟩ := lookup_rootFolder.mp object
    decide
  registered := by
    intro id p known
    obtain ⟨rfl, rfl⟩ := known_rootFolder.mp known
    exact ⟨_, rfl, rfl⟩
  below := by
    intro p d name q object entry
    obtain ⟨-, rfl⟩ := lookup_rootFolder.mp object
    cases entry
  whole := by
    intro p d object
    obtain ⟨rfl, rfl⟩ := lookup_rootFolder.mp object
    rfl

theorem exact_rootFolder : Exact bobsRoot rootFolder where
  root := rfl
  laid := by
    intro id n here
    obtain ⟨rfl, rfl⟩ := node_bobsRoot.mp here
    refine ⟨_, rfl, rfl, rfl, rfl, rfl, fun _ no => (by cases no), fun _ name p => ?_⟩
    constructor
    · intro entry
      cases entry
    · rintro ⟨c, m, child, parent, -⟩
      obtain ⟨-, rfl⟩ := node_bobsRoot.mp child
      cases parent
  ids := by
    intro id
    constructor
    · intro known
      obtain ⟨p, known⟩ := Option.isSome_iff_exists.mp known
      rw [(known_rootFolder.mp known).1]
      rfl
    · intro here
      obtain ⟨n, here⟩ := Option.isSome_iff_exists.mp here
      rw [(node_bobsRoot.mp here).1]
      rfl
  files := by
    intro id n d here file
    obtain ⟨-, rfl⟩ := node_bobsRoot.mp here
    cases file
  top := by
    intro d object
    obtain ⟨-, rfl⟩ := lookup_rootFolder.mp object
    rfl

def rootEnv : Env := ⟨.stored Ptr, 5⟩

/-- From a well-formed tree on, whatever is asked and answered: whenever the tree is printed there are
finitely many directories below the root folder and no cycle, and the loop ends. -/
theorem printing_ends (wf : t.WellFormed) (exact : Exact t h) (sound : Sound h) {steps : List Step}
    {transcript : List (Event × KvReply)} {h' : Handler}
    (asked : Asks (session env steps h) transcript (.getMetadataStr h'))
    (benign : ∀ c ∈ transcript, Benign c.1 c.2) :
    {p | ReflTransGen (Lists h') h'.root p}.Finite ∧ NoLoop h' ∧ QueueEnds env h' := by
  have orderly : Orderly h := ⟨sound, acyclic_of_exact wf exact sound⟩
  exact ⟨finite_below h', (respects_session orderly).asks asked benign⟩

/-- A folder is made and renamed, and the tree is printed after that. -/
theorem printing_ends_renamed : ∃ transcript h', transcript.length = 4 ∧
    Asks (session rootEnv [.handle ⟨.dirCreate, .dirCreateOrQueryReq ['/', 'd']⟩,
      .handle ⟨.dirRename, .renameReq ['/', 'd'] ['e']⟩] rootFolder) transcript (.getMetadataStr h') ∧
    {p | ReflTransGen (Lists h') h'.root p}.Finite ∧ NoLoop h' ∧ QueueEnds rootEnv h' := by
  have asked : ∃ h₁ text h₂ h', Asks (session rootEnv
      [.handle ⟨.dirCreate, .dirCreateOrQueryReq ['/', 'd']⟩,
        .handle ⟨.dirRename, .renameReq ['/', 'd'] ['e']⟩] rootFolder)
      [(.getMetadataStr h₁, default),
        (.backend h₁ (.cput ['b', 'o', 'b'] kMetadataFp [] text), ⟨.finished, []⟩),
        (.getMetadataStr h₂, default), (.handleRename h₂ ['/', 'd'] ['e'], default)]
      (.getMetadataStr h') :=
    ⟨_, _, _, _, .later (.later (.later (.later .now)))⟩
  obtain ⟨h₁, text, h₂, h', asked⟩ := asked
  refine ⟨_, h', rfl, asked, ?_⟩
  refine printing_ends wellFormed_bobsRoot exact_rootFolder sound_rootFolder asked ?_
  intro c mem
  rcases List.mem_cons.mp mem with rfl | mem
  · trivial
  rcases List.mem_cons.mp mem with rfl | mem
  · exact fun _ => rfl
  rcases List.mem_cons.mp mem with rfl | mem
  · trivial
  · rw [List.mem_singleton.mp mem]
    exact (by decide : ['/', 'd'] ≠ "/".toList)

/-- Printing the root folder never ends once it is an entry of itself. -/
theorem not_printing_ends : ∃ h', Asks (session rootEnv
      [.handle ⟨.dirRename, .renameReq "/".toList ['x']⟩] rootFolder)
      [(.handleRename rootFolder "/".toList ['x'], default)] (.getMetadataStr h') ∧
    bobsRoot.WellFormed ∧ Exact bobsRoot rootFolder ∧ Sound rootFolder ∧
    ¬ NoLoop h' ∧ ¬ QueueEnds rootEnv h' := by
  refine ⟨_, .later .now, wellFormed_bobsRoot, exact_rootFolder, sound_rootFolder, ?_, ?_⟩
  · intro noLoop
    refine noLoop (some 0) .refl (.single ⟨⟨_, ['x'], rfl, rfl⟩, ⟨_, rfl, rfl⟩⟩)
  · intro ends
    have drains := ends [some 0] rfl
    generalize queued : [some 0] = queue at drains
    induction drains with
    | empty => cases queued
    | fails failed =>
      cases queued
      cases failed
    | turn visited rest ih =>
      cases queued
      cases visited
      exact ih rfl

end Runs

end StorageCycles
