import PennCloud.Interleaving
import PennCloud.StorageEffects

/-!
# A request that has the store for itself

The backend answers the calls of one user: the metadata are read and stored, and the
contents come and go. A request that no other disturbs is answered with SUCCESS and
stores the tree that it makes of the one before, where there is one.
-/

namespace StorageAlone

open Text KvInterface UnorderedMap StorageMetadata StorageHandler StorageCommit Dialogue
  Interleaving StorageTree MetadataText HandlerText HandlerObjects MetadataMerging StorageCreate
  StorageDelete StorageMove StorageRename StorageReload StorageEffects
open SharedMetadata (creates creationPath validFilename)

/-- `kv_gets` and `kv_cput` are atomic on the text of the metadata: the reply, and the text after
it. -/
def metadata (text : Str) : KvCall → Option (KvReply × Str)
  | .gets _ key => if key = kMetadataFp then some (⟨.finished, text⟩, text) else none
  | .cput _ key prevValue newValue =>
    if key = kMetadataFp then
      some (if text = prevValue then (⟨.finished, []⟩, newValue) else (⟨.valueError, []⟩, text))
    else none
  | .puts _ _ _ | .dele _ _ => none

/-- The backend for the calls of one request, for which contents are put and removed. -/
def answer (text : Str) (call : KvCall) : KvReply × Str :=
  (metadata text call).getD (⟨.finished, []⟩, text)

section Calls
variable {t t' : Tree} {h : Handler} {env : Env} {latest latest' : Nat} {text : Str}
  {β : Type} {post : Str → β → Prop}

theorem restored_new (t : Tree) (usr : Str) (fd : Int) :
    Restored t { usr := usr, backendFd := fd } where
  tidy := tidy_new usr fd []
  ids id known := by
    rw [AList.lookup_empty] at known
    cases known
  agrees id n p d here pointer := by
    rw [AList.lookup_empty] at pointer
    cases pointer
  top p d pointer := by
    rw [AList.lookup_empty] at pointer
    cases pointer

/-- A new handler reads the metadata. -/
theorem reaches_opened (known : MetadataOf t latest text) (enough : INT_MAX < env.fuel) (usr : Str)
    (fd : Int) {f : Bool × Handler → Service β}
    (next : ∀ h, HasRead t latest h → h.metadataStr = text →
      (f (true, h)).Reaches False (gives answer) text post) :
    ((readMetadata env { usr := usr, backendFd := fd }).bind f).Reaches False
      (gives answer) text post := by
  rw [readMetadata, Dialogue.bind_assoc]
  refine reaches_question fun reply w asked => ?_
  obtain ⟨rfl, rfl⟩ : reply = ⟨.finished, text⟩ ∧ w = text := by
    rw [gives, answer, metadata, if_pos rfl, Option.getD_some] at asked
    cases asked
    exact ⟨rfl, rfl⟩
  obtain ⟨h, parsed, serves, same⟩ := (restored_new t usr fd).reload (.refl t) known enough
  have read : h.metadataStr = w := same.metadataStr
  rw [if_neg (not_not.mpr rfl), if_neg (by simp)]
  exact reaches_ofOption parsed (next h ⟨serves, read.symm ▸ known⟩ read)

/-- The tree of the handler is stored in place of the text that it has read. -/
theorem reaches_printed (prints : Prints t' latest' h) (read : h.metadataStr = text)
    (enough : INT_MAX < env.fuel) {f : Bool × Str → Service β}
    (next : ∀ new, MetadataOf t' latest' new →
      (f (true, new)).Reaches False (gives answer) new post) :
    ((writeMetadataToKv env h).bind f).Reaches False (gives answer) text post := by
  obtain ⟨ptr, holds⟩ := prints.holds
  refine reaches_written prints.wf.toRooted holds prints.known enough ?_
  intro new reply w written asked
  obtain ⟨rfl, rfl⟩ : reply = ⟨.finished, []⟩ ∧ w = new := by
    rw [gives, answer, metadata, if_pos rfl, if_pos read.symm, Option.getD_some] at asked
    cases asked
    exact ⟨rfl, rfl⟩
  exact next w ⟨prints.wf, prints.named, prints.used, prints.small, written⟩

end Calls

/-- The request was answered with SUCCESS, and the tree is stored. -/
def Leaves (t : Tree) (latest : Nat) (text : Str) (resp : StorageServiceResp) : Prop :=
  resp.getStatus = .success ∧ MetadataOf t latest text

section Requests
variable {t t' : Tree} {h : Handler} {env : Env} {latest latest' : Nat} {text : Str}
  {req : StorageServiceReq} {resp : StorageServiceResp}

theorem reaches_creation (read : HasRead t latest h) (stored : h.metadataStr = text)
    (enough : INT_MAX < env.fuel) (makes : req.type = .fileUpload ∨ req.type = .dirCreate)
    {b : Nat} {o : Node} (named : ¬ Trailing (creationPath req))
    (valid : validFilename (lastName (creationPath req)) = true)
    (leads : t.Leads t.root (way [] (creationPath req)).1 b) (above : t.node b = some o)
    (missing : ¬ ∃ id, t.Leads t.root (components (creationPath req)) id)
    (next : latest < INT_MAX) :
    (handleCreationAndQuery env req (kMaxAttempt + 1) h resp).Reaches False (gives answer)
      text fun w r => Leaves (if o.isFile then t else withEntry t (latest + 1) b
        (way [] (creationPath req)).2 (decide (req.type = .fileUpload))) (latest + 1) w r.2 := by
  obtain ⟨wf, -, exact, -, known⟩ := read.serves
  obtain ⟨parentDir, name, looked, new, -⟩ :=
    validate_missing wf exact.toHolds exact.filesEmpty missing
  obtain ⟨rfl, rfl⟩ := new named b leads
  obtain ⟨h', made, prints⟩ : ∃ h', createEntry h (some (ptrOf h b)) (way [] (creationPath req)).2
      (latest + 1) (decide (req.type = .fileUpload)) = some h' ∧ _ :=
    prints_created read above (free_of_missing named leads missing) (new_name_fits named valid) next _
  obtain ⟨again, run⟩ := creation_made env makes looked known
  rw [run]
  refine reaches_ofOption made (reaches_printed prints
    ((sameText_createEntry made).metadataStr.trans stored) enough fun new known => ?_)
  rw [if_pos rfl, finish]
  split
  · refine reaches_question fun reply w asked => ?_
    cases asked
    exact ⟨rfl, known⟩
  · exact ⟨rfl, known⟩

theorem reaches_rename (read : HasRead t latest h) (stored : h.metadataStr = text)
    (enough : INT_MAX < env.fuel) {oldPath newName : Str} {id p : Nat} {n : Node}
    (fits : newName ≠ [] ∧ ∀ c ∈ newName, pathChar c = true ∧ c ≠ '/')
    (finds : t.Finds oldPath id p n) (linked : Linked t id p newName t') :
    (handleRename env oldPath newName (kMaxAttempt + 1) h resp).Reaches False (gives answer)
      text fun w r => Leaves t' latest w r.2 := by
  have wf := read.serves.wf
  have exact := read.serves.exact
  obtain ⟨o, above, -⟩ := wf.directory finds.here finds.parent
  obtain ⟨h', renamed, same, relinked⟩ := relinked_of_rename wf.toRooted exact.laid enough
    finds.here finds.parent above newName
  rw [handleRename]
  refine reaches_ofOption (validate_finds wf exact.toHolds exact.filesEmpty finds) ?_
  rw [if_neg (by simp)]
  refine reaches_ofOption renamed (reaches_printed
    (prints_linked read finds.here finds.parent fits same relinked linked)
    (same.metadataStr.trans stored) enough fun new known => ?_)
  exact ⟨rfl, known⟩

theorem reaches_move (read : HasRead t latest h) (stored : h.metadataStr = text)
    (enough : INT_MAX < env.fuel) {path newDir : Str} {id p q : Nat} {n : Node}
    (finds : t.Finds path id p n) (target : Target t newDir q) (linked : Linked t id q n.name t') :
    (handleMove env path newDir (kMaxAttempt + 1) h resp).Reaches False (gives answer)
      text fun w r => Leaves t' latest w r.2 := by
  have wf := read.serves.wf
  have exact := read.serves.exact
  obtain ⟨m, before, -⟩ := wf.directory finds.here finds.parent
  obtain ⟨o, above⟩ := target.node wf
  obtain ⟨h', moved, same, relinked⟩ :=
    relinked_of_move wf.toRooted exact.laid enough finds.here before above
  obtain ⟨parentDir, name, located⟩ := validate_target wf exact.toHolds exact.filesEmpty target
  rw [handleMove]
  refine reaches_ofOption (validate_finds wf exact.toHolds exact.filesEmpty finds) ?_
  rw [if_neg (by simp)]
  refine reaches_ofOption located ?_
  rw [if_neg (by simp)]
  refine reaches_ofOption moved (reaches_printed
    (prints_linked read finds.here finds.parent (read.serves.named id n finds.here) same relinked
      linked) (same.metadataStr.trans stored) enough fun new known => ?_)
  exact ⟨rfl, known⟩

/-- The tree that is left is stored, and the handler knows its text. -/
def Stands (latest : Nat) (t : Tree) (h : Handler) (text : Str) : Prop :=
  h.metadataStr = text ∧ MetadataOf t latest text

theorem deletesLeaf_alone (enough : INT_MAX < env.fuel) (expectKvFailure : Bool) (attempts : Nat) :
    DeletesLeaf False (gives answer) (Stands latest) (fun _ => False) env latest
      expectKvFailure attempts := by
  intro t h h₁ x b n fuel path found curDir resp text serves same finds leaf parentDir name
    ident kind ⟨stored, metadata⟩
  obtain ⟨h', removed, kept, holds, remains⟩ :=
    leaf_removed serves.wf serves.exact serves.tidy finds.here finds.parent leaf
  rw [← parentDir, ← name, ← ident] at removed
  have prints : Prints (t.without x) latest h' := by
    refine ⟨serves.wf.without (serves.wf.ne_root finds.here finds.parent),
      named_without serves.named x, fun node => ?_, metadata.small, ⟨_, holds⟩,
      kept.latestId.trans serves.known⟩
    exact metadata.used (node_without.mp node).2
  have done : (storeRemoved env fuel attempts path found curDir.id h₁ resp).Reaches False
      (gives answer) text
      (Continues (Stands latest) (fun _ => False) t h₁ (t.Under x)) := by
    refine reaches_ofOption removed (reaches_printed prints (kept.metadataStr.trans stored) enough
      fun new known => ?_)
    rw [if_pos rfl]
    refine .inl ⟨rfl, t.without x, cut_without t x, ?_, rfl, known⟩
    rw [ident]
    exact remains new
  rw [deleteEmptied]
  cases file : curDir.isFile with
  | false => exact done
  | true =>
    rw [if_pos rfl, Dialogue.bind_assoc]
    refine reaches_question fun reply w asked => ?_
    cases asked
    exact done

theorem reaches_delete (read : HasRead t latest h) (stored : h.metadataStr = text)
    (enough : INT_MAX < env.fuel) {path : Str} {id p : Nat} {n : Node}
    (finds : t.Finds path id p n) :
    (handleDelete env env.fuel (kMaxAttempt + 1) false path h resp).Reaches False
      (gives answer) text fun w r => Leaves (t.without id) latest w r.2 := by
  have leaf : ∀ attempts, DeletesLeaf False (gives answer) (Stands latest)
      (fun _ => False) env latest false attempts := deletesLeaf_alone enough false
  obtain ⟨k, depth⟩ := read.serves.wf.rooted finds.here
  refine (reaches_delete_below enough (leaf 0) (leaf _) read.serves depth (.inr (by omega)) finds
    ⟨stored, stored ▸ read.metadata⟩).mono ?_
  rintro w r (⟨success, t', cut, -, -, known⟩ | ⟨-, no⟩)
  · obtain rfl := cut.unique (cut_without t id)
    exact ⟨by rw [StorageServiceResp.getStatus, success]; rfl, known⟩
  · exact no.elim

/-- A new entry is made, or vanishes in a file. -/
theorem reaches_made (makes : creates req = true)
    (valid : validFilename (lastName (creationPath req)) = true) (read : HasRead t latest h)
    (stored : h.metadataStr = text) (enough : INT_MAX < env.fuel)
    (takes : Takes req t latest t' latest') :
    (handleCreationAndQuery env req (kMaxAttempt + 1) h resp).Reaches False (gives answer)
      text fun w r => Leaves t' latest' w r.2 := by
  have kind := kind_of_creates makes
  have wf := read.serves.wf
  cases takes with
  | made _ named leads above directory free next =>
    have reaches : (handleCreationAndQuery env req (kMaxAttempt + 1) h resp).Reaches False
        (gives answer) text _ :=
      reaches_creation read stored enough kind named valid leads above free next
    rw [directory] at reaches
    exact reaches
  | vanished _ named leads above file next =>
    have missing : ¬ ∃ id, t.Leads t.root (components (creationPath req)) id := by
      rintro ⟨id, there⟩
      obtain ⟨p, n, finds⟩ := finds_of_leads wf named there
      obtain rfl := leads.unique wf finds.leads
      obtain ⟨o, above', directory⟩ := wf.directory finds.here finds.parent
      cases above.symm.trans above'
      rw [file] at directory
      cases directory
    have reaches : (handleCreationAndQuery env req (kMaxAttempt + 1) h resp).Reaches False
        (gives answer) text _ :=
      reaches_creation read stored enough kind named valid leads above missing next
    rw [file] at reaches
    exact reaches
  | renamed kind | moved kind | deleted kind =>
    rcases kind with rfl | rfl
    · cases makes
    · cases makes

/-- The request is carried out. -/
theorem reaches_request (ordinary : Ordinary req) (read : HasRead t latest h)
    (stored : h.metadataStr = text) (enough : INT_MAX < env.fuel)
    (takes : Takes req t latest t' latest') :
    (handleRequest env h req).Reaches False (gives answer) text
      fun w r => Leaves t' latest' w r.2 := by
  rw [Ordinary.eq_def] at ordinary
  split at ordinary
  · exact reaches_made rfl ordinary read stored enough takes
  · exact reaches_made rfl ordinary read stored enough takes
  · cases takes with
    | made makes | vanished makes => cases makes
    | renamed _ finds linked => exact reaches_rename read stored enough ordinary finds linked
  · cases takes with
    | made makes | vanished makes => cases makes
    | renamed _ finds linked => exact reaches_rename read stored enough ordinary finds linked
  · cases takes with
    | made makes | vanished makes => cases makes
    | moved _ finds target linked => exact reaches_move read stored enough finds target linked
  · cases takes with
    | made makes | vanished makes => cases makes
    | moved _ finds target linked => exact reaches_move read stored enough finds target linked
  · cases takes with
    | made makes | vanished makes => cases makes
    | deleted _ finds => exact reaches_delete read stored enough finds
  · cases takes with
    | made makes | vanished makes => cases makes
    | deleted _ finds => exact reaches_delete read stored enough finds
  · exact ordinary.elim

/-- A request that has the store for itself makes of the tree what it asks for. -/
theorem alone_takes (ordinary : Ordinary req) (known : MetadataOf t latest text)
    (enough : INT_MAX < env.fuel) (usr : Str) (fd : Int)
    (takes : Takes req t latest t' latest') :
    ∃ resp new, alone answer text (serve env usr fd req) = some (resp, new) ∧
      Leaves t' latest' new resp := by
  refine alone_of_reaches (reaches_opened known enough usr fd fun h read stored => ?_)
  rw [if_neg (by simp)]
  refine reaches_bind ((reaches_request ordinary read stored enough takes).mono ?_)
  exact fun w r left => left

end Requests

end StorageAlone
