import PennCloud.ServedChanges
import PennCloud.StorageIsolation

/-!
# How files of a user are deleted

A deletion goes from the leaves upwards, and stores the metadata without each of them.
At every point on the way the store has the files that are left, with their contents.
-/

namespace ServedFiles

open Text KvInterface UnorderedMap StorageMetadata StorageHandler StorageCommit Dialogue
  StorageTree MetadataText MetadataPrinting MetadataParsing HandlerText HandlerObjects StorageDelete
  StorageCreate StorageMove StorageRename PathMaps FileService StoredFiles StorageIsolation

/-! What is stored on the way -/

/-- The tree that is left is stored, and its files have their contents. -/
structure Leaves (usr : Str) (v : Values) (latest : Nat) (t : Tree) (h : Handler) (w : Values) :
    Prop where
  records : Records usr t latest w
  user : h.usr = usr
  text : h.metadataStr = w usr kMetadataFp
  contents : ∀ id n, t.node id = some n → n.isFile = true →
    w usr (toDecimal id) = v usr (toDecimal id)

section Leaves
variable {usr : Str} {v : Values} {latest : Nat} {env : Env}

/-- The tree that is left without an entry is stored. -/
theorem reaches_storeRemoved {t t' : Tree} {h h' : Handler} {ptr : Nat → Ptr} {found : Found}
    {fuel attempts id : Nat} {fp : Str} {resp : StorageServiceResp} {w : Values}
    (records : Records usr t latest w) (user : h.usr = usr)
    (text : h.metadataStr = w usr kMetadataFp) (enough : INT_MAX < env.fuel)
    (removed : removeEntry h found.parentDir found.relativePath id = some h') (wf : t'.WellFormed)
    (named : Named t') (top : t'.node t'.root = some ⟨usr, false, none⟩)
    (part : ∀ {c m}, t'.node c = some m → t.node c = some m) (holds : Holds t' h' ptr)
    (known : h'.latestId = some latest)
    (contents : ∀ c m, t'.node c = some m → m.isFile = true →
      w usr (toDecimal c) = v usr (toDecimal c)) :
    (storeRemoved env fuel attempts fp found id h resp).Reaches False (Amid usr) w fun w' r =>
      r.2.status = some .success ∧ ∃ text,
        r.1 = { h'.free (h.directories.lookup id) with metadataStr := text } ∧
          Leaves usr v latest t' r.1 w' := by
  have same := sameText_removeEntry removed
  have user' : h'.usr = usr := same.usr.trans user
  refine reaches_ofOption removed (reaches_commit wf.toRooted holds known enough user'
    (same.metadataStr.trans text) fun text w' written wrote => ?_)
  rw [if_pos rfl]
  refine ⟨rfl, text, rfl, ?_, ?_, wrote.here.symm, fun c m here file => ?_⟩
  · exact records.replaced wrote written le_rfl records.small wf named top
      fun here => .inl ⟨_, part here, rfl⟩
  · cases h.directories.lookup id with
    | none => exact user'
    | some p => exact user'
  · rw [wrote.content]
    exact contents c m here file

/-- A leaf goes with its content. -/
theorem deletesLeaf_stored (enough : INT_MAX < env.fuel) (expectKvFailure : Bool)
    (attempts : Nat) : DeletesLeaf False (Amid usr) (Leaves usr v latest) (fun _ => False) env latest
      expectKvFailure attempts := by
  intro t h h₁ x b n fuel path found curDir resp w serves same finds leaf parentDir name
    ident kind left
  obtain ⟨h', removed, kept, holds, remains⟩ :=
    leaf_removed serves.wf serves.exact serves.tidy finds.here finds.parent leaf
  rw [← parentDir, ← name, ← ident] at removed
  have below := serves.wf.ne_root finds.here finds.parent
  -- the metadata without the leaf is stored, when its content is gone
  have stored : ∀ w', Records usr t latest w' → w' usr kMetadataFp = w usr kMetadataFp →
      (∀ c, c ≠ x → w' usr (toDecimal c) = w usr (toDecimal c)) →
      (storeRemoved env fuel attempts path found curDir.id h₁ resp).Reaches False (Amid usr) w'
        (Continues (Leaves usr v latest) (fun _ => False) t h₁ (t.Under x)) := by
    intro w' records text others
    refine (reaches_storeRemoved (v := v) records left.user (left.text.trans text.symm) enough removed
      (serves.wf.without below) (named_without serves.named x)
      (node_without.mpr ⟨serves.wf.not_under_root below, left.records.top⟩)
      (fun here => (node_without.mp here).2) holds (kept.latestId.trans serves.known)
      fun c m here file => ?_).mono ?_
    · obtain ⟨other, old⟩ := leaf.node.mp here
      exact (others c other).trans (left.contents c m old file)
    · rintro w'' r ⟨success, text', result, left'⟩
      refine .inl ⟨success, t.without x, cut_without t x, ?_, left'⟩
      rw [result, ident]
      exact remains text'
  rw [deleteEmptied]
  cases file : curDir.isFile with
  | false => exact stored w left.records rfl fun _ _ => rfl
  | true =>
    rw [if_pos rfl, bind_assoc]
    refine reaches_question fun reply w' asked => ?_
    rw [← same, left.user, ident] at asked
    obtain ⟨finished, wrote⟩ := asked.removed
    rw [decide_eq_true finished]
    refine stored w' ?_ ?_ fun c other => ?_
    · refine records_filled left.records wrote (left.records.used finds.here) fun m here => ?_
      cases finds.here.symm.trans here
      rw [← kind, file]
    · exact wrote.others _ ofStorage_metadata (StorageFailure.metadata_ne_decimal x).symm
    · exact wrote.others _ (ofStorage_id c) (toDecimal_injective.ne other)

end Leaves

/-! Deletions -/

section Deletions
variable {usr : Str} {fs : UserFiles} {t : Tree} {h : Handler} {v : Values} {env : Env}

theorem Serving.leaves (serving : Serving usr fs t h v) : Leaves usr v fs.made t h v where
  records := serving.records
  user := serving.ready.user
  text := serving.ready.text
  contents _ _ _ _ := rfl

/-- What is left of the files is stored. -/
theorem Leaves.stores {latest : Nat} {t' : Tree} {h' : Handler} {w : Values}
    {e : Entries Str Str} (left : Leaves usr v latest t' h' w)
    (maps : Maps t' (fun id => v usr (toDecimal id)) e) : Stores usr ⟨e, latest⟩ w :=
  ⟨t', left.records, maps.congr left.contents⟩

theorem reaches_delete (serving : Serving usr fs t h v) (enough : INT_MAX < env.fuel)
    {type : StorageServiceType} (kind : type = .fileDele ∨ type = .dirDele) {path : Str}
    (direct : Direct path) :
    (handleDelete env env.fuel (kMaxAttempt + 1) false path h begun).Reaches False (Amid usr) v
      (Performed usr fs ⟨type, .deleteReq path⟩) := by
  have wf := serving.records.wf
  have serves := serving.ready.serves
  have leaf : ∀ attempts, DeletesLeaf False (Amid usr) (Leaves usr v fs.made)
      (fun _ => False) env fs.made false attempts := deletesLeaf_stored enough false
  obtain ⟨fuel, more⟩ := Nat.exists_eq_succ_of_ne_zero (by omega : env.fuel ≠ 0)
  by_cases missing : fs.entries (components path) = none
  · obtain ⟨parentDir, name, looked⟩ := serving.not_found missing
    rw [more, handleDelete_eq]
    refine reaches_ofOption looked ?_
    rw [if_pos (by simp)]
    refine serving.unchanged (.unknown ?_ missing)
    rcases kind with rfl | rfl
    · rfl
    · rfl
  -- an answer with SUCCESS is that of the last step alone
  have answered : ∀ e, Performs usr fs ⟨type, .deleteReq path⟩ (succeeded usr .notSet) ⟨e, fs.made⟩ →
      ((handleDelete env env.fuel (kMaxAttempt + 1) false path h begun).Reaches False (Amid usr) v
        fun w r => r.2.status = some .success ∧ Stores usr ⟨e, fs.made⟩ w) →
      (handleDelete env env.fuel (kMaxAttempt + 1) false path h begun).Reaches False (Amid usr) v
        (Performed usr fs ⟨type, .deleteReq path⟩) := by
    intro e performs reaches
    refine (reaches.respects (anyway_delete serving.ready.user rfl) fun _ => trivial).mono ?_
    rintro w r ⟨⟨success, stores⟩, answered⟩
    refine ⟨_, ?_, stores⟩
    rw [answered.success success]
    exact performs
  by_cases trailing : Trailing path
  · obtain rfl := direct trailing
    refine answered _ (.emptied kind) ?_
    rw [more]
    refine reaches_delete_root enough (leaf 0) (by omega) serves serving.leaves ?_ nofun
    intro t₁ h₁ d resp₁ w cut remains serves₁ childless ident file left
    obtain rfl := cut.unique (cut_pruned t t.root)
    have top := left.records.top
    obtain ⟨h', removed, same, holds⟩ := root_removed serves₁.exact top childless
    rw [remains.pointers _ _ top] at removed
    rw [deleteEmptied, file]
    refine (reaches_storeRemoved left.records left.user left.text enough (ident ▸ removed)
      serves₁.wf serves₁.named top (fun here => here) holds (same.latestId.trans serves₁.known)
      left.contents).mono ?_
    rintro w' r ⟨success, -, -, left'⟩
    exact ⟨success, left'.stores (serving.maps.cleared wf)⟩
  · obtain ⟨id, p, n, here, parent, -, -, source, names, -⟩ := serving.below trailing missing
    have below : components path ≠ [] := by
      rw [names]
      exact List.concat_ne_nil _ _
    refine answered _ (.deleted kind missing below) ?_
    obtain ⟨b, m, finds⟩ := finds_of_entryAt (entryAt_of_named trailing source)
      (wf.ne_root here parent)
    obtain ⟨k, depth⟩ := wf.rooted here
    refine (reaches_delete_below enough (leaf 0) (leaf _) serves depth (.inr (by omega)) finds
      serving.leaves).mono ?_
    rintro w r (⟨success, t', cut, -, left⟩ | ⟨-, no⟩)
    · obtain rfl := cut.unique (cut_without t id)
      exact ⟨success, left.stores (serving.maps.without wf source)⟩
    · exact no.elim

end Deletions

end ServedFiles
