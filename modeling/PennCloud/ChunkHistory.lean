import PennCloud.ChunkOverlay
import PennCloud.CacheSteps
import PennCloud.Login

/-!
# A history of checkpoints

From an empty folder on, the chunk files of a user hold what the checkpoints
wrote, one record for each key. That rests on the delete list being removed
after each of them, which the shell does for a folder whose path is one word.
-/

namespace ChunkHistory

open Text FileTree KvInterface UnorderedMap ChunkFiles ChunkFormat ChunkFolder ChunkOverlay Runs
  CacheSteps Login

/-- A checkpoint of a user: its updates, the order of its loops, and the size limit. -/
structure Checkpoint where
  it : Iteration Loop
  limit : Nat
  updates : KvMap

/-- `init`, then `append_kvs`. -/
def step (port : Nat) (user : Str) (t : Tree) (k : Checkpoint) : Option Tree :=
  (init t (PREFIX port) user).bind fun r =>
    (r.2.appendKvs k.it k.limit k.updates (Journal.start t)).map Journal.tree

/-- The contents after the checkpoints: each lays its updates over those before. -/
def contents (ks : List Checkpoint) : Str → Option Str :=
  ks.foldl (fun stored k key => overlaid (k.updates.lookup key) (stored key)) fun _ => none

/-- The folder of the user is there and has nothing in it. -/
def EmptyFolder (t : Tree) (port : Nat) (user : Str) : Prop :=
  t.lookup (userPath port user) = some .dir ∧
    ∀ q, q ≠ [] → t.lookup (userPath port user ++ q) = none

/-- The records of a chunk file. -/
def recordsIn (t : Tree) (c : Chunk) (i : Nat) : Option (List (Str × Str)) :=
  match content t (c.path (chunkName i)) with
  | some text => loadChunk text
  | none => some []

/-- What is read back from the folder: `get_all_kv` lists the contents, `get_value` agrees, and
each key of the contents has one record in all, in the chunk of its metadata. -/
structure ReadBack (t : Tree) (c : Chunk) (m : Str → Option Str) : Prop where
  all : ∃ kvs, c.getAllKv t = some kvs ∧ ∀ key, kvs.lookup key = m key
  value : ∀ key, c.getValue t key = some (match m key with
    | some value => (.finished, value)
    | none => (.keyError, []))
  single : ∀ key i, ∃ records, recordsIn t c i = some records ∧
    (valuesOf records key).length = if c.metadata.lookup key = some i then 1 else 0
  listed : ∀ key, c.metadata.lookup key ≠ none ↔ m key ≠ none

/-- Every history from an empty folder is read back. -/
def Overlays (user : Str) : Prop :=
  ∀ port t ks, EmptyFolder t port user →
    (∀ k ∈ ks, ∀ key, k.updates.lookup key ≠ none → OneLine key) →
    ∃ t', run (step port user) t ks = some t' ∧
      ∃ c, init t' (PREFIX port) user = some (.finished, c) ∧ ReadBack t' c (contents ks)

/-- A folder with one record for each key it lists. -/
structure Exact (F : Folder) (m : Str → Option Str) : Prop where
  settled : Settled F
  single : ∀ key i, (F.records i key).length = if F.places.lookup key = some i then 1 else 0
  value : ∀ key, F.value key = m key

section Step
variable {port : Nat} {user : Str} {t : Tree} {F : Folder} {m : Str → Option Str}

theorem represents_empty (empty : EmptyFolder t port user) :
    Represents t (userPath port user) Folder.empty := by
  refine ⟨⟨empty.1, fun s => ?_⟩, ⟨?_, ?_, ?_⟩⟩
  · rw [empty.2 [s.name] (List.cons_ne_nil _ _)]
    cases s <;> rfl
  · exact fun e he => absurd he List.not_mem_nil
  · exact fun e he => absurd he List.not_mem_nil
  · exact fun i r hr => absurd hr List.not_mem_nil

theorem exact_empty : Exact Folder.empty fun _ => none :=
  ⟨⟨rfl, fun _ placed => absurd rfl placed⟩, fun _ _ => rfl, fun _ => rfl⟩

theorem exact_complete {it : Iteration Loop} {mp : KvMap} {c : Chunk} {fill : List Change}
    (exact' : Exact F m)
    (fills : Fills (it.pairs (.kvMap user) mp) (opened port user F) c fill) :
    Exact ((changesOf it F (F.index.getD (0, 0)).1 c fill).foldl Change.apply F)
      fun key => overlaid (mp.lookup key) (m key) := by
  have settled := exact'.settled
  have keeps := keeps_settled settled mp
  have distinct := it.nodup_keys (.kvMap user) mp
  refine ⟨settled_complete fills keeps settled.stored, fun key i => ?_, fun key => ?_⟩
  · have pending : ordered ((filled F (F.index.getD (0, 0)).1 fill).deletes.getD [] ++
        c.delList) i key = ordered c.delList i key := by
      rw [ordered_append, (filled_keep fills F _).2.2, settled.deletes]
      exact Nat.zero_add _
    have start : ordered (opened port user F).delList i key = 0 := rfl
    have same : (opened port user F).metadata = F.places := rfl
    have old := exact'.single key i
    rw [(places_complete it F _ c fill key).2, records_complete, pending]
    cases hk : mp.lookup key with
    | none =>
      have absent : key ∉ (it.pairs (.kvMap user) mp).map Prod.fst := by
        intro mem
        obtain ⟨⟨k, v⟩, hv, rfl⟩ := List.mem_map.mp mem
        rw [(it.mem_pairs _ _).mp hv] at hk
        cases hk
      obtain ⟨place, orders⟩ := fills_absent fills absent
      rw [place, orders, start, same, filled, records_others (fills_others fills absent),
        records_touched, List.drop_zero, old]
    | some value =>
      have mem := (it.mem_pairs (.kvMap user) mp).mpr hk
      by_cases deleted : value = []
      · subst deleted
        obtain ⟨orders, records⟩ := fills_deleted_orders fills distinct mem
        rw [fills_deleted fills distinct mem, orders, start, same, filled, records,
          records_touched, List.length_drop, old]
        cases hp : F.places.lookup key with
        | none => simp
        | some p => simp [at', hp]
      · obtain ⟨a, -, place, orders, records⟩ := fills_written fills distinct deleted mem
        rw [place, orders, start, same, filled, records, records_touched, List.length_drop,
          List.length_append, old]
        by_cases here : i = a
        · subst here
          simp
        · simp [here, Ne.symm here]
  · rw [value_complete fills keeps, exact'.value]

/-- What a checkpoint does to the folder, and what the shell then removes. -/
theorem step_removal (plain : PlainName user) (h : Represents t (userPath port user) F)
    (k : Checkpoint) (lines : ∀ key, k.updates.lookup key ≠ none → OneLine key) :
    ∃ c fill, Fills (k.it.pairs (.kvMap user) k.updates) (opened port user F) c fill ∧
      step port user t k = some (applyAll
        (applyAll t ((changesBefore k.it F (F.index.getD (0, 0)).1 c fill).map
          (Change.effect (userPath port user))))
        (removeFile (PREFIX port ++ user ++ "/delete_list".toList))) ∧
      ∀ d ∈ changesBefore k.it F (F.index.getD (0, 0)).1 c fill, d.Readable := by
  have keys : ∀ e ∈ k.it.pairs (.kvMap user) k.updates, OneLine e.1 := by
    rintro ⟨key, value⟩ he
    exact lines key (by rw [(k.it.mem_pairs _ _).mp he]; simp)
  obtain ⟨c, fill, fills, effects⟩ := appendKvs_removal plain k.it k.limit k.updates
    (j := Journal.start t) h keys
  refine ⟨c, fill, fills, ?_, fun d hd => ?_⟩
  · rw [step, init_represented plain h, Option.bind_some, effects]
    rfl
  · exact changesOf_readable fills (chunkReadable_opened h.readable port user) keys h.readable
      k.it (F.index.getD (0, 0)).1 d (by rw [changesOf_eq]; exact List.mem_append_left _ hd)

/-- One checkpoint of a user whose name is one word. -/
theorem step_exact (name : UserName user) (h : Represents t (userPath port user) F)
    (exact' : Exact F m) (k : Checkpoint)
    (lines : ∀ key, k.updates.lookup key ≠ none → OneLine key) :
    ∃ t' F', step port user t k = some t' ∧ Represents t' (userPath port user) F' ∧
      Exact F' fun key => overlaid (k.updates.lookup key) (m key) := by
  have keys : ∀ e ∈ k.it.pairs (.kvMap user) k.updates, OneLine e.1 := by
    rintro ⟨key, value⟩ he
    exact lines key (by rw [(k.it.mem_pairs _ _).mp he]; simp)
  obtain ⟨c, fill, fills, effects⟩ := appendKvs_changes name k.it k.limit k.updates
    (j := Journal.start t) h keys
  have readable := changesOf_readable fills (chunkReadable_opened h.readable port user) keys
    h.readable k.it (F.index.getD (0, 0)).1
  refine ⟨_, _, ?_, represents_applyAll h readable, exact_complete exact' fills⟩
  rw [step, init_represented name.plain h, Option.bind_some, effects]
  rfl

theorem run_exact (name : UserName user) {ks : List Checkpoint}
    (lines : ∀ k ∈ ks, ∀ key, k.updates.lookup key ≠ none → OneLine key)
    (h : Represents t (userPath port user) F) (exact' : Exact F m) :
    ∃ t' F', run (step port user) t ks = some t' ∧ Represents t' (userPath port user) F' ∧
      Exact F' (ks.foldl (fun stored k key => overlaid (k.updates.lookup key) (stored key)) m) := by
  induction ks generalizing t F m with
  | nil => exact ⟨t, F, rfl, h, exact'⟩
  | cons k ks ih =>
    obtain ⟨t₁, F₁, first, h₁, exact₁⟩ := step_exact name h exact' k (lines k List.mem_cons_self)
    obtain ⟨t', F', rest, h', last⟩ := ih (fun l hl => lines l (List.mem_cons_of_mem k hl)) h₁ exact₁
    exact ⟨t', F', run_cons_eq_some.mpr ⟨t₁, first, rest⟩, h', last⟩

theorem readBack_exact (plain : PlainName user) (h : Represents t (userPath port user) F)
    (exact' : Exact F m) : ReadBack t (opened port user F) m := by
  have listed : ∀ key, F.places.lookup key ≠ none ↔ m key ≠ none := by
    intro key
    rw [← exact'.value key]
    constructor
    · intro placed
      obtain ⟨value, -, hv⟩ := exact'.settled.stored key placed
      simp [hv]
    · intro stored absent
      exact stored (by rw [Folder.value, absent, Option.bind_none])
  refine ⟨?_, fun key => ?_, fun key i => ?_, listed⟩
  · obtain ⟨kvs, all, lookup⟩ := getAllKv_represented plain h
    refine ⟨kvs, all, fun key => ?_⟩
    rw [lookup, ← exact'.value key]
    cases hp : F.places.lookup key with
    | none => rw [Folder.value, hp]; rfl
    | some i =>
      obtain ⟨value, -, hv⟩ := exact'.settled.stored key (by simp [hp])
      rw [hv]
      rfl
  · have got := getValue_represented (c := opened port user F) plain h rfl rfl key
    rw [exact'.value key] at got
    cases here : m key with
    | none => simpa only [here] using got
    | some value => simpa only [here] using got
  · have text : content t ((opened port user F).path (chunkName i)) = (F.chunks i).map chunkText :=
      (congrArg (content t) (path_slot plain rfl (.chunk i))).trans (h.files.content (.chunk i))
    refine ⟨F.chunk i, ?_, exact'.single key i⟩
    rw [recordsIn, text, Folder.chunk]
    cases hc : F.chunks i with
    | none => rfl
    | some records => exact loadChunk_chunk h.readable hc

theorem overlays_of_word (name : UserName user) : Overlays user := by
  intro port t ks empty lines
  obtain ⟨t', F', ran, h, exact'⟩ := run_exact name lines (represents_empty empty) exact_empty
  exact ⟨t', ran, opened port user F', init_represented name.plain h,
    readBack_exact name.plain h exact'⟩

end Step

/-! A name that is not one word -/

theorem applyAll_removals {effects : List Effect} (removals : ∀ e ∈ effects, ∃ p, e = .remove p)
    (t : Tree) {q : Path} (gone : t.lookup q = none ∨ ∃ e ∈ effects, e.target <+: q) :
    (applyAll t effects).lookup q = none := by
  induction effects generalizing t with
  | nil =>
    rcases gone with absent | ⟨e, he, -⟩
    · exact absent
    · cases he
  | cons e effects ih =>
    obtain ⟨p, rfl⟩ := removals e List.mem_cons_self
    refine ih (fun d hd => removals d (List.mem_cons_of_mem _ hd)) _ ?_
    have removed := lookup_removeAll t p q
    rcases gone with absent | ⟨d, hd, above⟩
    · refine .inl (removed.trans ?_)
      split
      · rfl
      · exact absent
    · rcases List.mem_cons.mp hd with rfl | later
      · exact .inl (removed.trans (if_pos above))
      · exact .inr ⟨d, later, above⟩

section NotWord
variable {port : Nat} {user : Str} (plain : PlainName user) {t : Tree} {F : Folder}
  {b : Char} (inside : b ∈ user) (breaks : b ∈ shellBreaks)
include inside breaks

/-- What is removed is not in the folder. -/
theorem removed_outside {path : Str} {e : Effect} (h : e ∈ removeFile path) :
    ¬ userPath port user <+: e.target := by
  obtain ⟨word, rfl, kept⟩ := mem_removeFile h
  intro below
  have member : user ∈ resolve word := below.subset (List.mem_append_right _ (by simp))
  exact kept b (mem_resolve member inside) breaks

/-- The folder goes as a whole, or stays as it is. -/
theorem removed_or_kept (h : Represents t (userPath port user) F) (path : Str) :
    (applyAll t (removeFile path)).lookup (userPath port user) = none ∨
      Represents (applyAll t (removeFile path)) (userPath port user) F := by
  by_cases gone : ∃ e ∈ removeFile path, e.target <+: userPath port user
  · refine .inl (applyAll_removals (fun e he => ?_) t (.inr gone))
    obtain ⟨word, rfl, -⟩ := mem_removeFile he
    exact ⟨_, rfl⟩
  · refine .inr (represents_congr h fun q below => applyAll_outside t _ fun e he above => ?_)
    rcases List.prefix_or_prefix_of_prefix above below with up | down
    · exact gone ⟨e, he, up⟩
    · exact removed_outside inside breaks he down

include plain

/-- After a checkpoint the folder is gone, or still has its delete list. -/
theorem step_notWord (h : Represents t (userPath port user) F) (k : Checkpoint)
    (lines : ∀ key, k.updates.lookup key ≠ none → OneLine key) :
    ∃ t' c fill, step port user t k = some t' ∧
      Fills (k.it.pairs (.kvMap user) k.updates) (opened port user F) c fill ∧
      (t'.lookup (userPath port user) = none ∨ Represents t' (userPath port user)
        ((changesBefore k.it F (F.index.getD (0, 0)).1 c fill).foldl Change.apply F)) := by
  obtain ⟨c, fill, fills, stepped, readable⟩ := step_removal plain h k lines
  exact ⟨_, c, fill, stepped, fills, removed_or_kept inside breaks (represents_applyAll h readable)
    (PREFIX port ++ user ++ "/delete_list".toList)⟩

end NotWord

/-! A delete list that stays -/

/-- A checkpoint of one pair. -/
def single (value : Str) : Checkpoint :=
  ⟨Iteration.stored Loop, SIZE_LIMIT, (∅ : KvMap).insert pwd value⟩

theorem pairs_single (user value : Str) :
    (single value).it.pairs (.kvMap user) (single value).updates = [(pwd, value)] := rfl

theorem lines_single {l : List Checkpoint} (all : ∀ k ∈ l, ∃ value, k = single value) :
    ∀ k ∈ l, ∀ key, k.updates.lookup key ≠ none → OneLine key := by
  intro k hk key present
  obtain ⟨value, rfl⟩ := all k hk
  by_cases same : key = pwd
  · rw [same]
    decide +kernel
  · exact absurd (AList.lookup_insert_ne same) present

section Forgets
variable {port : Nat} {user : Str} {t : Tree} {c : Chunk} {fill : List Change} {F : Folder}

/-- The deletion of a key without a record is booked against the first chunk. -/
theorem booked (fills : Fills [(pwd, [])] (opened port user Folder.empty) c fill)
    (hF : F = (changesBefore (single []).it Folder.empty 0 c fill).foldl Change.apply Folder.empty) :
    (F.index.getD (0, 0)).1 = 0 ∧ 1 ≤ F.pending 0 pwd ∧ F.records 0 pwd = [] := by
  cases fills with
  | stay size written tail => exact absurd rfl written
  | roll written tail => exact absurd rfl written
  | delete tail =>
    cases tail
    obtain ⟨index, deletes, -⟩ := rest_before (single []).it Folder.empty 0
      (unplaced (opened port user Folder.empty) pwd) []
    have records := records_before (single []).it Folder.empty 0
      (unplaced (opened port user Folder.empty) pwd) [] 0 pwd
    rw [← hF] at index deletes records
    refine ⟨by rw [index]; rfl, ?_, ?_⟩
    · rw [Folder.pending, deletes, Option.getD_some, ordered_append, unplaced, ordered_append,
        ordered_single, if_pos ⟨rfl, rfl⟩]
      omega
    · rw [records, filled, List.foldl_nil, records_touched]
      exact List.drop_nil

/-- The record that is written next is dropped again. -/
theorem dropped (start : (F.index.getD (0, 0)).1 = 0 ∧ 1 ≤ F.pending 0 pwd ∧ F.records 0 pwd = [])
    (fills : Fills [(pwd, pwd)] (opened port user F) c fill) (it : Iteration Loop) :
    ((changesBefore it F (F.index.getD (0, 0)).1 c fill).foldl Change.apply F).value pwd = none := by
  obtain ⟨zero, pending, none⟩ := start
  have written : pwd ≠ [] := by decide +kernel
  have place : c.metadata.lookup pwd = some 0 := by
    cases fills with
    | stay size _ tail =>
      cases tail
      exact (AList.lookup_insert _).trans (congrArg some zero)
    | roll _ tail =>
      cases tail
      exact (AList.lookup_insert _).trans (congrArg some zero)
  obtain ⟨a, -, place', -, added⟩ := fills_written fills (by simp) written
    (List.mem_singleton_self _)
  obtain rfl : a = 0 := Option.some.inj (place'.symm.trans place)
  have kept := (filled_keep fills F (F.index.getD (0, 0)).1).2.2
  rw [Folder.value, (rest_before it F _ c fill).2.2, place, Option.bind_some, records_before,
    ordered_append, kept]
  have few : (filled F (F.index.getD (0, 0)).1 fill).records 0 pwd = [pwd] := by
    rw [filled, added, records_touched, none, if_pos rfl, List.nil_append]
  rw [few, List.drop_of_length_le]
  · rfl
  · have more : 1 ≤ ordered (F.deletes.getD []) 0 pwd := pending
    rw [List.length_singleton]
    omega

/-- No key is read back from a folder that is gone. -/
theorem not_finished_of_gone (plain : PlainName user)
    (gone : t.lookup (userPath port user) = none) : init t (PREFIX port) user ≠ some (.finished, c) := by
  have absent : t.lookup (resolve (PREFIX port ++ user)) = none := by
    rw [resolve_PREFIX port plain]
    exact gone
  simp [init, absent]

/-- A key that was deleted and then written is not found. -/
theorem not_overlays (plain : PlainName user) {b : Char} (inside : b ∈ user)
    (breaks : b ∈ shellBreaks) (empty : EmptyFolder t port user) : ¬ Overlays user := by
  intro overlays
  obtain ⟨t₁, c₁, fill₁, first, fills₁, state₁⟩ := step_notWord plain inside breaks
    (represents_empty empty) (single []) (lines_single (l := [single []]) (by simp) _ (by simp))
  rcases state₁ with gone | h₁
  · obtain ⟨t', ran, c, opens, -⟩ := overlays port t [single []] empty (lines_single (by simp))
    have once : run (step port user) t [single []] = some t₁ :=
      run_cons_eq_some.mpr ⟨t₁, first, rfl⟩
    cases once.symm.trans ran
    exact not_finished_of_gone plain gone opens
  · obtain ⟨F, hF⟩ : ∃ F, F = (changesBefore (single []).it Folder.empty 0 c₁ fill₁).foldl
      Change.apply Folder.empty := ⟨_, rfl⟩
    have h₁ : Represents t₁ (userPath port user) F := hF ▸ h₁
    have start := booked (pairs_single user [] ▸ fills₁) hF
    obtain ⟨t₂, c₂, fill₂, second, fills₂, state₂⟩ := step_notWord plain inside breaks h₁
      (single pwd) (lines_single (l := [single pwd]) (by simp) _ (by simp))
    obtain ⟨t', ran, c, opens, readBack⟩ :=
      overlays port t [single [], single pwd] empty (lines_single (by simp))
    have twice : run (step port user) t [single [], single pwd] = some t₂ :=
      run_cons_eq_some.mpr ⟨t₁, first, run_cons_eq_some.mpr ⟨t₂, second, rfl⟩⟩
    cases twice.symm.trans ran
    rcases state₂ with gone | h₂
    · exact not_finished_of_gone plain gone opens
    · have lost := dropped start (pairs_single user pwd ▸ fills₂) (single pwd).it
      have found := readBack.value pwd
      cases (init_represented plain h₂).symm.trans opens
      rw [getValue_represented plain h₂ rfl rfl, lost] at found
      cases found

end Forgets

/-- The chunk files of a user whose name the shell takes as it is implement an overlay map exactly
when the name is one word. -/
theorem overlays_iff (user : Str) (plain : PlainName user)
    (literal : ∀ c ∈ user, c ∉ shellQuoting) : Overlays user ↔ ∀ c ∈ user, c ∉ shellBreaks := by
  refine ⟨fun overlays b inside breaks => ?_, fun word => overlays_of_word ⟨plain, word, literal⟩⟩
  have empty : EmptyFolder ((∅ : Tree).insert (userPath 0 user) .dir) 0 user := by
    refine ⟨AList.lookup_insert _, fun q nonempty => ?_⟩
    rw [AList.lookup_insert_ne (by simpa using nonempty)]
    rfl
  exact not_overlays plain inside breaks empty overlays

theorem overlays_bob : Overlays bob :=
  (overlays_iff bob (by constructor <;> decide +kernel) (by decide +kernel)).mpr (by decide +kernel)

/-- A user who could sign up. -/
def twoWords : Str := "a;b".toList

/-- The files after the first checkpoint, which deletes, and the second, which writes. -/
def afterBoth : Option Tree :=
  run (step 7000 twoWords) (nodeAt 7000 [twoWords]).fs [single [], single pwd]

theorem lost_after_delete : validUsername twoWords = true ∧
    EmptyFolder (nodeAt 7000 [twoWords]).fs 7000 twoWords ∧
    (afterBoth.bind fun t => (init t (PREFIX 7000) twoWords).bind fun r => r.2.getValue t pwd) =
      some (.keyError, []) ∧
    contents [single [], single pwd] pwd = some pwd := by
  refine ⟨by decide +kernel, ⟨by decide +kernel, fun q nonempty => ?_⟩, by decide +kernel,
    by decide +kernel⟩
  have keys : (nodeAt 7000 [twoWords]).fs.keys = [userPath 7000 twoWords, home 7000 ++
      ["logging".toList], [], ["home".toList], ["home".toList, "cis5050".toList], home 7000] := by
    decide +kernel
  rw [AList.lookup_eq_none, AList.mem_keys, keys]
  simp [userPath, home, nonempty]

end ChunkHistory
