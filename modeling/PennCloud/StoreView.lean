import PennCloud.NodeDisk

/-!
# The value a node has for a pair

The updates lie over the chunk files. On a live node the two caches never hold
the same pair and every entry of the read cache is the value of the chunk, so
that a read gives the current value; reads, writes and checkpoints keep this.
-/

namespace StoreView

open Text FileTree KvInterface UnorderedMap ChunkFiles KvCache KvStore LogReplay CacheSteps
  ChunkFormat ChunkFolder ChunkOverlay NodeDisk

/-- The value in the user's chunk files. -/
def chunkValue (n : Node) (user key : Str) : Option Str :=
  match chunkAnswer n.fs n.port user key with
  | some (.finished, value) => some value
  | _ => none

/-- The value in the updates if there is one, else the one in the chunk files, else the
empty string. -/
def cur (n : Node) (user key : Str) : Str :=
  ((find2 n.cache.updatesCache user key).or (chunkValue n user key)).getD []

/-- The value of the pair, where the empty value counts as absent. -/
def view (n : Node) (user key : Str) : Option Str :=
  ((find2 n.cache.updatesCache user key).or (chunkValue n user key)).filter (· ≠ [])

theorem filter_some (value : Str) :
    (some value).filter (· ≠ []) = if value = [] then none else some value := by
  by_cases h : value = []
  · simp [Option.filter, h]
  · simp [Option.filter, h]

theorem view_eq (n : Node) (user key : Str) :
    view n user key = if cur n user key = [] then none else some (cur n user key) := by
  rw [view, cur]
  cases (find2 n.cache.updatesCache user key).or (chunkValue n user key) with
  | none => rfl
  | some value => exact filter_some value

theorem view_congr {n m : Node} {user key : Str} (h : cur n user key = cur m user key) :
    view n user key = view m user key := by
  rw [view_eq, view_eq, h]

/-- The value in the folders. -/
def stored (S : Folders) (user key : Str) : Option Str := (S user).bind fun F => F.value key

/-- The user has a folder. -/
def HasFolder (n : Node) (user : Str) : Prop :=
  n.fs.lookup (resolve (PREFIX n.port ++ user)) = some .dir

instance (n : Node) (user : Str) : Decidable (HasFolder n user) :=
  inferInstanceAs (Decidable (_ = _))

/-- What holds of a live node between two commands. -/
structure Sound (n : Node) (S : Folders) : Prop where
  disk : Disk n.fs n.port S
  settled : ∀ user F, UserName user → S user = some F → Settled F
  /-- The two caches never hold the same pair. -/
  apart : ∀ user key, find2 n.cache.readCache user key = none ∨
    find2 n.cache.updatesCache user key = none
  /-- An entry of the read cache is the value of the chunk. -/
  read : ∀ user key value, UserName user → find2 n.cache.readCache user key = some value →
    value = (stored S user key).getD []
  users : ∀ user, n.cache.updatesCache.lookup user ≠ none → UserName user
  keys : ∀ user key, find2 n.cache.updatesCache user key ≠ none → OneLine key
  logged : n.fs.lookup n.logPath ≠ none

/-- What a checkpoint needs of a node. -/
structure Savable (n : Node) (S : Folders) : Prop where
  disk : Disk n.fs n.port S
  users : ∀ user, n.cache.updatesCache.lookup user ≠ none → UserName user
  keys : ∀ user key, find2 n.cache.updatesCache user key ≠ none → OneLine key

section Sound
variable {n : Node} {S : Folders}

theorem Sound.savable (sound : Sound n S) : Savable n S := ⟨sound.disk, sound.users, sound.keys⟩

/-- The chunk files answer with the value in the folders. -/
theorem chunkAnswer_disk {t : Tree} {port : Nat} (d : Disk t port S) {user : Str}
    (name : UserName user) (key : Str) :
    ∃ status, chunkAnswer t port user key = some (status, (stored S user key).getD []) ∧
      (status = .finished ↔ stored S user key ≠ none) := by
  rw [chunkAnswer, stored]
  cases has : S user with
  | none =>
    obtain ⟨status, hi⟩ := init_noFolder d.closed name.plain (d.noFolder user name has)
    rw [hi, Option.bind_some, Option.bind_none]
    by_cases finished : status = .finished
    · exact ⟨.keyError, by simp [finished, Chunk.getValue], by simp⟩
    · exact ⟨.userError, by simp [finished], by simp⟩
  | some F =>
    have rep := d.folder user F name has
    rw [init_represented name.plain rep, Option.bind_some, Option.bind_some, if_pos rfl,
      getValue_represented name.plain rep rfl rfl]
    cases F.value key with
    | none => exact ⟨.keyError, rfl, by simp⟩
    | some value => exact ⟨.finished, rfl, by simp⟩

theorem chunkValue_disk (d : Disk n.fs n.port S) {user : Str} (name : UserName user)
    (key : Str) : chunkValue n user key = stored S user key := by
  obtain ⟨status, answer, finished⟩ := chunkAnswer_disk d name key
  rw [chunkValue, answer]
  cases hs : stored S user key with
  | none =>
    have failed : status ≠ .finished := fun h => finished.mp h hs
    split
    · rename_i h
      exact absurd (congrArg Prod.fst (Option.some.inj h)) failed
    · rfl
  | some value =>
    obtain rfl := finished.mpr (by simp [hs])
    rfl

theorem cur_disk (d : Disk n.fs n.port S) {user : Str} (name : UserName user) (key : Str) :
    cur n user key =
      ((find2 n.cache.updatesCache user key).or (stored S user key)).getD [] := by
  rw [cur, chunkValue_disk d name]

theorem hasFolder_iff (disk : Disk n.fs n.port S) {user : Str} (name : UserName user) :
    HasFolder n user ↔ S user ≠ none := by
  have path : resolve (PREFIX n.port ++ user) = userPath n.port user :=
    resolve_PREFIX n.port name.plain
  rw [HasFolder, path]
  cases has : S user with
  | none => simpa using disk.noFolder user name has
  | some F => simpa using (disk.folder user F name has).files.dir

/-- A stored value is never empty. -/
theorem stored_nonempty (sound : Sound n S) {user : Str} (name : UserName user) {key value : Str}
    (h : stored S user key = some value) : value ≠ [] := by
  obtain ⟨F, hF, hv⟩ := Option.bind_eq_some_iff.mp h
  have placed : F.places.lookup key ≠ none := by
    intro absent
    rw [Folder.value, absent] at hv
    cases hv
  obtain ⟨v, nonempty, hv'⟩ := (sound.settled user F name hF).stored key placed
  rw [hv] at hv'
  cases hv'
  exact nonempty

/-! Reads -/

/-- A read that changes the read cache of one pair at most keeps the node sound. -/
theorem sound_of_readOf (sound : Sound n S) {m : Node} {user key : Str} (name : UserName user)
    (read : ReadOf n m user key)
    (entries : ∀ a b value, find2 m.cache.readCache a b = some value →
      find2 n.cache.readCache a b = some value ∨ a = user ∧ b = key ∧
        find2 n.cache.updatesCache a b = none ∧ value = (stored S user key).getD []) :
    Sound m S := by
  have disk : Disk m.fs m.port S := by
    rw [read.rest]
    exact sound.disk
  have logged : m.fs.lookup m.logPath ≠ none := by
    rw [read.rest]
    exact sound.logged
  refine ⟨disk, sound.settled, fun a b => ?_, fun a b value ha hv => ?_, fun a h => ?_,
    fun a b h => ?_, logged⟩
  · rw [read.updates]
    cases hv : find2 m.cache.readCache a b with
    | none => exact .inl rfl
    | some value =>
      rcases entries a b value hv with old | ⟨-, -, fresh, -⟩
      · refine (sound.apart a b).imp (fun none => ?_) id
        rw [none] at old
        cases old
      · exact .inr fresh
  · rcases entries a b value hv with old | ⟨rfl, rfl, -, same⟩
    · exact sound.read a b value ha old
    · exact same
  · by_cases same : a = user
    · rw [same]
      exact name
    · exact sound.users a (by rwa [Ne, ← read.alike.users a same])
  · exact sound.keys a b (by rwa [← read.updates])

/-- A read gives the current value, and leaves the pair in one of the caches. Only a pair
that was in neither can be answered with an error. -/
theorem gets_sound (sound : Sound n S) {user : Str} (name : UserName user) (key : Str) :
    ∃ status m, n.gets user key = some (status, cur n user key, m) ∧ Sound m S ∧
      ReadOf n m user key ∧
      (find2 m.cache.readCache user key ≠ none ∨ find2 m.cache.updatesCache user key ≠ none) ∧
      ((find2 n.cache.readCache user key ≠ none ∨ find2 n.cache.updatesCache user key ≠ none) →
        status = .finished) := by
  have value := cur_disk sound.disk name key
  cases hr : find2 n.cache.readCache user key with
  | some v =>
    have same : cur n user key = v := by
      have fresh := (sound.apart user key).resolve_left (by simp [hr])
      rw [value, fresh, sound.read user key v name hr]
      rfl
    have answer := gets_read hr
    rw [same]
    refine ⟨_, _, answer, ?_, readOf_gets answer, .inl ?_, fun _ => rfl⟩
    · refine sound_of_readOf sound name (readOf_gets answer) fun a b w h => .inl ?_
      rwa [find2_touch] at h
    · simp [find2_touch, hr]
  | none =>
    cases hu : find2 n.cache.updatesCache user key with
    | some v =>
      have same : cur n user key = v := by rw [value, hu]; rfl
      have answer := gets_updated hr hu
      rw [same]
      refine ⟨_, _, answer, ?_, readOf_gets answer, .inr ?_, fun _ => rfl⟩
      · refine sound_of_readOf sound name (readOf_gets answer) fun a b w h => .inl ?_
        rwa [find2_touch] at h
      · simp [find2_touch, hu]
    | none =>
      obtain ⟨status, hc, -⟩ := chunkAnswer_disk sound.disk name key
      have same : cur n user key = (stored S user key).getD [] := by rw [value, hu]; rfl
      have answer := gets_loaded hr hu
      rw [hc, Option.map_some, ← same] at answer
      refine ⟨_, _, answer, ?_, readOf_gets answer, .inl ?_, fun cached => ?_⟩
      · refine sound_of_readOf sound name (readOf_gets answer) fun a b w h => ?_
        rw [loaded, find2_set2] at h
        split at h
        · rename_i pair
          obtain ⟨rfl, rfl⟩ := pair
          cases h
          exact .inr ⟨rfl, rfl, hu, same⟩
        · rw [find2_touch] at h
          exact .inl h
      · simp [loaded, find2_set2]
      · simp at cached

/-- A node whose caches are empty reads what is stored. -/
theorem gets_emptyCaches (disk : Disk n.fs n.port S) (read : n.cache.readCache = ∅)
    (updates : n.cache.updatesCache = ∅) {user : Str} (name : UserName user) (key : Str) :
    ∃ status last, n.gets user key = some (status, (stored S user key).getD [], last) ∧
      (status = .finished ↔ stored S user key ≠ none) := by
  obtain ⟨status, answer, finished⟩ := chunkAnswer_disk disk name key
  have unread : find2 n.cache.readCache user key = none := by
    rw [read]
    rfl
  have fresh : find2 n.cache.updatesCache user key = none := by
    rw [updates]
    rfl
  have loads := gets_loaded unread fresh
  rw [answer] at loads
  exact ⟨status, _, loads, finished⟩

/-! Writes -/

theorem find2_erase {m : UserMap} {user user' key : Str} :
    find2 (m.erase user) user' key = if user' = user then none else find2 m user' key := by
  by_cases h : user' = user
  · subst h
    simp [find2, AList.lookup_erase]
  · simp [find2, AList.lookup_erase_ne h, h]

/-- A write takes its pair out of the read cache, and nothing else. -/
theorem readCache_putsPair (c : Cache) (user key value a b : Str) :
    find2 (c.putsPair user key value).readCache a b =
      if a = user ∧ b = key then none else find2 c.readCache a b := by
  rw [Cache.putsPair]
  cases hm : c.readCache.lookup user with
  | none =>
    by_cases h : a = user ∧ b = key
    · obtain ⟨rfl, rfl⟩ := h
      simp [find2, hm]
    · simp [h]
  | some userMap =>
    by_cases empty : (userMap.erase key).entries = []
    · have none' : ∀ k, k ≠ key → userMap.lookup k = none := by
        intro k ne
        rw [← AList.lookup_erase_ne ne, AList.lookup_eq_none, AList.mem_keys, AList.keys, empty]
        simp
      simp only [empty, if_true, find2_erase]
      by_cases ha : a = user
      · subst ha
        by_cases hb : b = key
        · simp [hb]
        · simp [hb, find2, hm, none' b hb]
      · simp [ha]
    · simp only [empty, if_false]
      by_cases ha : a = user
      · subst ha
        by_cases hb : b = key
        · subst hb
          simp [find2, AList.lookup_erase]
        · simp [find2, hm, hb, AList.lookup_erase_ne hb]
      · simp [find2, ha, AList.lookup_insert_ne ha]

/-- An accepted write sets the value of its pair and no other. -/
theorem cur_wrote (d : Disk n.fs n.port S) (r : Record) {user : Str} (name : UserName user)
    (key : Str) : cur (wrote n r) user key =
      if r.user = user ∧ r.key = key then r.written else cur n user key := by
  have disk : Disk (wrote n r).fs (wrote n r).port S := d.logWrite ⟨r.text, .inr rfl⟩
  have updates : find2 (wrote n r).cache.updatesCache user key = _ :=
    find2_applyRecord n.cache r user key
  rw [cur_disk disk name, cur_disk d name, updates]
  split <;> rfl

theorem sound_wrote (sound : Sound n S) {r : Record} (name : UserName r.user)
    (line : OneLine r.key) : Sound (wrote n r) S := by
  have updates : ∀ a b, find2 (wrote n r).cache.updatesCache a b = _ :=
    fun a b => find2_applyRecord n.cache r a b
  have reads : ∀ a b, find2 (wrote n r).cache.readCache a b =
      if a = r.user ∧ b = r.key then none else find2 n.cache.readCache a b :=
    fun a b => readCache_putsPair _ r.user r.key r.written a b
  have logged : (wrote n r).fs.lookup n.logPath ≠ none := by
    have opens : writable n.fs n.logPath = true := sound.disk.logOpens
    have file : (wrote n r).fs.lookup n.logPath = _ :=
      congrArg (AList.lookup n.logPath) (apply_append r.text opens)
    rw [file, AList.lookup_insert]
    simp
  refine ⟨sound.disk.logWrite ⟨r.text, .inr rfl⟩, sound.settled, fun a b => ?_,
    fun a b value ha hv => ?_, fun a h => ?_, fun a b h => ?_, logged⟩
  · rw [updates, reads]
    by_cases pair : a = r.user ∧ b = r.key
    · exact .inl (if_pos pair)
    · have pair' : ¬ (r.user = a ∧ r.key = b) := fun h => pair ⟨h.1.symm, h.2.symm⟩
      rw [if_neg pair, if_neg pair']
      exact sound.apart a b
  · rw [reads] at hv
    split at hv
    · cases hv
    · exact sound.read a b value ha hv
  · by_cases same : r.user = a
    · exact same ▸ name
    · refine sound.users a fun absent => h ?_
      exact (lookup_applyRecord n.cache r a).mpr ⟨absent, same⟩
  · rw [updates] at h
    split at h
    · rename_i pair
      rw [← pair.2]
      exact line
    · exact sound.keys a b h

theorem sound_bumped (sound : Sound n S) : Sound (bumped n) S :=
  ⟨sound.disk, sound.settled, sound.apart, sound.read, sound.users, sound.keys, sound.logged⟩

/-! Checkpoints -/

theorem Savable.names (savable : Savable n S) (it : Iteration Loop) :
    ∀ e ∈ it.pairs .updates n.cache.updatesCache, UserName e.1 := by
  rintro ⟨user, mp⟩ he
  exact savable.users user (by rw [(it.mem_pairs _ _).mp he]; simp)

theorem Savable.lines (savable : Savable n S) (it : Iteration Loop) :
    ∀ e ∈ it.pairs .updates n.cache.updatesCache,
      ∀ kv ∈ it.pairs (.kvMap e.1) e.2, OneLine kv.1 := by
  rintro ⟨user, mp⟩ he ⟨key, value⟩ hkv
  refine savable.keys user key ?_
  rw [find2, (it.mem_pairs _ _).mp he, Option.bind_some, (it.mem_pairs _ _).mp hkv]
  simp

/-- The effects of a checkpoint: the users one after the other, then the log. -/
theorem checkpoint_steps (savable : Savable n S) (it : Iteration Loop) :
    ∃ es S', Steps it n.port S (it.pairs .updates n.cache.updatesCache) es S' ∧
      n.checkpointJournal it = some ((Journal.start n.fs).performAll
        (es ++ [.write n.logPath [],
          .append n.logPath (checkpointHeader n.cache.sequenceId)])) := by
  obtain ⟨es, S', steps, loop⟩ := checkpointUsers_steps n it _ (j := Journal.start n.fs)
    savable.disk (savable.names it) (savable.lines it)
  refine ⟨es, S', steps, ?_⟩
  rw [Node.checkpointJournal, loop, Option.map_some, Journal.perform_eq, Journal.perform_eq,
    Journal.performAll_append, Journal.performAll_append]
  simp

theorem update_of_pairs {it : Iteration Loop} {m : UserMap} {user : Str} {mp : KvMap}
    (h : (user, mp) ∈ it.pairs .updates m) (key : Str) : mp.lookup key = find2 m user key := by
  rw [find2, (it.mem_pairs _ _).mp h]
  rfl

/-- A complete checkpoint lays the updates of every user with a folder over the chunks. -/
theorem stored_completed {it : Iteration Loop} {S' : Folders} {m : UserMap}
    (keeps : ∀ user mp F, UserName user → (user, mp) ∈ it.pairs .updates m → S user = some F →
      Keeps F mp)
    (changed : Changed (Completed it n.port) (it.pairs .updates m) S S') {user : Str}
    (name : UserName user) (key : Str) :
    stored S' user key =
      if S user = none then none else overlaid (find2 m user key) (stored S user key) := by
  cases has : S user with
  | none => simp [stored, changed.noFolder user has]
  | some F =>
    rw [if_neg (by simp), stored]
    cases hm : m.lookup user with
    | none =>
      have absent : user ∉ (it.pairs .updates m).map Prod.fst := by
        intro mem
        obtain ⟨⟨u, mp⟩, hmem, rfl⟩ := List.mem_map.mp mem
        rw [(it.mem_pairs _ _).mp hmem] at hm
        cases hm
      rw [changed.absent user absent, find2, hm]
      rfl
    | some mp =>
      have mem := (it.mem_pairs .updates m).mpr hm
      obtain ⟨G, hG, ⟨c, fill, fills, rfl⟩⟩ := changed.folder user mp F mem has
      rw [hG, Option.bind_some, value_complete fills (keeps user mp F name mem has),
        update_of_pairs mem key, stored, has]
      rfl

theorem settled_completed {it : Iteration Loop} {S' : Folders} {m : UserMap}
    (keeps : ∀ user mp F, UserName user → (user, mp) ∈ it.pairs .updates m → S user = some F →
      Keeps F mp)
    (listed : ∀ user mp F key, UserName user → (user, mp) ∈ it.pairs .updates m →
      S user = some F → F.places.lookup key ≠ none → ∃ value ≠ [], F.value key = some value)
    (others : ∀ user F, UserName user → m.lookup user = none → S user = some F → Settled F)
    (changed : Changed (Completed it n.port) (it.pairs .updates m) S S') (user : Str) (G : Folder)
    (name : UserName user) (hG : S' user = some G) : Settled G := by
  cases has : S user with
  | none =>
    rw [changed.noFolder user has] at hG
    cases hG
  | some F =>
    cases hm : m.lookup user with
    | none =>
      have absent : user ∉ (it.pairs .updates m).map Prod.fst := by
        intro mem
        obtain ⟨⟨u, mp⟩, hmem, rfl⟩ := List.mem_map.mp mem
        rw [(it.mem_pairs _ _).mp hmem] at hm
        cases hm
      rw [changed.absent user absent, has] at hG
      cases hG
      exact others user _ name hm has
    | some mp =>
      have mem := (it.mem_pairs .updates m).mpr hm
      obtain ⟨G', hG', ⟨c, fill, fills, rfl⟩⟩ := changed.folder user mp F mem has
      rw [hG] at hG'
      cases hG'
      exact settled_complete fills (keeps user mp F name mem has)
        fun key placed => listed user mp F key name mem has placed

/-- The disk after a complete checkpoint, and the change of each folder. -/
theorem checkpoint_changed (savable : Savable n S) (it : Iteration Loop) :
    ∃ t S', n.checkpoint it = some (.finished, { n with
        fs := t
        cache := { n.cache with updatesCache := ∅, readCache := ∅ } }) ∧
      Disk t n.port S' ∧ content t n.logPath = some (checkpointHeader n.cache.sequenceId) ∧
      Changed (Completed it n.port) (it.pairs .updates n.cache.updatesCache) S S' := by
  obtain ⟨es, S', steps, journal⟩ := checkpoint_steps savable it
  have after := steps.disk savable.disk (savable.names it) (savable.lines it)
  obtain ⟨headed, log⟩ := after.newLog (checkpointHeader n.cache.sequenceId)
  refine ⟨_, S', ?_, headed, log, steps.completed (it.nodup_keys _ _)⟩
  rw [Node.checkpoint, journal, Option.map_some]
  have tree : ((Journal.start n.fs).performAll (es ++ [.write n.logPath [],
      .append n.logPath (checkpointHeader n.cache.sequenceId)])).tree =
      applyAll (applyAll n.fs es) [.write n.logPath [],
        .append n.logPath (checkpointHeader n.cache.sequenceId)] :=
    applyAll_append n.fs es _
  rw [tree]
  have opens : writable (applyAll (applyAll n.fs es) [.write n.logPath [],
      .append n.logPath (checkpointHeader n.cache.sequenceId)]) n.logPath = true :=
    headed.logOpens
  rw [if_pos opens]
  rfl

/-- The disk and the folders after a checkpoint of a sound node. -/
theorem checkpoint_sound (sound : Sound n S) (it : Iteration Loop) :
    ∃ t S', n.checkpoint it = some (.finished, { n with
        fs := t
        cache := { n.cache with updatesCache := ∅, readCache := ∅ } }) ∧
      Disk t n.port S' ∧ (∀ user F, UserName user → S' user = some F → Settled F) ∧
      (∀ user, S user = none ↔ S' user = none) ∧
      content t n.logPath = some (checkpointHeader n.cache.sequenceId) ∧
      ∀ user key, UserName user → stored S' user key =
        if S user = none then none
        else overlaid (find2 n.cache.updatesCache user key) (stored S user key) := by
  obtain ⟨t, S', done, disk, log, changed⟩ := checkpoint_changed sound.savable it
  have keeps : ∀ user mp F, UserName user →
      (user, mp) ∈ it.pairs .updates n.cache.updatesCache → S user = some F → Keeps F mp :=
    fun user mp F name _ has => keeps_settled (sound.settled user F name has) mp
  refine ⟨t, S', done, disk, ?_, changed.folders, log, ?_⟩
  · exact settled_completed keeps
      (fun user mp F key name _ has => (sound.settled user F name has).stored key)
      (fun user F name _ has => sound.settled user F name has) changed
  · exact fun user key name => stored_completed keeps changed name key

/-- A checkpoint of the copied cache keeps the node sound and every value. -/
theorem checkpointCopy_sound (sound : Sound n S) {it : Iteration Loop} {m : Node}
    {forwards : List Forward} (h : Node.checkpointCopy n it = some (m, forwards)) :
    m = { n with fs := m.fs } ∧
      content m.fs n.logPath = some (checkpointHeader n.cache.sequenceId) ∧
      ∃ S', Sound m S' ∧ (∀ user, S user = none ↔ S' user = none) ∧
        ∀ user key, UserName user → stored S' user key = if S user = none then none
          else overlaid (find2 n.cache.updatesCache user key) (stored S user key) := by
  obtain ⟨primary, -, h⟩ := Option.bind_eq_some_iff.mp h
  obtain ⟨t, S', done, disk, settled, folders, log, values⟩ := checkpoint_sound sound it
  rw [done, Option.map_some] at h
  cases h
  have same : ∀ user key, UserName user → find2 n.cache.updatesCache user key = none →
      (stored S' user key).getD [] = (stored S user key).getD [] := by
    intro user key name fresh
    rw [values user key name, fresh]
    by_cases has : S user = none
    · rw [if_pos has, stored, has]
      rfl
    · rw [if_neg has]
      rfl
  refine ⟨rfl, log, S', ⟨disk, settled, sound.apart, fun user key value name hv => ?_, sound.users,
    sound.keys, ?_⟩, folders, values⟩
  · have fresh := (sound.apart user key).resolve_left (by rw [hv]; simp)
    rw [same user key name fresh]
    exact sound.read user key value name hv
  · intro gone
    have file : content t n.logPath = some (checkpointHeader n.cache.sequenceId) := log
    have gone' : t.lookup n.logPath = none := gone
    rw [content, gone'] at file
    cases file

/-- Updates that lie over the chunks hide what a checkpoint did to the chunks. -/
theorem cur_saved {m : Node} {S' : Folders} (disk : Disk n.fs n.port S)
    (disk' : Disk m.fs m.port S') (same : m.cache.updatesCache = n.cache.updatesCache)
    {user key : Str} (name : UserName user)
    (value : stored S' user key = if S user = none then none
      else overlaid (find2 n.cache.updatesCache user key) (stored S user key)) :
    cur m user key = cur n user key := by
  rw [cur_disk disk' name, cur_disk disk name, same]
  cases hu : find2 n.cache.updatesCache user key with
  | some v => rfl
  | none =>
    rw [Option.none_or, Option.none_or, value, hu]
    by_cases has : S user = none
    · rw [if_pos has, stored, has]
      rfl
    · rw [if_neg has]
      rfl

/-- The disk with the folder of a user who signs up. -/
theorem disk_signUp (disk : Disk n.fs n.port S) (logged : n.fs.lookup n.logPath ≠ none)
    {user : Str} (absent : n.fs.lookup (userPath n.port user) = none) :
    Disk (Effect.apply n.fs (.makeDir (userPath n.port user))) n.port
        (Function.update S user (some Folder.empty)) ∧
      (Effect.apply n.fs (.makeDir (userPath n.port user))).lookup n.logPath =
        n.fs.lookup n.logPath ∧
      ∀ a b, UserName a →
        stored (Function.update S user (some Folder.empty)) a b = stored S a b := by
  have notLog : user ≠ logName := by
    rintro rfl
    rw [userPath_log] at absent
    exact logged absent
  have outside : ¬ userPath n.port user <+: n.logPath := by
    rw [Node.logPath, ← userPath_log]
    exact fun below => notLog (userPath_apart below (List.prefix_refl _))
  have none : UserName user → S user = none := by
    intro name
    cases has : S user with
    | none => rfl
    | some F =>
      have dir := (disk.folder user F name has).files.dir
      rw [absent] at dir
      cases dir
  refine ⟨disk.makeDir absent notLog, apply_outside n.fs _ outside, fun a b name => ?_⟩
  by_cases new : a = user
  · subst new
    rw [stored, stored, Function.update_self, none name]
    rfl
  · rw [stored, stored, Function.update_of_ne new]

/-- Signing up a user changes no value and not the log. -/
theorem sound_signUp (sound : Sound n S) {user : Str}
    (absent : n.fs.lookup (userPath n.port user) = none) :
    ∃ S', Sound { n with fs := Effect.apply n.fs (.makeDir (userPath n.port user)) } S' ∧
      (∀ a, S a ≠ none → S' a ≠ none) ∧ (∀ a b, UserName a → stored S' a b = stored S a b) ∧
      content (Effect.apply n.fs (.makeDir (userPath n.port user))) n.logPath =
        content n.fs n.logPath := by
  obtain ⟨disk, kept, same⟩ := disk_signUp sound.disk sound.logged absent
  have settled : Settled Folder.empty := ⟨rfl, fun key placed => absurd rfl placed⟩
  refine ⟨_, ⟨disk, fun a F name has => ?_, sound.apart, fun a b value name hv => ?_,
    sound.users, sound.keys, ?_⟩, fun a has => ?_, same, ?_⟩
  · by_cases new : a = user
    · subst new
      rw [Function.update_self] at has
      cases has
      exact settled
    · rw [Function.update_of_ne new] at has
      exact sound.settled a F name has
  · rw [same a b name]
    exact sound.read a b value name hv
  · exact fun gone => sound.logged (kept.symm.trans gone)
  · by_cases new : a = user
    · subst new
      simp
    · rwa [Function.update_of_ne new]
  · rw [content, content, kept]

/-! All keys of a user -/

theorem lookup_overlay (l : List (Sigma fun _ : Str => Str)) (distinct : (l.map Sigma.fst).Nodup)
    (m : KvMap) (key : Str) :
    (l.foldl (fun kvs e => if e.2 ≠ [] then kvs.insert e.1 e.2 else kvs.erase e.1) m).lookup key =
      overlaid (List.dlookup key l) (m.lookup key) := by
  induction l generalizing m with
  | nil => rfl
  | cons e l ih =>
    obtain ⟨k, v⟩ := e
    obtain ⟨fresh, distinct⟩ := List.nodup_cons.mp distinct
    rw [List.foldl_cons, ih distinct]
    by_cases same : key = k
    · subst same
      have later : List.dlookup key l = none := List.dlookup_eq_none.mpr fresh
      rw [later, List.dlookup_cons_eq]
      by_cases deleted : v = []
      · simp [overlaid, deleted, AList.lookup_erase]
      · simp [overlaid, deleted]
    · have skip : List.dlookup key ((⟨k, v⟩ : Sigma fun _ : Str => Str) :: l) =
          List.dlookup key l := List.dlookup_cons_ne l _ same
      rw [skip]
      by_cases deleted : v = []
      · simp [deleted, AList.lookup_erase_ne same]
      · simp [deleted, AList.lookup_insert_ne same]

theorem dlookup_at' (m : UserMap) (user key : Str) :
    List.dlookup key (at' m user ∅).entries = find2 m user key :=
  lookup_at' m user key

/-- The list of all pairs of a user with a folder has just the values that are not absent. -/
theorem getsAll_sound (sound : Sound n S) {user : Str} (name : UserName user) {F : Folder}
    (has : S user = some F) :
    ∃ kvs m, n.getsAll user = some (.finished, kvs, m) ∧ ∀ key, kvs.lookup key = view n user key := by
  have rep := sound.disk.folder user F name has
  obtain ⟨chunkKvs, all, values⟩ := getAllKv_represented name.plain rep
  have answer : n.getsAll user = some (.finished,
      (at' (touch n.cache.updatesCache user ∅) user ∅).entries.foldl
        (fun kvs e => if e.2 ≠ [] then kvs.insert e.1 e.2 else kvs.erase e.1) chunkKvs,
      { n with cache := { n.cache with updatesCache := touch n.cache.updatesCache user ∅ } }) := by
    rw [Node.getsAll, init_represented name.plain rep, Option.bind_some, if_pos rfl, all]
    rfl
  refine ⟨_, _, answer, fun key => ?_⟩
  rw [lookup_overlay _ (AList.nodupKeys _), dlookup_at', find2_touch, values]
  have kept : stored S user key = F.value key := by rw [stored, has]; rfl
  have listed : ((F.places.lookup key).map fun _ => (F.value key).getD []) = F.value key := by
    cases hp : F.places.lookup key with
    | none => rw [Folder.value, hp]; rfl
    | some i =>
      obtain ⟨value, -, hv⟩ := (sound.settled user F name has).stored key (by simp [hp])
      rw [hv]
      rfl
  rw [listed, view, chunkValue_disk sound.disk name, kept]
  cases hu : find2 n.cache.updatesCache user key with
  | none =>
    rw [overlaid, Option.none_or]
    cases hv : F.value key with
    | none => rfl
    | some value =>
      have nonempty := stored_nonempty sound name (kept.trans hv)
      rw [filter_some, if_neg nonempty]
  | some value => exact (filter_some value).symm

theorem sound_touched (sound : Sound n S) {user : Str} (name : UserName user) :
    Sound { n with cache := { n.cache with
      updatesCache := touch n.cache.updatesCache user ∅ } } S := by
  refine ⟨sound.disk, sound.settled, fun a b => ?_, sound.read, fun a h => ?_, fun a b h => ?_,
    sound.logged⟩
  · simp only [find2_touch]
    exact sound.apart a b
  · by_cases same : a = user
    · rw [same]
      exact name
    · refine sound.users a fun absent => h ?_
      exact lookup_touch_eq_none.mpr ⟨absent, same⟩
  · simp only [find2_touch] at h
    exact sound.keys a b h

theorem cur_touched (n : Node) (user a b : Str) :
    cur { n with cache := { n.cache with
      updatesCache := touch n.cache.updatesCache user ∅ } } a b = cur n a b := by
  rw [cur, cur]
  simp only [find2_touch]
  rfl

/-- Listing the pairs of a user changes no value, and at most the updates of the node. -/
theorem getsAll_keeps (sound : Sound n S) {user : Str} (name : UserName user) {status : KvState}
    {kvs : KvMap} {m : Node} (h : n.getsAll user = some (status, kvs, m)) :
    Sound m S ∧ (∀ a b, cur m a b = cur n a b) ∧
      ∃ updates, m = { n with cache := { n.cache with updatesCache := updates } } ∧
        ∀ a b, find2 updates a b = find2 n.cache.updatesCache a b := by
  obtain ⟨r, -, h⟩ := Option.bind_eq_some_iff.mp h
  split at h
  · obtain ⟨chunkKvs, -, h⟩ := Option.map_eq_some_iff.mp h
    cases h
    exact ⟨sound_touched sound name, cur_touched n user, _, rfl, fun a b => find2_touch _ _ _ _⟩
  · cases h
    exact ⟨sound, fun _ _ => rfl, n.cache.updatesCache, rfl, fun _ _ => rfl⟩

end Sound

end StoreView
