import PennCloud.Durability

/-!
# The two read paths

`Gets` looks in the read cache, the updates and the chunk files, and answers
with whatever it finds there. `GetsAll` lays the updates over the chunk files
and leaves out the empty values. A deletion in the updates and a miss in the
read cache are empty values, which `Gets` takes for values of the key.
-/

namespace ReadPaths

open Text FileTree KvInterface UnorderedMap ChunkFiles KvCache KvStore LogReplay CacheSteps Runs
  ChunkFormat ChunkFolder NodeDisk StoreView LiveNode Durability
open ChunkOverlay (UserName Settled)

/-- A call of the public functions of the cache. -/
inductive Operation where
  | gets (user key : Str)
  | getsAll (user : Str)
  | puts (user key value : Str) (seqNum : Nat)
  | cputs (user key prevValue newValue : Str) (seqNum : Nat)
  | dele (user key : Str) (seqNum : Nat)
  | checkpoint (it : Iteration Loop)
  | replayLoggings

def perform (n : Node) : Operation → Option Node
  | .gets user key => (n.gets user key).map fun r => r.2.2
  | .getsAll user => (n.getsAll user).map fun r => r.2.2
  | .puts user key value seqNum => some (n.puts user key value seqNum).2
  | .cputs user key prevValue newValue seqNum =>
    (n.cputs user key prevValue newValue seqNum).map fun r => r.2
  | .dele user key seqNum => some (n.dele user key seqNum).2
  | .checkpoint it => (n.checkpoint it).map fun r => r.2
  | .replayLoggings => n.replayLoggings.map fun r => r.2

/-- Users are words and entries of a directory, the keys written are lines, and the log has
no entries for the users `.` and `..`, which are no entries of their own. -/
def Allowed (n : Node) : Operation → Prop
  | .gets user _ => UserName user
  | .getsAll user => UserName user
  | .puts user key _ _ => UserName user ∧ OneLine key
  | .cputs user key _ _ _ => UserName user ∧ OneLine key
  | .dele user key _ => UserName user ∧ OneLine key
  | .checkpoint _ => True
  | .replayLoggings => ∀ r, n.replayLoggings = some r →
    r.2.cache.updatesCache.lookup ".".toList = none ∧
      r.2.cache.updatesCache.lookup "..".toList = none

/-- `Gets` answers with FINISHED and a value exactly when `GetsAll` lists the value, and with
an error when it lists none. -/
def Agree (n : Node) (user key : Str) : Prop :=
  ∃ status value kvs m m', n.gets user key = some (status, value, m) ∧
    n.getsAll user = some (.finished, kvs, m') ∧
    (∀ v, (status = .finished ∧ value = v) ↔ kvs.lookup key = some v) ∧
    (kvs.lookup key = none → status ≠ .finished)

section Step
variable {n m : Node} {S : Folders}

/-- Only the files, the port and the two maps matter. -/
theorem sound_congr (sound : Sound n S) (fs : m.fs = n.fs) (port : m.port = n.port)
    (read : m.cache.readCache = n.cache.readCache)
    (updates : m.cache.updatesCache = n.cache.updatesCache) : Sound m S := by
  have logPath : m.logPath = n.logPath := by rw [Node.logPath, Node.logPath, port]
  constructor
  · rw [fs, port]
    exact sound.disk
  · exact sound.settled
  · rw [read, updates]
    exact sound.apart
  · rw [read]
    exact sound.read
  · rw [updates]
    exact sound.users
  · rw [updates]
    exact sound.keys
  · rw [fs, logPath]
    exact sound.logged

theorem sound_logAndPut (sound : Sound n S) {r : Record} (name : UserName r.user)
    (line : OneLine r.key) : Sound (n.logAndPut r.text r.user r.key r.written).2 S := by
  have opens : writable n.fs n.logPath = true := sound.disk.logOpens
  have write : n.logAndPut r.text r.user r.key r.written = (.finished, { n with
      fs := Effect.apply n.fs (.append n.logPath r.text)
      cache := n.cache.putsPair r.user r.key r.written }) := by
    simp only [Node.logAndPut, Node.log, if_pos opens]
    rfl
  rw [write]
  exact sound_congr (sound_wrote sound name line) rfl rfl rfl rfl

/-- The node with the number of a write that is accepted. -/
theorem sound_numbered (sound : Sound n S) (seqNum : Nat) :
    Sound { n with cache := (n.cache.validateAndUpdateSeqNum seqNum).2 } S := by
  rw [validate_eq]
  split
  · exact sound_congr sound rfl rfl rfl rfl
  · exact sound

theorem sound_puts (sound : Sound n S) {user key : Str} (name : UserName user)
    (line : OneLine key) (value : Str) (seqNum : Nat) : Sound (n.puts user key value seqNum).2 S := by
  have numbered := sound_numbered sound seqNum
  rw [Node.puts]
  split
  · exact sound_logAndPut numbered (r := ⟨seqNum, user, key, some value⟩) name line
  · exact sound

theorem sound_dele (sound : Sound n S) {user key : Str} (name : UserName user)
    (line : OneLine key) (seqNum : Nat) : Sound (n.dele user key seqNum).2 S := by
  have numbered := sound_numbered sound seqNum
  rw [Node.dele]
  split
  · exact sound_logAndPut numbered (r := ⟨seqNum, user, key, none⟩) name line
  · exact sound

theorem sound_cputs (sound : Sound n S) {user key prev new : Str} (name : UserName user)
    (line : OneLine key) {seqNum : Nat} {status : KvState}
    (h : n.cputs user key prev new seqNum = some (status, m)) : Sound m S := by
  have numbered := sound_numbered sound seqNum
  rw [Node.cputs] at h
  split at h
  · obtain ⟨status', p, answer, sound', -⟩ := gets_sound numbered name key
    rw [answer, Option.map_some] at h
    split at h
    · cases h
      exact sound'
    · split at h
      · cases h
        exact sound'
      · have write : (p.logAndPut (formatPuts user key new seqNum) user key new).2 = m :=
          congrArg Prod.snd (Option.some.inj h)
        rw [← write]
        exact sound_logAndPut sound' (r := ⟨seqNum, user, key, some new⟩) name line
  · cases h
    exact sound

theorem sound_checkpoint (sound : Sound n S) {it : Iteration Loop} {status : KvState}
    (h : n.checkpoint it = some (status, m)) : ∃ S', Sound m S' := by
  obtain ⟨t, S', done, disk, settled, -, log, -⟩ := checkpoint_sound sound it
  rw [done] at h
  cases h
  refine ⟨S', disk, settled, fun _ _ => .inl rfl, fun _ _ _ _ hv => absurd hv (by simp [find2]),
    fun _ present => absurd rfl present, fun _ _ present => absurd rfl present, fun gone => ?_⟩
  have file : content t n.logPath = some (checkpointHeader n.cache.sequenceId) := log
  have gone' : t.lookup n.logPath = none := gone
  rw [content, gone'] at file
  cases file

theorem sound_replayLoggings (sound : Sound n S) {status : KvState}
    (h : n.replayLoggings = some (status, m)) (allowed : Allowed n .replayLoggings) :
    Sound m S := by
  obtain ⟨shape, cache⟩ := fromLog_replayLoggings h
  obtain ⟨noDot, noDotDot⟩ := allowed _ h
  have fs : m.fs = n.fs := by rw [shape]
  have port : m.port = n.port := by rw [shape]
  have logPath : m.logPath = n.logPath := by rw [shape]; rfl
  rcases cache with same | fromLog
  · exact sound_congr sound fs port (by rw [same]) (by rw [same])
  · have unread : ∀ a b, find2 m.cache.readCache a b = none := by
      intro a b
      rw [fromLog.read]
      rfl
    refine ⟨?_, sound.settled, fun a b => .inl (unread a b), fun a b value _ hv => ?_,
      fun a present => ?_, fun a b present => ?_, ?_⟩
    · rw [fs, port]
      exact sound.disk
    · rw [unread] at hv
      cases hv
    · refine userName_of_logName (fromLog.users a present) ?_ ?_
      · rintro rfl
        exact present noDot
      · rintro rfl
        exact present noDotDot
    · exact oneLine_of_logName (fromLog.keys a b present)
    · rw [fs, logPath]
      exact sound.logged

/-- Every call of the cache keeps the node sound. -/
theorem sound_perform (sound : Sound n S) {operation : Operation}
    (allowed : Allowed n operation) (h : perform n operation = some m) : ∃ S', Sound m S' := by
  cases operation with
  | gets user key =>
    obtain ⟨status, p, answer, sound', -⟩ := gets_sound sound allowed key
    rw [perform, answer] at h
    cases h
    exact ⟨S, sound'⟩
  | getsAll user =>
    obtain ⟨⟨status, kvs, p⟩, answer, rfl⟩ := Option.map_eq_some_iff.mp h
    exact ⟨S, (getsAll_keeps sound allowed answer).1⟩
  | puts user key value seqNum =>
    cases h
    exact ⟨S, sound_puts sound allowed.1 allowed.2 value seqNum⟩
  | cputs user key prev new seqNum =>
    obtain ⟨⟨status, p⟩, answer, rfl⟩ := Option.map_eq_some_iff.mp h
    exact ⟨S, sound_cputs sound allowed.1 allowed.2 answer⟩
  | dele user key seqNum =>
    cases h
    exact ⟨S, sound_dele sound allowed.1 allowed.2 seqNum⟩
  | checkpoint it =>
    obtain ⟨⟨status, p⟩, done, rfl⟩ := Option.map_eq_some_iff.mp h
    exact sound_checkpoint sound done
  | replayLoggings =>
    obtain ⟨⟨status, p⟩, replayed, rfl⟩ := Option.map_eq_some_iff.mp h
    exact ⟨S, sound_replayLoggings sound replayed allowed⟩

theorem sound_run {operations : List Operation} (sound : ∃ S, Sound n S)
    (allowed : Along perform Allowed n operations) (h : run perform n operations = some m) :
    ∃ S, Sound m S :=
  run_invariant_along (P := fun n => ∃ S, Sound n S)
    (fun _ _ _ ⟨_, sound⟩ allowed step => sound_perform sound allowed step) sound allowed h

/-- A read that reaches the chunk files. -/
theorem gets_stored (sound : Sound n S) {user key : Str} (name : UserName user)
    (unread : find2 n.cache.readCache user key = none)
    (fresh : find2 n.cache.updatesCache user key = none) :
    ∃ status last, n.gets user key = some (status, (stored S user key).getD [], last) ∧
      (status = .finished ↔ stored S user key ≠ none) := by
  obtain ⟨status, answer, finished⟩ := chunkAnswer_disk sound.disk name key
  have loads := gets_loaded unread fresh
  rw [answer] at loads
  exact ⟨status, _, loads, finished⟩

/-- What `Gets` answers, beside the value `GetsAll` lists. -/
theorem gets_view (sound : Sound n S) {user : Str} (name : UserName user) (key : Str) :
    ∃ status value last, n.gets user key = some (status, value, last) ∧
      (find2 n.cache.readCache user key = some [] ∨ find2 n.cache.updatesCache user key = some [] →
        status = .finished ∧ value = [] ∧ view n user key = none) ∧
      (find2 n.cache.readCache user key ≠ some [] → find2 n.cache.updatesCache user key ≠ some [] →
        ∀ v, (status = .finished ∧ value = v) ↔ view n user key = some v) := by
  have shown : view n user key =
      ((find2 n.cache.updatesCache user key).or (stored S user key)).filter (· ≠ []) := by
    rw [view, chunkValue_disk sound.disk name]
  rw [shown]
  cases read : find2 n.cache.readCache user key with
  | some v =>
    have fresh := (sound.apart user key).resolve_left (by simp [read])
    have same := sound.read user key v name read
    refine ⟨_, _, _, gets_read read, ?_⟩
    rw [fresh, Option.none_or]
    cases kept : stored S user key with
    | none =>
      rw [kept] at same
      obtain rfl : v = [] := same
      exact ⟨fun _ => ⟨rfl, rfl, rfl⟩, fun h => absurd rfl h⟩
    | some w =>
      rw [kept] at same
      obtain rfl : v = w := same
      have nonempty := stored_nonempty sound name kept
      rw [filter_some, if_neg nonempty]
      simp [nonempty]
  | none =>
    cases update : find2 n.cache.updatesCache user key with
    | some v =>
      refine ⟨_, _, _, gets_updated read update, ?_⟩
      rw [Option.some_or, filter_some]
      by_cases deleted : v = []
      · simp [deleted]
      · simp [deleted]
    | none =>
      obtain ⟨status, last, answer, finished⟩ := gets_stored sound name read update
      refine ⟨_, _, _, answer, by simp, fun _ _ v => ?_⟩
      rw [Option.none_or]
      cases kept : stored S user key with
      | none => simp [finished, kept, Option.filter]
      | some w =>
        rw [filter_some, if_neg (stored_nonempty sound name kept)]
        simp [finished, kept]

end Step

/-- In every state the calls of the cache can reach, the two read paths agree on a pair
exactly when neither cache holds the empty value for it. -/
theorem agree_iff {n t : Node} {operations : List Operation} (started : Started n)
    (allowed : Along perform Allowed n operations) (h : run perform n operations = some t)
    {user : Str} (name : UserName user) (folder : HasFolder t user) (key : Str) :
    Agree t user key ↔ find2 t.cache.readCache user key ≠ some [] ∧
      find2 t.cache.updatesCache user key ≠ some [] := by
  obtain ⟨S₀, live⟩ := live_started started
  obtain ⟨S, sound⟩ := sound_run ⟨S₀, live.sound⟩ allowed h
  obtain ⟨F, has⟩ := Option.ne_none_iff_exists'.mp ((hasFolder_iff sound.disk name).mp folder)
  obtain ⟨kvs, m', all, listed⟩ := getsAll_sound sound name has
  obtain ⟨status, value, last, answer, empty, same⟩ := gets_view sound name key
  constructor
  · rintro ⟨status', value', kvs', m, m'', answer', all', -, absent⟩
    rw [answer] at answer'
    rw [all] at all'
    cases answer'
    cases all'
    by_contra cached
    rw [← not_or, not_not] at cached
    obtain ⟨finished, -, hidden⟩ := empty cached
    exact absent (by rw [listed, hidden]) finished
  · rintro ⟨unread, present⟩
    refine ⟨status, value, kvs, last, m', answer, all, fun v => ?_, fun absent finished => ?_⟩
    · rw [listed]
      exact same unread present v
    · have shown := (same unread present value).mp ⟨finished, rfl⟩
      rw [listed, shown] at absent
      cases absent

/-- After a write that has been saved, the two read paths agree on it. -/
theorem agree_after_checkpoint : ∃ t, run perform (smallNode [bob])
    [.puts bob pwd "one".toList 1, .gets bob pwd, .checkpoint (Iteration.stored Loop),
      .gets bob pwd] = some t ∧ Agree t bob pwd := by
  have outcome : (run perform (smallNode [bob])
      [.puts bob pwd "one".toList 1, .gets bob pwd, .checkpoint (Iteration.stored Loop),
        .gets bob pwd]).map (fun t =>
      decide (HasFolder t bob) &&
        (decide (find2 t.cache.readCache bob pwd ≠ some []) &&
          decide (find2 t.cache.updatesCache bob pwd ≠ some []))) = some true := by
    decide +kernel
  obtain ⟨t, ht, holds⟩ := Option.map_eq_some_iff.mp outcome
  simp only [Bool.and_eq_true, decide_eq_true_eq] at holds
  refine ⟨t, ht, (agree_iff started_smallNode ?_ ht userName_bob holds.1 pwd).mpr holds.2⟩
  exact ⟨⟨userName_bob, oneLine_pwd⟩, fun _ _ => ⟨userName_bob, fun _ _ => ⟨trivial,
    fun _ _ => ⟨userName_bob, fun _ _ => trivial⟩⟩⟩⟩

/-- The second read of a key that is nowhere answers with FINISHED. -/
theorem miss_read_twice :
    ¬ ∀ (n t : Node) (operations : List Operation), Started n →
      run perform n operations = some t → ∀ user : Str, UserName user → HasFolder t user →
      ∀ key : Str, Agree t user key := by
  intro claim
  have outcome : (run perform (smallNode [bob]) [.gets bob pwd]).map (fun t =>
      (decide (HasFolder t bob),
        (t.gets bob pwd).map fun r => r.1,
        (t.getsAll bob).map fun r => r.2.1.lookup pwd)) =
      some (true, some .finished, some none) := by decide +kernel
  obtain ⟨t, ht, holds⟩ := Option.map_eq_some_iff.mp outcome
  obtain ⟨folder, answers⟩ := Prod.mk.inj holds
  obtain ⟨found, missing⟩ := Prod.mk.inj answers
  obtain ⟨status, value, kvs, m, m', answer, all, -, absent⟩ :=
    claim _ t _ started_smallNode ht bob userName_bob (of_decide_eq_true folder) pwd
  rw [answer] at found
  rw [all] at missing
  exact absent (Option.some.inj missing) (Option.some.inj found)

end ReadPaths
