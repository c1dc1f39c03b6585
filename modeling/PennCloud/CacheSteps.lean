import PennCloud.KvStore
import PennCloud.LogReplay
import PennCloud.Runs

/-!
# What one call does to a node

Each call of the cache is described once: a read fills the read cache, an
accepted write appends one record to the log and applies it to the cache, a
rejected write takes its sequence number and nothing else. Later proofs use
these descriptions and not the definitions.
-/

namespace CacheSteps

open Text FileTree KvInterface UnorderedMap ChunkFiles KvCache KvStore LogReplay

/-! Reads -/

/-- What the chunk files answer for a key. -/
def chunkAnswer (t : Tree) (port : Nat) (user key : Str) : Option (KvState × Str) :=
  (init t (PREFIX port) user).bind fun r =>
    if r.1 = .finished then r.2.getValue t key else some (.userError, [])

theorem getValue_error {c : Chunk} {t : Tree} {key : Str} {answer : KvState × Str}
    (h : c.getValue t key = some answer) (failed : answer.1 ≠ .finished) : answer.2 = [] := by
  unfold Chunk.getValue at h
  split at h
  · cases h; rfl
  · split at h
    · cases h; rfl
    · obtain ⟨records, -, rfl⟩ := Option.map_eq_some_iff.mp h
      split at failed
      · exact absurd rfl failed
      · rfl

/-- The caches of the node after a read of the pair that reached the chunk files. -/
def loaded (c : Cache) (user key value : Str) : Cache :=
  { c with
    readCache := set2 (touch c.readCache user ∅) user key value
    updatesCache := touch c.updatesCache user ∅ }

theorem gets_read {n : Node} {user key value : Str}
    (h : find2 n.cache.readCache user key = some value) :
    n.gets user key = some (.finished, value,
      { n with cache := { n.cache with readCache := touch n.cache.readCache user ∅ } }) := by
  simp only [Node.gets, h]

theorem gets_updated {n : Node} {user key value : Str}
    (unread : find2 n.cache.readCache user key = none)
    (h : find2 n.cache.updatesCache user key = some value) :
    n.gets user key = some (.finished, value,
      { n with cache := { n.cache with
        readCache := touch n.cache.readCache user ∅
        updatesCache := touch n.cache.updatesCache user ∅ } }) := by
  simp only [Node.gets, unread, h]

theorem gets_loaded {n : Node} {user key : Str}
    (unread : find2 n.cache.readCache user key = none)
    (fresh : find2 n.cache.updatesCache user key = none) :
    n.gets user key = (chunkAnswer n.fs n.port user key).map fun a =>
      (a.1, a.2, { n with cache := loaded n.cache user key a.2 }) := by
  simp only [Node.gets, unread, fresh, chunkAnswer]
  cases hi : init n.fs (PREFIX n.port) user with
  | none => rfl
  | some r =>
    simp only [Option.bind_some]
    split
    · cases hv : r.2.getValue n.fs key with
      | none => rfl
      | some v =>
        simp only [Option.map_some]
        split
        · rename_i finished
          simp only [finished]
          rfl
        · rename_i failed
          rw [getValue_error hv failed]
          rfl
    · rfl

/-- What a read leaves as it was: everything but the caches, and the content of the
updates. An empty entry of the user appears in the updates when the read went past the
read cache. -/
structure ReadOf (n m : Node) (user key : Str) : Prop where
  rest : m = { n with cache := { n.cache with
    readCache := m.cache.readCache
    updatesCache := m.cache.updatesCache } }
  updates : ∀ a b, find2 m.cache.updatesCache a b = find2 n.cache.updatesCache a b
  users : ∀ a, m.cache.updatesCache.lookup a = none ↔
    n.cache.updatesCache.lookup a = none ∧
      ¬ (a = user ∧ find2 n.cache.readCache user key = none)

theorem lookup_touch_eq_none {m : UserMap} {user a : Str} :
    (touch m user ∅).lookup a = none ↔ m.lookup a = none ∧ a ≠ user := by
  by_cases h : a = user
  · subst h
    simp [lookup_touch_self]
  · simp [lookup_touch_ne _ _ h, h]

theorem readOf_gets {n m : Node} {user key value : Str} {status : KvState}
    (h : n.gets user key = some (status, value, m)) : ReadOf n m user key := by
  cases hr : find2 n.cache.readCache user key with
  | some v =>
    rw [gets_read hr] at h
    cases h
    exact ⟨rfl, fun _ _ => rfl, fun a => by simp [hr]⟩
  | none =>
    cases hu : find2 n.cache.updatesCache user key with
    | some v =>
      rw [gets_updated hr hu] at h
      cases h
      exact ⟨rfl, fun a b => find2_touch _ _ _ _, fun a => by simp [lookup_touch_eq_none, hr]⟩
    | none =>
      rw [gets_loaded hr hu] at h
      obtain ⟨answer, -, ha⟩ := Option.map_eq_some_iff.mp h
      cases ha
      exact ⟨rfl, fun a b => find2_touch _ _ _ _, fun a => by
        simp [loaded, lookup_touch_eq_none, hr]⟩

/-! Writes -/

/-- The node with another sequence number; `max_sequence` follows it. -/
def withSequence (n : Node) (seqNum : Nat) : Node :=
  { n with cache := { n.cache with sequenceId := seqNum }, maxSequence := seqNum }

/-- The node after an accepted write: the record is logged and applied. -/
def wrote (n : Node) (r : Record) : Node :=
  { n with
    fs := Effect.apply n.fs (.append n.logPath r.text)
    cache := applyRecord n.cache r
    maxSequence := r.seqNum }

/-- The next sequence number is the one the cache expects. -/
def InStep (n : Node) : Prop := n.maxSequence = n.cache.sequenceId

def LogOpens (n : Node) : Prop := writable n.fs n.logPath = true

theorem gets_withSequence (n : Node) (seqNum : Nat) (user key : Str) :
    (withSequence n seqNum).gets user key =
      (n.gets user key).map fun r => (r.1, r.2.1, withSequence r.2.2 seqNum) := by
  cases hr : find2 n.cache.readCache user key with
  | some v => rw [gets_read hr, gets_read (n := withSequence n seqNum) hr]; rfl
  | none =>
    cases hu : find2 n.cache.updatesCache user key with
    | some v =>
      rw [gets_updated hr hu, gets_updated (n := withSequence n seqNum) hr hu]; rfl
    | none =>
      rw [gets_loaded hr hu, gets_loaded (n := withSequence n seqNum) hr hu, Option.map_map]
      rfl

theorem logAndPut_next {n : Node} (opens : LogOpens n) (r : Record) :
    (withSequence n r.seqNum).logAndPut r.text r.user r.key r.written =
      (.finished, wrote n r) := by
  have h : writable (withSequence n r.seqNum).fs (withSequence n r.seqNum).logPath = true := opens
  simp only [Node.logAndPut, Node.log, if_pos h]
  rfl

theorem validate_next {n : Node} (inStep : InStep n) :
    n.cache.validateAndUpdateSeqNum (n.maxSequence + 1) =
      (true, { n.cache with sequenceId := n.cache.sequenceId + 1 }) := by
  rw [inStep, validate_eq, if_pos rfl]

/-- The node once a write has taken its sequence number. -/
def bumped (n : Node) : Node := withSequence n (n.cache.sequenceId + 1)

theorem puts_next {n : Node} (inStep : InStep n) (opens : LogOpens n) (user key value : Str) :
    (Node.nextSequence n).puts user key value (n.maxSequence + 1) =
      (.finished, wrote n ⟨n.cache.sequenceId + 1, user, key, some value⟩) := by
  have write := logAndPut_next opens ⟨n.cache.sequenceId + 1, user, key, some value⟩
  have valid := validate_next inStep
  unfold Node.puts
  simp only [Node.nextSequence, valid, if_true]
  rw [inStep] at *
  exact write

theorem dele_next {n : Node} (inStep : InStep n) (opens : LogOpens n) (user key : Str) :
    (Node.nextSequence n).dele user key (n.maxSequence + 1) =
      (.finished, wrote n ⟨n.cache.sequenceId + 1, user, key, none⟩) := by
  have write := logAndPut_next opens ⟨n.cache.sequenceId + 1, user, key, none⟩
  have valid := validate_next inStep
  unfold Node.dele
  simp only [Node.nextSequence, valid, if_true]
  rw [inStep] at *
  exact write

/-- A Cputs reads, and writes when the value read is the one it was given. -/
theorem cputs_next {n : Node} (inStep : InStep n) (opens : LogOpens n)
    (user key prev new : Str) :
    (Node.nextSequence n).cputs user key prev new (n.maxSequence + 1) =
      (n.gets user key).map fun r =>
        if r.1 ≠ .finished then (r.1, bumped r.2.2)
        else if r.2.1 ≠ prev then (.valueError, bumped r.2.2)
        else (.finished, wrote r.2.2 ⟨n.cache.sequenceId + 1, user, key, some new⟩) := by
  have valid := validate_next inStep
  have read := gets_withSequence n (n.cache.sequenceId + 1) user key
  unfold Node.cputs
  simp only [Node.nextSequence, valid, if_true]
  rw [inStep] at *
  refine (congrArg _ read).trans ?_
  rw [Option.map_map]
  cases hg : n.gets user key with
  | none => rfl
  | some r =>
    obtain ⟨status, value, m⟩ := r
    have kept := (readOf_gets hg).rest
    have logOpens : LogOpens m := by rw [kept]; exact opens
    have write := logAndPut_next logOpens ⟨n.cache.sequenceId + 1, user, key, some new⟩
    have sequence : m.cache.sequenceId = n.cache.sequenceId := by rw [kept]
    simp only [Option.map_some, Function.comp_apply, bumped, sequence]
    split
    · rfl
    · split
      · rfl
      · exact congrArg some write

/-! What writes and reads keep -/

theorem logOpens_wrote {n : Node} (opens : LogOpens n) (r : Record) : LogOpens (wrote n r) :=
  writable_append_self r.text opens

theorem hasLog_wrote {n : Node} {sequenceId : Nat} {records : List Record} (opens : LogOpens n)
    (log : HasLog n sequenceId records) (r : Record) :
    HasLog (wrote n r) sequenceId (records ++ [r]) := by
  unfold HasLog at log ⊢
  refine (content_append_self r.text opens).trans ?_
  rw [log]
  simp [logText]

theorem inStep_wrote (n : Node) (r : Record) : InStep (wrote n r) := rfl

theorem inStep_bumped (n : Node) : InStep (bumped n) := rfl

/-- The nodes differ in the entries of one user in the caches at most, and hold the same
updates. -/
structure Alike (n m : Node) (user : Str) : Prop where
  rest : m = { n with cache := { n.cache with
    readCache := m.cache.readCache
    updatesCache := m.cache.updatesCache } }
  updates : ∀ a b, find2 m.cache.updatesCache a b = find2 n.cache.updatesCache a b
  users : ∀ a, a ≠ user →
    (m.cache.updatesCache.lookup a = none ↔ n.cache.updatesCache.lookup a = none)

theorem Alike.refl (n : Node) (user : Str) : Alike n n user :=
  ⟨rfl, fun _ _ => rfl, fun _ _ => .rfl⟩

theorem Alike.sequenceId {n m : Node} {user : Str} (h : Alike n m user) :
    m.cache.sequenceId = n.cache.sequenceId := by rw [h.rest]

theorem Alike.inStep {n m : Node} {user : Str} (h : Alike n m user) (inStep : InStep n) :
    InStep m := by
  rw [h.rest]
  exact inStep

theorem Alike.opens {n m : Node} {user : Str} (h : Alike n m user) (opens : LogOpens n) :
    LogOpens m := by
  rw [h.rest]
  exact opens

theorem Alike.log {n m : Node} {user : Str} {sequenceId : Nat} {records : List Record}
    (h : Alike n m user) (log : HasLog n sequenceId records) : HasLog m sequenceId records := by
  rw [h.rest]
  exact log

theorem ReadOf.alike {n m : Node} {user key : Str} (h : ReadOf n m user key) :
    Alike n m user :=
  ⟨h.rest, h.updates, fun a ne => by rw [h.users]; simp [ne]⟩

/-! A small node -/

def emptyHome (port : Nat) : Tree :=
  [(⟨[], .dir⟩ : Sigma fun _ : Path => Entry), ⟨["home".toList], .dir⟩,
    ⟨["home".toList, "cis5050".toList], .dir⟩, ⟨home port, .dir⟩].toAList

/-- A node with an empty log and the folders of the users. -/
def nodeAt (port : Nat) (users : List Str) : Node :=
  let fs := (emptyHome port).insert (resolve (kLogFp port)) (.file (checkpointHeader 0))
  Node.boot port (users.foldl (fun t user => t.insert (resolve (PREFIX port ++ user)) .dir) fs)

def smallNode (users : List Str) : Node := nodeAt 7000 users

def bob : Str := "bob".toList
def pwd : Str := "pwd".toList

theorem logName_bob : LogName bob := ⟨by decide +kernel, by decide +kernel⟩
theorem logName_pwd : LogName pwd := ⟨by decide +kernel, by decide +kernel⟩

end CacheSteps
