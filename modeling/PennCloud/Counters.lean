import PennCloud.CacheSteps

/-!
# The two sequence counters

`max_sequence` of the server and `sequence_id_` of the cache are advanced and
set on different lines. They agree between any two commands, so the cache never
refuses the number that the server gives it.
-/

namespace Counters

open Text FileTree KvInterface UnorderedMap ChunkFiles KvCache CacheSync KvStore Runs CacheSteps

/-- How a node initialises and how it restarts: the primary from its log, a secondary from the
primary. A failure ends the process. -/
def recover (env : Surroundings) (n : Node) : Option Node :=
  if n.isPrimary then
    n.initCacheForPrimary.bind fun r => if r.1 = .finished then some r.2 else none
  else n.secondary.head?.bind fun _ => env.primary.bind fun messages =>
    (Node.secondaryRecoverFromPrimary n messages).bind fun r =>
      if r.1 = .finished then some r.2.1 else none

/-- The second half of `RunServer`, which waits for a CLUSTER command. -/
def initialise (env : Surroundings) (n : Node) : Option Node :=
  if n.initialized then recover env n else none

inductive Event where
  | initialise (env : Surroundings)
  | command (env : Surroundings) (c : KvCommand)

def step (n : Node) : Event → Option Node
  | .initialise env => initialise env n
  | .command env c => (handleConnect env n c).map Turn.node

/-- The commands that take a sequence number. -/
def Numbered (c : KvCommand) : Prop := c.com = .puts ∨ c.com = .cput ∨ c.com = .dele

/-! Reads and writes of the cache -/

theorem getValue_status {c : Chunk} {t : Tree} {key : Str} {answer : KvState × Str}
    (h : c.getValue t key = some answer) : answer.1 ≠ .seqError := by
  unfold Chunk.getValue at h
  split at h
  · cases h
    simp
  · split at h
    · cases h
      simp
    · obtain ⟨records, -, rfl⟩ := Option.map_eq_some_iff.mp h
      split <;> simp

theorem chunkAnswer_status {t : Tree} {port : Nat} {user key : Str} {answer : KvState × Str}
    (h : chunkAnswer t port user key = some answer) : answer.1 ≠ .seqError := by
  obtain ⟨r, -, hr⟩ := Option.bind_eq_some_iff.mp h
  split at hr
  · exact getValue_status hr
  · cases hr
    simp

theorem gets_status {n m : Node} {user key value : Str} {status : KvState}
    (h : n.gets user key = some (status, value, m)) : status ≠ .seqError := by
  cases hr : find2 n.cache.readCache user key with
  | some v =>
    rw [gets_read hr] at h
    cases h
    simp
  | none =>
    cases hu : find2 n.cache.updatesCache user key with
    | some v =>
      rw [gets_updated hr hu] at h
      cases h
      simp
    | none =>
      rw [gets_loaded hr hu] at h
      obtain ⟨answer, read, ha⟩ := Option.map_eq_some_iff.mp h
      cases ha
      exact chunkAnswer_status read

theorem inStep_gets {n m : Node} {user key value : Str} {status : KvState} (inStep : InStep n)
    (h : n.gets user key = some (status, value, m)) : InStep m :=
  (readOf_gets h).alike.inStep inStep

/-- Whether or not the log can be opened, the write keeps its sequence number. -/
theorem logAndPut_counters {n : Node} (inStep : InStep n) (entry user key value : Str) :
    InStep (n.logAndPut entry user key value).2 ∧
      (n.logAndPut entry user key value).1 ≠ .seqError := by
  unfold Node.logAndPut Node.log
  by_cases opens : writable n.fs n.logPath = true
  · simp only [if_pos opens]
    exact ⟨inStep, by simp⟩
  · simp only [if_neg opens]
    exact ⟨inStep, by simp⟩

theorem puts_counters {n : Node} (inStep : InStep n) (user key value : Str) :
    InStep ((Node.nextSequence n).puts user key value (n.maxSequence + 1)).2 ∧
      ((Node.nextSequence n).puts user key value (n.maxSequence + 1)).1 ≠ .seqError := by
  have valid := validate_next inStep
  unfold Node.puts
  simp only [Node.nextSequence, valid, if_true]
  refine logAndPut_counters ?_ _ _ _ _
  exact congrArg (· + 1) inStep

theorem dele_counters {n : Node} (inStep : InStep n) (user key : Str) :
    InStep ((Node.nextSequence n).dele user key (n.maxSequence + 1)).2 ∧
      ((Node.nextSequence n).dele user key (n.maxSequence + 1)).1 ≠ .seqError := by
  have valid := validate_next inStep
  unfold Node.dele
  simp only [Node.nextSequence, valid, if_true]
  refine logAndPut_counters ?_ _ _ _ _
  exact congrArg (· + 1) inStep

theorem cputs_counters {n : Node} (inStep : InStep n) {user key prev new : Str}
    {r : KvState × Node}
    (h : (Node.nextSequence n).cputs user key prev new (n.maxSequence + 1) = some r) :
    InStep r.2 ∧ r.1 ≠ .seqError := by
  have valid := validate_next inStep
  unfold Node.cputs at h
  simp only [Node.nextSequence, valid, if_true] at h
  obtain ⟨⟨status, value, m⟩, read, rfl⟩ := Option.map_eq_some_iff.mp h
  have inStep' : InStep m := by
    refine inStep_gets ?_ read
    exact congrArg (· + 1) inStep
  have status' := gets_status read
  simp only
  split
  · exact ⟨inStep', status'⟩
  · split
    · exact ⟨inStep', by simp⟩
    · exact logAndPut_counters inStep' _ _ _ _

/-! Recovery -/

/-- A replay that finishes sets one counter from the other. -/
theorem inStep_replay {n m : Node} (h : n.replayLoggings = some (.finished, m)) : InStep m := by
  unfold Node.replayLoggings at h
  split at h
  · cases h
  · obtain ⟨id, -, rest⟩ := Option.bind_eq_some_iff.mp h
    split at rest
    · cases rest
    · obtain ⟨r, -, hr⟩ := Option.map_eq_some_iff.mp rest
      split at hr
      · cases hr
        rfl
      · rename_i failed
        exact absurd (congrArg Prod.fst hr) failed

theorem inStep_initCache {n m : Node} (inStep : InStep n)
    (h : n.initCacheForPrimary = some (.finished, m)) : InStep m := by
  unfold Node.initCacheForPrimary at h
  split at h
  · have counters : _ = m := congrArg Prod.snd (Option.some.inj h)
    rw [← counters]
    exact inStep
  · exact inStep_replay h

theorem inStep_fullSync {n m : Node} {messages : List Str}
    (h : Node.performFullSyncFromPrimary n messages = some (.finished, m)) : InStep m := by
  induction messages generalizing n with
  | nil => cases h
  | cons message rest ih =>
    rw [Node.performFullSyncFromPrimary] at h
    split at h
    · exact inStep_replay h
    · split at h
      · cases h
      · obtain ⟨header, -, received⟩ := Option.bind_eq_some_iff.mp h
        cases header with
        | none => cases received
        | some file =>
          obtain ⟨r, -, next⟩ := Option.bind_eq_some_iff.mp received
          split at next
          · exact ih next
          · rename_i failed
            cases next
            exact absurd rfl failed

theorem inStep_recover {n m : Node} {messages sent : List Str}
    (h : Node.secondaryRecoverFromPrimary n messages = some (.finished, m, sent)) : InStep m := by
  unfold Node.secondaryRecoverFromPrimary at h
  split at h
  · cases h
  · cases messages with
    | nil => cases h
    | cons first rest =>
      obtain ⟨header, -, found⟩ := Option.bind_eq_some_iff.mp h
      cases header with
      | none => cases found
      | some file =>
        obtain ⟨full, -, decided⟩ := Option.bind_eq_some_iff.mp found
        obtain ⟨⟨status, p⟩, ran, hr⟩ := Option.map_eq_some_iff.mp decided
        cases hr
        cases full with
        | true => exact inStep_fullSync ran
        | false =>
          simp only [Bool.false_eq_true, if_false, Node.overwriteLoggingAndReplay] at ran
          split at ran
          · exact inStep_replay ran
          · cases ran

theorem inStep_recovered {env : Surroundings} {n m : Node} (inStep : InStep n)
    (h : recover env n = some m) : InStep m := by
  unfold recover at h
  split at h
  · obtain ⟨⟨status, p⟩, ran, hr⟩ := Option.bind_eq_some_iff.mp h
    split at hr
    · rename_i finished
      cases hr
      cases finished
      exact inStep_initCache inStep ran
    · cases hr
  · obtain ⟨primary, -, rest⟩ := Option.bind_eq_some_iff.mp h
    obtain ⟨messages, -, recovered⟩ := Option.bind_eq_some_iff.mp rest
    obtain ⟨⟨status, p, sent⟩, ran, hr⟩ := Option.bind_eq_some_iff.mp recovered
    split at hr
    · rename_i finished
      cases hr
      cases finished
      exact inStep_recover ran
    · cases hr

/-! Commands -/

theorem restart_eq (n : Node) (env : Surroundings) :
    Node.restart n env = recover env { n with killed := false } := rfl

theorem inStep_prepareCput {n m : Node} {c : KvCommand} (inStep : InStep n)
    (h : Node.prepareCput n c = some m) : InStep m := by
  obtain ⟨⟨status, value, p⟩, read, rfl⟩ := Option.map_eq_some_iff.mp h
  have inStep' := inStep_gets inStep read
  simp only
  split
  · exact inStep'
  · exact inStep'

theorem inStep_getsAll {n m : Node} {user : Str} {kvs : KvMap} {status : KvState}
    (inStep : InStep n) (h : n.getsAll user = some (status, kvs, m)) : InStep m := by
  obtain ⟨r, -, hr⟩ := Option.bind_eq_some_iff.mp h
  split at hr
  · obtain ⟨found, -, same⟩ := Option.map_eq_some_iff.mp hr
    cases same
    exact inStep
  · cases hr
    exact inStep

theorem inStep_checkpointCopy {n m : Node} {it : Iteration Loop} {copies : List Forward}
    (inStep : InStep n) (h : Node.checkpointCopy n it = some (m, copies)) : InStep m := by
  obtain ⟨primary, -, rest⟩ := Option.bind_eq_some_iff.mp h
  obtain ⟨r, -, same⟩ := Option.map_eq_some_iff.mp rest
  have node : _ = m := congrArg Prod.fst same
  rw [← node]
  exact inStep

/-- One command: the counters stay in step, and a write is not refused for its number. -/
theorem runCommand_counters {env : Surroundings} {n m : Node} {c : KvCommand} {ret ret' : KvRet}
    {forwards : List Forward} (inStep : InStep n)
    (h : runCommand env n c ret = some (m, ret', forwards)) :
    InStep m ∧ (Numbered c → ret.status ≠ .seqError → ret'.status ≠ .seqError) := by
  unfold runCommand at h
  split at h
  · rename_i restarts
    obtain ⟨p, restarted, hp⟩ := Option.map_eq_some_iff.mp h
    cases hp
    refine ⟨inStep_recovered ?_ (restart_eq n env ▸ restarted), fun _ ok => ok⟩
    exact inStep
  · split at h
    · obtain ⟨p, parsed, hp⟩ := Option.map_eq_some_iff.mp h
      cases hp
      obtain ⟨first, -, rfl⟩ := Option.map_eq_some_iff.mp parsed
      exact ⟨inStep, fun _ ok => ok⟩
    · split at h
      · cases h
        exact ⟨inStep, fun _ ok => ok⟩
      · cases com : c.com with
        | puts =>
          simp only [com] at h
          cases h
          obtain ⟨inStep', status⟩ := puts_counters inStep c.user c.key c.value1
          exact ⟨inStep', fun _ _ => status⟩
        | dele =>
          simp only [com] at h
          cases h
          obtain ⟨inStep', status⟩ := dele_counters inStep c.user c.key
          exact ⟨inStep', fun _ _ => status⟩
        | cput =>
          simp only [com] at h
          obtain ⟨p, prepared, hp⟩ := Option.bind_eq_some_iff.mp h
          obtain ⟨r, wrote, hr⟩ := Option.map_eq_some_iff.mp hp
          cases hr
          obtain ⟨inStep', status⟩ := cputs_counters (inStep_prepareCput inStep prepared) wrote
          exact ⟨inStep', fun _ _ => status⟩
        | gets =>
          simp only [com] at h
          obtain ⟨r, read, hr⟩ := Option.map_eq_some_iff.mp h
          cases hr
          exact ⟨inStep_gets inStep read, fun _ _ => gets_status read⟩
        | all =>
          have other : ¬ Numbered c := by simp [Numbered, com]
          simp only [com] at h
          split at h
          · cases h
            exact ⟨inStep, fun numbered => absurd numbered other⟩
          · obtain ⟨r, read, hr⟩ := Option.map_eq_some_iff.mp h
            cases hr
            exact ⟨inStep_getsAll inStep read, fun numbered => absurd numbered other⟩
        | ckpt =>
          simp only [com] at h
          obtain ⟨⟨p, copies⟩, copied, hp⟩ := Option.map_eq_some_iff.mp h
          cases hp
          exact ⟨inStep_checkpointCopy inStep copied, fun _ ok => ok⟩
        | sync =>
          have other : ¬ Numbered c := by simp [Numbered, com]
          simp only [com] at h
          obtain ⟨r, -, hr⟩ := Option.map_eq_some_iff.mp h
          cases hr
          exact ⟨inStep, fun numbered => absurd numbered other⟩
        | kill =>
          simp only [com] at h
          cases h
          exact ⟨inStep, fun _ ok => ok⟩
        | restart | cluster | other =>
          simp only [com] at h
          cases h
          exact ⟨inStep, fun _ ok => ok⟩

theorem inStep_step {n m : Node} {e : Event} (inStep : InStep n) (h : step n e = some m) :
    InStep m := by
  cases e with
  | initialise env =>
    have started : initialise env n = some m := h
    unfold initialise at started
    split at started
    · exact inStep_recovered inStep started
    · cases started
  | command env c =>
    obtain ⟨turn, handled, rfl⟩ := Option.map_eq_some_iff.mp h
    obtain ⟨p, ret, forwards, done, node⟩ := handleConnect_some handled
    have counted : InStep { n with lastCheckpointTime := n.lastCheckpointTime + 1 } := inStep
    have answered := (runCommand_counters counted done).1
    rcases node with ⟨same, -⟩ | ⟨copies, copied, -⟩
    · rw [same]
      exact answered
    · exact inStep_checkpointCopy answered copied

/-- A process is started on any files, then initialises and handles commands in any order. The
counters agree whenever it is between two commands, and no write is refused for its number. -/
theorem counters_agree {port : Nat} {fs : Tree} {events : List Event} {n : Node}
    (h : run step (Node.boot port fs) events = some n) :
    n.maxSequence = n.cache.sequenceId ∧ ∀ env c m ret forwards, Numbered c →
      runCommand env { n with lastCheckpointTime := n.lastCheckpointTime + 1 } c
        ⟨.finished, [], []⟩ = some (m, ret, forwards) → ret.status ≠ .seqError := by
  have inStep : InStep n := by
    refine run_invariant (fun s e t now stepped => inStep_step now stepped) ?_ h
    exact rfl
  refine ⟨inStep, fun env c m ret forwards numbered answered => ?_⟩
  have counted : InStep { n with lastCheckpointTime := n.lastCheckpointTime + 1 } := inStep
  exact (runCommand_counters counted answered).2 numbered (by simp)

def env : Surroundings := { it := Iteration.stored Loop }

/-- A primary that is killed after a write, made primary again, and restarted from its log. -/
def restarted : List Event :=
  [.command env { com := .cluster, addrs := ["127.0.0.1:7000".toList] }, .initialise env,
    .command env { com := .puts, usr := some bob, key := pwd, value1 := pwd },
    .command env { com := .kill },
    .command env { com := .cluster, addrs := ["127.0.0.1:7000".toList] },
    .command env { com := .restart },
    .command env { com := .cput, usr := some bob, key := pwd, value1 := pwd, value2 := bob }]

theorem counters_restarted : ∃ n, run step (Node.boot 7000 (smallNode [bob]).fs) restarted = some n ∧
    n.maxSequence = n.cache.sequenceId ∧ n.cache.sequenceId = 2 := by
  have completes : (run step (Node.boot 7000 (smallNode [bob]).fs) restarted).isSome = true := by
    decide +kernel
  obtain ⟨n, h⟩ := Option.isSome_iff_exists.mp completes
  have two : (run step (Node.boot 7000 (smallNode [bob]).fs) restarted).map
      (fun n => n.cache.sequenceId) = some 2 := by decide +kernel
  rw [h] at two
  exact ⟨n, h, (counters_agree h).1, Option.some.inj two⟩

end Counters
