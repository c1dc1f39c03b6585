import PennCloud.Counters

/-!
# The role of a node

Whether a node acts as the primary is decided by two flags. CLUSTER sets the
first, KILL clears it, and KILL and RESTART switch the second; no other command
and no recovery changes either.
-/

namespace Roles

open Text FileTree KvInterface UnorderedMap ChunkFiles KvCache CacheSync KvStore CacheSteps
open Counters (recover initialise)

/-- The port of a node and its flags. -/
def roleOf (n : Node) : Nat × Bool × Bool := (n.port, n.isPrimary, n.killed)

/-- The command names the node at the port first. -/
def Names (port : Nat) (c : KvCommand) : Prop :=
  c.addrs.head?.map (fun addr => (Address.init addr).port) = some port

instance (port : Nat) (c : KvCommand) : Decidable (Names port c) :=
  inferInstanceAs (Decidable (_ = _))

/-- The flags after a command. -/
def roleAfter (n : Node) (c : KvCommand) : Nat × Bool × Bool :=
  match c.com with
  | .cluster => (n.port, n.isPrimary || decide (Names n.port c), n.killed)
  | .kill => (n.port, n.isPrimary && n.killed, true)
  | .restart => (n.port, n.isPrimary, false)
  | _ => roleOf n

section Commands
variable {n m : Node} {env : Surroundings} {c : KvCommand}

theorem role_gets {user key value : Str} {status : KvState}
    (h : n.gets user key = some (status, value, m)) : roleOf m = roleOf n := by
  rw [(readOf_gets h).rest]
  rfl

theorem role_log (n : Node) (entry : Str) : roleOf (n.log entry).2 = roleOf n := by
  rw [Node.log]
  split <;> rfl

theorem role_logAndPut (n : Node) (entry user key value : Str) :
    roleOf (n.logAndPut entry user key value).2 = roleOf n := by
  have logged := role_log n entry
  simp only [Node.logAndPut]
  split
  · exact logged
  · exact logged

theorem role_puts (n : Node) (user key value : Str) (seqNum : Nat) :
    roleOf (n.puts user key value seqNum).2 = roleOf n := by
  simp only [Node.puts]
  split
  · exact role_logAndPut _ _ _ _ _
  · rfl

theorem role_dele (n : Node) (user key : Str) (seqNum : Nat) :
    roleOf (n.dele user key seqNum).2 = roleOf n := by
  simp only [Node.dele]
  split
  · exact role_logAndPut _ _ _ _ _
  · rfl

theorem role_cputs {user key prev new : Str} {seqNum : Nat} {r : KvState × Node}
    (h : n.cputs user key prev new seqNum = some r) : roleOf r.2 = roleOf n := by
  simp only [Node.cputs] at h
  split at h
  · obtain ⟨⟨status, value, p⟩, read, rfl⟩ := Option.map_eq_some_iff.mp h
    have same := role_gets read
    simp only
    split
    · exact same
    · split
      · exact same
      · exact (role_logAndPut _ _ _ _ _).trans same
  · cases h
    rfl

theorem role_getsAll {user : Str} {status : KvState} {kvs : KvMap}
    (h : n.getsAll user = some (status, kvs, m)) : roleOf m = roleOf n := by
  obtain ⟨r, -, h⟩ := Option.bind_eq_some_iff.mp h
  split at h
  · obtain ⟨chunkKvs, -, heq⟩ := Option.map_eq_some_iff.mp h
    cases heq
    rfl
  · cases h
    rfl

theorem role_prepareCput (h : Node.prepareCput n c = some m) : roleOf m = roleOf n := by
  obtain ⟨⟨status, value, p⟩, read, rfl⟩ := Option.map_eq_some_iff.mp h
  have same := role_gets read
  simp only
  split
  · exact same
  · exact same

theorem role_checkpointCopy {it : Iteration Loop} {forwards : List Forward}
    (h : Node.checkpointCopy n it = some (m, forwards)) : roleOf m = roleOf n := by
  obtain ⟨primary, -, h⟩ := Option.bind_eq_some_iff.mp h
  obtain ⟨saved, -, heq⟩ := Option.map_eq_some_iff.mp h
  cases heq
  rfl

/-! Recovery -/

theorem role_replayLoggings {status : KvState} (h : n.replayLoggings = some (status, m)) :
    roleOf m = roleOf n := by
  rw [Node.replayLoggings] at h
  split at h
  · cases h
    rfl
  · obtain ⟨id, -, h⟩ := Option.bind_eq_some_iff.mp h
    split at h
    · cases h
      rfl
    · obtain ⟨r, -, h⟩ := Option.map_eq_some_iff.mp h
      split at h <;> cases h <;> rfl

theorem role_initCacheForPrimary {status : KvState}
    (h : n.initCacheForPrimary = some (status, m)) : roleOf m = roleOf n := by
  rw [Node.initCacheForPrimary] at h
  split at h
  · cases h
    rfl
  · exact role_replayLoggings h

theorem role_receiveEntry {message : FileMessage} {status : KvState}
    (h : Node.receiveEntry n message = some (status, m)) : roleOf m = roleOf n := by
  simp only [Node.receiveEntry] at h
  split at h
  · split at h <;> cases h
    rfl
  · split at h
    · split at h <;> cases h <;> rfl
    · cases h
      rfl

theorem role_performFullSync {status : KvState} {messages : List Str}
    (h : Node.performFullSyncFromPrimary n messages = some (status, m)) :
    roleOf m = roleOf n := by
  induction messages generalizing n with
  | nil =>
    cases h
    rfl
  | cons message rest ih =>
    rw [Node.performFullSyncFromPrimary] at h
    split at h
    · exact role_replayLoggings h
    · split at h
      · cases h
        rfl
      · obtain ⟨header, -, h⟩ := Option.bind_eq_some_iff.mp h
        split at h
        · cases h
          rfl
        · obtain ⟨⟨status', p⟩, received, h⟩ := Option.bind_eq_some_iff.mp h
          have same := role_receiveEntry received
          split at h
          · exact (ih h).trans same
          · cases h
            exact same

theorem role_secondaryRecover {messages replies : List Str} {status : KvState}
    (h : Node.secondaryRecoverFromPrimary n messages = some (status, m, replies)) :
    roleOf m = roleOf n := by
  unfold Node.secondaryRecoverFromPrimary at h
  split at h
  · cases h
    rfl
  · split at h
    · cases h
      rfl
    · obtain ⟨header, -, h⟩ := Option.bind_eq_some_iff.mp h
      split at h
      · cases h
        rfl
      · obtain ⟨full, -, h⟩ := Option.bind_eq_some_iff.mp h
        obtain ⟨⟨status', p⟩, recovered, heq⟩ := Option.map_eq_some_iff.mp h
        cases heq
        split at recovered
        · have same := role_performFullSync recovered
          exact same
        · simp only [Node.overwriteLoggingAndReplay] at recovered
          split at recovered
          · have same := role_replayLoggings recovered
            exact same
          · cases recovered
            rfl

theorem role_recover (h : recover env n = some m) : roleOf m = roleOf n := by
  rw [recover] at h
  split at h
  · obtain ⟨⟨status, p⟩, loaded, h⟩ := Option.bind_eq_some_iff.mp h
    split at h <;> cases h
    exact role_initCacheForPrimary loaded
  · obtain ⟨-, -, h⟩ := Option.bind_eq_some_iff.mp h
    obtain ⟨messages, -, h⟩ := Option.bind_eq_some_iff.mp h
    obtain ⟨⟨status, p, replies⟩, recovered, h⟩ := Option.bind_eq_some_iff.mp h
    split at h <;> cases h
    exact role_secondaryRecover recovered

theorem role_restart (h : Node.restart n env = some m) :
    roleOf m = (n.port, n.isPrimary, false) := role_recover h

theorem role_cluster {addrs : List Str} (com : c.com = .cluster) (same : c.addrs = addrs)
    (h : Node.parseSecondaryFromMaster n addrs = some m) : roleOf m = roleAfter n c := by
  obtain ⟨first, head, rfl⟩ := Option.map_eq_some_iff.mp h
  subst same
  have names : Names n.port c ↔ n.port = first.port := by
    rw [List.head?_map] at head
    obtain ⟨addr, top, rfl⟩ := Option.map_eq_some_iff.mp head
    rw [Names, top, Option.map_some, Option.some.injEq, eq_comm]
  simp only [roleAfter, com, roleOf, names]

theorem role_runCommand {ret ret' : KvRet} {forwards : List Forward}
    (h : runCommand env n c ret = some (m, ret', forwards)) : roleOf m = roleAfter n c := by
  rw [runCommand] at h
  split at h
  · rename_i restarts
    obtain ⟨p, restarted, heq⟩ := Option.map_eq_some_iff.mp h
    cases heq
    simp only [roleAfter, restarts.1]
    exact role_restart restarted
  rename_i other
  split at h
  · rename_i com
    obtain ⟨p, announced, heq⟩ := Option.map_eq_some_iff.mp h
    cases heq
    exact role_cluster com rfl announced
  rename_i noCluster
  split at h
  · rename_i killed
    cases h
    cases com : c.com <;> simp_all [roleAfter, roleOf]
  rename_i alive
  have alive : n.killed = false := by simpa using alive
  cases com : c.com <;> simp only [com] at h <;> simp only [roleAfter, com]
  case puts =>
    cases h
    exact role_puts _ _ _ _ _
  case dele =>
    cases h
    exact role_dele _ _ _ _
  case cput =>
    obtain ⟨p, prepared, h⟩ := Option.bind_eq_some_iff.mp h
    obtain ⟨r, put, heq⟩ := Option.map_eq_some_iff.mp h
    cases heq
    have same := role_prepareCput prepared
    exact (role_cputs put).trans same
  case gets =>
    obtain ⟨⟨status, value, p⟩, read, heq⟩ := Option.map_eq_some_iff.mp h
    cases heq
    exact role_gets read
  case ckpt =>
    obtain ⟨⟨p, copies⟩, saved, heq⟩ := Option.map_eq_some_iff.mp h
    cases heq
    exact role_checkpointCopy saved
  case sync =>
    obtain ⟨r, -, heq⟩ := Option.map_eq_some_iff.mp h
    cases heq
    rfl
  case all =>
    split at h
    · cases h
      rfl
    · obtain ⟨⟨status, kvs, p⟩, read, heq⟩ := Option.map_eq_some_iff.mp h
      cases heq
      exact role_getsAll read
  case kill =>
    cases h
    simp [roleOf, alive]
  case cluster => exact absurd com noCluster
  case restart =>
    cases h
    simp [roleOf, alive]
  case other =>
    cases h
    rfl

/-- What a command does to the flags, whatever else it does. -/
theorem role_handleConnect {t : Turn} (h : handleConnect env n c = some t) :
    roleOf t.node = roleAfter n c := by
  obtain ⟨m, ret, forwards, ran, outcome⟩ := handleConnect_some h
  have after := role_runCommand ran
  have role : roleOf m = roleAfter n c := after
  rcases outcome with ⟨rfl, -⟩ | ⟨copies, copied, -⟩
  · exact role
  · exact (role_checkpointCopy copied).trans role

end Commands

end Roles
