import PennCloud.CacheSync

/-!
# The backend server

`kvstore.cpp` and `cluster_interface.h`: one command taken to completion, and
one turn of the loop that reads commands from connections. Commands for other
nodes are returned with the address they go to.
-/

namespace KvStore

open Text FileTree KvInterface UnorderedMap ChunkFiles KvCache CacheSync

/-- What a command meets outside the node: the iteration order of the maps, the order in
which directories are listed, the answers of a secondary that asked for a sync, and the
messages of the primary to a node that restarts, if it can be reached. -/
structure Surroundings where
  it : Iteration Loop
  listing : List Path := []
  replies : List Str := []
  primary : Option (List Str) := none

abbrev Forward := Address × KvCommand

/-- `forward_to_secondary`: every other node of the cluster gets the command. -/
def Node.forwardToSecondary (n : Node) (command : KvCommand) : List Forward :=
  (n.secondary.filter fun node => node.port ≠ n.port).map fun node => (node, command)

/-- `checkpoint`, which works on a copy of the cache: only the files change. -/
def Node.checkpointCopy (n : Node) (it : Iteration Loop) : Option (Node × List Forward) :=
  n.secondary.head?.bind fun primary =>
    (n.checkpoint it).map fun r =>
      ({ n with fs := r.2.fs },
        if primary.port = n.port then Node.forwardToSecondary n { com := .ckpt } else [])

def Node.parseSecondaryFromMaster (n : Node) (addrs : List Str) : Option Node :=
  let secondary := addrs.map Address.init
  secondary.head?.map fun first =>
    { n with
      secondary := secondary
      isPrimary := n.isPrimary || decide (n.port = first.port)
      initialized := true }

/-- The restart of a killed node. A recovery that fails ends the process. -/
def Node.restart (n : Node) (env : Surroundings) : Option Node :=
  let n := { n with killed := false }
  if n.isPrimary then
    n.initCacheForPrimary.bind fun r => if r.1 = .finished then some r.2 else none
  else n.secondary.head?.bind fun _ => env.primary.bind fun messages =>
    (Node.secondaryRecoverFromPrimary n messages).bind fun r =>
      if r.1 = .finished then some r.2.1 else none

def Node.forwarded (n : Node) (command : KvCommand) : List Forward :=
  if n.isPrimary then Node.forwardToSecondary n command else []

/-- The first half of CPUT: a read whose value is not used, and the folder of a user
that signs up. -/
def Node.prepareCput (n : Node) (command : KvCommand) : Option Node :=
  (n.gets command.user command.key).map fun r =>
    let folder := resolve (PREFIX n.port ++ command.user)
    if command.key = "pwd".toList ∧ n.fs.lookup folder = none ∧ command.value1 = [] then
      { r.2.2 with fs := Effect.apply r.2.2.fs (.makeDir folder) }
    else r.2.2

/-- `++max_sequence`. -/
def Node.nextSequence (n : Node) : Node := { n with maxSequence := n.maxSequence + 1 }

/-- `run_command`: the node, the reply and the commands forwarded. -/
def runCommand (env : Surroundings) (n : Node) (command : KvCommand) (ret : KvRet) :
    Option (Node × KvRet × List Forward) :=
  if command.com = .restart ∧ n.killed then
    (Node.restart n env).map fun n => (n, ret, [])
  else if command.com = .cluster then
    (Node.parseSecondaryFromMaster n command.addrs).map fun n => (n, ret, [])
  else if n.killed then some (n, ret, [])
  else match command.com with
    | .puts =>
      let m := Node.nextSequence n
      let r := m.puts command.user command.key command.value1 m.maxSequence
      some (r.2, { ret with status := r.1 }, Node.forwarded n command)
    | .cput =>
      (Node.prepareCput n command).bind fun p =>
        let m := Node.nextSequence p
        (m.cputs command.user command.key command.value1 command.value2 m.maxSequence).map
          fun r => (r.2, { ret with status := r.1 }, Node.forwarded n command)
    | .gets =>
      (n.gets command.user command.key).map fun r =>
        (r.2.2, { ret with status := r.1, value := r.2.1 }, [])
    | .dele =>
      let m := Node.nextSequence n
      let r := m.dele command.user command.key m.maxSequence
      some (r.2, { ret with status := r.1 }, Node.forwarded n command)
    | .ckpt => (Node.checkpointCopy n env.it).map fun r => (r.1, ret, r.2)
    | .sync =>
      (Node.primarySyncSecondary n env.listing env.replies).map fun r =>
        (n, { ret with status := r.1 }, [])
    | .all =>
      if command.usr = none then some (n, { ret with status := .userError }, [])
      else (n.getsAll command.user).map fun r =>
        (r.2.2,
          { ret with
            status := r.1
            keyValues := if r.1 = .finished then r.2.1.entries.map fun e => (e.1, e.2) else [] },
          [])
    | .kill => some ({ n with killed := true, isPrimary := false }, ret, [])
    | .restart | .cluster | .other => some (n, ret, [])

/-- What one command read by `handle_connect` leads to. -/
structure Turn where
  node : Node
  reply : Option KvRet
  forwards : List Forward

/-- One command read by `handle_connect`, up to its reply, which only a primary sends. -/
def answer (env : Surroundings) (n : Node) (command : KvCommand) : Option Turn :=
  let n := { n with lastCheckpointTime := n.lastCheckpointTime + 1 }
  (runCommand env n command ⟨.finished, [], []⟩).map fun r =>
    ⟨r.1, if r.1.isPrimary then some r.2.1 else none, r.2.2⟩

/-- One command read by `handle_connect`. A primary checkpoints after every twentieth. -/
def handleConnect (env : Surroundings) (n : Node) (command : KvCommand) : Option Turn :=
  (answer env n command).bind fun turn =>
    if turn.node.isPrimary ∧ turn.node.lastCheckpointTime % 20 = 0 then
      (Node.checkpointCopy turn.node env.it).map fun c =>
        { turn with node := c.1, forwards := turn.forwards ++ c.2 }
    else some turn

/-- A turn runs its command, and may save a copy afterwards. -/
theorem handleConnect_some {env : Surroundings} {n : Node} {command : KvCommand} {turn : Turn}
    (h : handleConnect env n command = some turn) :
    ∃ m ret forwards, runCommand env { n with lastCheckpointTime := n.lastCheckpointTime + 1 }
        command ⟨.finished, [], []⟩ = some (m, ret, forwards) ∧
      (turn.node = m ∧ turn.forwards = forwards ∨
        ∃ copies, Node.checkpointCopy m env.it = some (turn.node, copies) ∧
          turn.forwards = forwards ++ copies) := by
  obtain ⟨first, answered, checkpointed⟩ := Option.bind_eq_some_iff.mp h
  obtain ⟨⟨m, ret, forwards⟩, done, node⟩ := Option.map_eq_some_iff.mp answered
  refine ⟨m, ret, forwards, done, ?_⟩
  have node' : first.node = m := by rw [← node]
  have sent : first.forwards = forwards := by rw [← node]
  split at checkpointed
  · obtain ⟨⟨c, copies⟩, copied, rfl⟩ := Option.map_eq_some_iff.mp checkpointed
    rw [node'] at copied
    exact .inr ⟨copies, copied, by rw [← sent]⟩
  · cases checkpointed
    exact .inl ⟨node', sent⟩

end KvStore
