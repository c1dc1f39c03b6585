import PennCloud.ChunkFiles
import PennCloud.Pattern

/-!
# The cache of a backend node

`cache.h`, without the synchronisation between nodes: reads and writes with
their two caches, the log, the checkpoint and the replay of the log. A
function is `none` where the source throws.
-/

namespace KvCache

open Text Pattern FileTree KvInterface UnorderedMap ChunkFiles

abbrev UserMap := UMap Str KvMap

/-- The data members of the class. -/
structure Cache where
  sequenceId : Nat
  readCache : UserMap
  updatesCache : UserMap

/-- A backend process: its cache, its files and the globals of `kv_config.h`. -/
structure Node where
  port : Nat
  fs : Tree
  cache : Cache
  maxSequence : Nat
  isPrimary : Bool
  killed : Bool
  initialized : Bool
  secondary : List Address
  lastCheckpointTime : Nat

/-- The members as the constructor leaves them. -/
def Cache.empty : Cache := ⟨0, ∅, ∅⟩

/-- A process that has just been started on the files it finds. `handle_connect` begins to count
its commands at one. -/
def Node.boot (port : Nat) (fs : Tree) : Node :=
  ⟨port, fs, Cache.empty, 0, false, false, false, [], 1⟩

def Node.logPath (n : Node) : Path := resolve (kLogFp n.port)

/-! Log records -/

def nameChar (c : Char) : Bool :=
  c.isAlphanum || c = '.' || c = '-' || c = '+' || c = '_' || c = '='

def kLoggingHeaderRegex : List Item :=
  lit "KvStoreLogEntry".toList ++ blank :: (lit "Seq".toList ++ blank :: .run 1 Char.isDigit ::
    blank :: (lit "user".toList ++ blank :: .run 1 nameChar :: blank :: (lit "key".toList ++
    blank :: .run 1 nameChar :: blank :: (lit "op".toList ++ blank :: .run 1 Char.isAlpha ::
    blank :: (lit "length".toList ++ blank :: .run 1 Char.isDigit :: lit "\n".toList)))))

def kLoggingSequenceIdHeader : List Item :=
  lit "KvStoreLogEntry".toList ++ blank :: (lit "Checkpointed".toList ++ blank ::
    (lit "at".toList ++ blank :: (lit "SequenceID:".toList ++ blank ::
    .run 1 Char.isDigit :: lit "\n".toList)))

def checkpointHeader (sequenceId : Nat) : Str :=
  "KvStoreLogEntry Checkpointed at SequenceID: ".toList ++ (toDecimal sequenceId ++ "\n".toList)

def formatPuts (user key value : Str) (seqNum : Nat) : Str :=
  "KvStoreLogEntry Seq ".toList ++ (toDecimal seqNum ++ (" user ".toList ++ (user ++
    (" key ".toList ++ (key ++ (" op Puts length ".toList ++ (toDecimal value.length ++
    ("\n".toList ++ (value ++ "\n".toList)))))))))

def formatDele (user key : Str) (seqNum : Nat) : Str :=
  "KvStoreLogEntry Seq ".toList ++ (toDecimal seqNum ++ (" user ".toList ++ (user ++
    (" key ".toList ++ (key ++ (" op Dele length 0".toList ++ "\n".toList))))))

/-- `Log`: the entry is appended unless the file cannot be opened. -/
def Node.log (n : Node) (entry : Str) : KvState × Node :=
  if writable n.fs n.logPath then
    (.finished, { n with fs := Effect.apply n.fs (.append n.logPath entry) })
  else (.logError, n)

/-- `OverwriteFile`. -/
def overwriteFile (t : Tree) (path : Path) (text : Str) : Bool × Tree :=
  (writable t path, Effect.apply t (.write path text))

/-- `ExtractCheckpointSequenceIdFromLoggings`. The number may be too large for `stoi`. -/
def extractCheckpointSequenceIdFromLoggings (loggings : Str) : Option (Option Nat) :=
  match search kLoggingSequenceIdHeader loggings with
  | none => some none
  | some m => (stoi (m.captures.headD [])).map some

/-! Reads -/

/-- `Gets`. A key in neither cache gets an entry in the read cache before its value is
looked for, and keeps it whatever the outcome. -/
def Node.gets (n : Node) (user key : Str) : Option (KvState × Str × Node) :=
  let c := n.cache
  let read := touch c.readCache user ∅
  match find2 c.readCache user key with
  | some value => some (.finished, value, { n with cache := { c with readCache := read } })
  | none =>
    let updates := touch c.updatesCache user ∅
    match find2 c.updatesCache user key with
    | some value =>
      some (.finished, value,
        { n with cache := { c with readCache := read, updatesCache := updates } })
    | none =>
      let loaded (value : Str) : Node :=
        { n with cache :=
          { c with readCache := set2 read user key value, updatesCache := updates } }
      (init n.fs (PREFIX n.port) user).bind fun r =>
        if r.1 = .finished then
          (r.2.getValue n.fs key).map fun v =>
            if v.1 = .finished then (.finished, v.2, loaded v.2) else (v.1, [], loaded [])
        else some (.userError, [], loaded [])

/-- `GetsAll`, with the pairs of the reply in no particular order. -/
def Node.getsAll (n : Node) (user : Str) : Option (KvState × KvMap × Node) :=
  (init n.fs (PREFIX n.port) user).bind fun r =>
    if r.1 = .finished then
      (r.2.getAllKv n.fs).map fun chunkKvs =>
        let updates := touch n.cache.updatesCache user ∅
        (.finished,
          (at' updates user ∅).entries.foldl
            (fun kvs e => if e.2 ≠ [] then kvs.insert e.1 e.2 else kvs.erase e.1) chunkKvs,
          { n with cache := { n.cache with updatesCache := updates } })
    else some (.userError, ∅, n)

/-! Writes -/

/-- The private `Puts`: the pair goes to the updates and leaves the read cache. -/
def Cache.putsPair (c : Cache) (user key value : Str) : Cache :=
  { c with
    updatesCache := set2 c.updatesCache user key value
    readCache := match c.readCache.lookup user with
      | none => c.readCache
      | some userMap =>
        if (userMap.erase key).entries = [] then c.readCache.erase user
        else c.readCache.insert user (userMap.erase key) }

def Cache.validateAndUpdateSeqNum (c : Cache) (newSeq : Nat) : Bool × Cache :=
  if newSeq ≠ c.sequenceId + 1 then (false, c) else (true, { c with sequenceId := newSeq })

/-- What `Puts` and `Dele` do once the sequence number is accepted. -/
def Node.logAndPut (n : Node) (entry user key value : Str) : KvState × Node :=
  let r := n.log entry
  if r.1 ≠ .finished then r
  else (.finished, { r.2 with cache := r.2.cache.putsPair user key value })

def Node.puts (n : Node) (user key value : Str) (seqNum : Nat) : KvState × Node :=
  let v := n.cache.validateAndUpdateSeqNum seqNum
  if v.1 then
    { n with cache := v.2 }.logAndPut (formatPuts user key value seqNum) user key value
  else (.seqError, n)

def Node.dele (n : Node) (user key : Str) (seqNum : Nat) : KvState × Node :=
  let v := n.cache.validateAndUpdateSeqNum seqNum
  if v.1 then { n with cache := v.2 }.logAndPut (formatDele user key seqNum) user key []
  else (.seqError, n)

def Node.cputs (n : Node) (user key prevValue newValue : Str) (seqNum : Nat) :
    Option (KvState × Node) :=
  let v := n.cache.validateAndUpdateSeqNum seqNum
  if v.1 then
    (Node.gets { n with cache := v.2 } user key).map fun r =>
      if r.1 ≠ .finished then (r.1, r.2.2)
      else if r.2.1 ≠ prevValue then (.valueError, r.2.2)
      else r.2.2.logAndPut (formatPuts user key newValue seqNum) user key newValue
  else some (.seqError, n)

/-! Checkpoint and replay -/

/-- The loop of `Checkpoint`. The result of `init` is not looked at. -/
def Node.checkpointUser (n : Node) (it : Iteration Loop) (j : Journal) (e : Str × KvMap) :
    Option Journal :=
  (init j.tree (PREFIX n.port) e.1).bind fun r => r.2.appendKvs it SIZE_LIMIT e.2 j

/-- The effects of `Checkpoint` on the files, in order. -/
def Node.checkpointJournal (n : Node) (it : Iteration Loop) : Option Journal :=
  ((it.pairs .updates n.cache.updatesCache).foldlM (n.checkpointUser it)
    (Journal.start n.fs)).map fun j =>
      (j.perform (.write n.logPath [])).perform
        (.append n.logPath (checkpointHeader n.cache.sequenceId))

def Node.checkpoint (n : Node) (it : Iteration Loop) : Option (KvState × Node) :=
  (n.checkpointJournal it).map fun j =>
    (if writable j.tree n.logPath then .finished else .logError,
      { n with fs := j.tree, cache := { n.cache with updatesCache := ∅, readCache := ∅ } })

/-- A position kept in an `int`, `none` where it turns negative and `substr` throws. -/
def intPosition (position : Nat) : Option Nat :=
  if position ≤ INT_MAX then some position else none

/-- The loop of `ReplayLoggings`, on what is left of the log. Every record takes at least
one character, so the fuel suffices. -/
def replayFrom : Nat → Str → Cache → Option (KvState × Cache)
  | 0, _, c => some (.finished, c)
  | fuel + 1, loggings, c =>
    match search kLoggingHeaderRegex loggings with
    | none => some (.finished, c)
    | some m =>
      match m.captures with
      | [seq, user, key, opType, size] =>
        (stoi seq).bind fun seqNum => (stoi size).bind fun length =>
          let start := intPosition (m.position + m.length)
          let v := c.validateAndUpdateSeqNum seqNum
          if opType = "Puts".toList then
            (start.bind fun p => substr loggings p length).bind fun value =>
              if v.1 then
                (intPosition (m.position + m.length + value.length + 1)).bind fun p =>
                  (substr loggings p loggings.length).bind fun rest =>
                    replayFrom fuel rest (v.2.putsPair user key value)
              else some (.recError, c)
          else if opType = "Dele".toList then
            if v.1 then
              (start.bind fun p => substr loggings p loggings.length).bind fun rest =>
                replayFrom fuel rest (v.2.putsPair user key [])
            else some (.recError, c)
          else
            (start.bind fun p => substr loggings p loggings.length).bind fun rest =>
              replayFrom fuel rest c
      | _ => none

def Node.replayLoggings (n : Node) : Option (KvState × Node) :=
  match content n.fs n.logPath with
  | none => some (.recError, n)
  | some loggings =>
    (extractCheckpointSequenceIdFromLoggings loggings).bind fun id =>
      match id with
      | none => some (.recError, n)
      | some sequenceId =>
        (replayFrom (loggings.length + 1) loggings ⟨sequenceId, ∅, ∅⟩).map fun r =>
          if r.1 = .finished then
            (.finished, { n with cache := r.2, maxSequence := r.2.sequenceId })
          else (r.1, { n with cache := r.2 })

def Node.initCacheForPrimary (n : Node) : Option (KvState × Node) :=
  if n.fs.lookup n.logPath = none then
    let w := overwriteFile n.fs n.logPath (checkpointHeader n.cache.sequenceId)
    some (if w.1 then .finished else .syncError, { n with fs := w.2 })
  else n.replayLoggings

end KvCache
