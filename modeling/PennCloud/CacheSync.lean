import PennCloud.KvCache

/-!
# Synchronising a secondary with its primary

The other half of `cache.h`. A conversation between the two nodes is the list
of messages one side reads from the other: `tcp_read_msg` fails at its end. A
function is `none` where the source throws or exits.
-/

namespace CacheSync

open Text Pattern FileTree KvInterface UnorderedMap ChunkFiles KvCache

def kOkResp : Str := "OK".toList
def kRequireFullResp : Str := "FULL".toList
def kSyncDone : Str := "SYNC DONE".toList
def kSyncError : Str := "SYNC ERROR".toList
def kDir : Str := "DIR".toList
def kFile : Str := "FILE".toList

def pathChar (c : Char) : Bool := nameChar c || c = '/'

def kFileTransportHeader : List Item :=
  lit "KvStoreSync".toList ++ blank :: (lit "Filename:".toList ++ blank :: .run 1 pathChar ::
    blank :: (lit "Type:".toList ++ blank :: .run 1 Char.isAlpha :: blank ::
    (lit "size:".toList ++ blank :: .run 1 Char.isDigit :: lit "\r\n".toList)))

def transportHeader (filename type : Str) (size : Nat) : Str :=
  "KvStoreSync Filename: ".toList ++ (filename ++ (" Type: ".toList ++ (type ++
    (" size: ".toList ++ (toDecimal size ++ "\r\n".toList)))))

/-- The name of a path below the storage folder, as it stands after `PREFIX`. -/
def sentName (port : Nat) (p : Path) : Str := ['/'].intercalate (p.drop (home port).length)

/-! The primary -/

/-- `ReadFileAndWriteTo`: the message, or none where the file cannot be read. -/
def Node.readFileAndWriteTo (n : Node) (p : Path) : Option Str :=
  (content n.fs p).map fun text => transportHeader (sentName n.port p) kFile text.length ++ text

/-- `PrimarySendLogging`. Without a log the process exits. -/
def Node.primarySendLogging (n : Node) : Option (KvState × List Str) :=
  if n.fs.lookup n.logPath = none then none
  else match Node.readFileAndWriteTo n n.logPath with
    | some message => some (.finished, [message])
    | none => some (.syncError, [])

/-- The loop of `PrimarySendAllContent` over the entries the iterator lists. -/
def Node.sendEntries (n : Node) : List Path → KvState × List Str
  | [] => (.finished, [])
  | p :: rest =>
    if n.fs.lookup p = some .dir then
      let r := Node.sendEntries n rest
      (r.1, transportHeader (sentName n.port p) kDir 0 :: r.2)
    else match Node.readFileAndWriteTo n p with
      | some message =>
        let r := Node.sendEntries n rest
        (r.1, message :: r.2)
      | none => (.syncError, [])

def Node.primarySendAllContent (n : Node) (listing : List Path) : Option (KvState × List Str) :=
  if n.fs.lookup (home n.port) = none then none else some (Node.sendEntries n listing)

/-- `PrimarySyncSecondary`, given what the secondary writes back. -/
def Node.primarySyncSecondary (n : Node) (listing : List Path) (replies : List Str) :
    Option (KvState × List Str) :=
  if !n.isPrimary then some (.syncError, [])
  else (Node.primarySendLogging n).bind fun logging =>
    if logging.1 ≠ .finished then some logging
    else match replies with
      | [] => some (.syncError, logging.2)
      | first :: later =>
        let final (sent : List Str) : KvState × List Str :=
          match later with
          | [] => (.syncError, sent)
          | second :: _ => (if second = kSyncDone then .finished else .syncError, sent)
        if first = kRequireFullResp then
          (Node.primarySendAllContent n listing).map fun all =>
            if all.1 = .finished then final (logging.2 ++ all.2 ++ [kSyncDone])
            else (all.1, logging.2 ++ all.2 ++ [kSyncError])
        else some (final logging.2)

/-! The secondary -/

structure FileMessage where
  filePath : Str
  type : Str
  size : Nat
  content : Str
  deriving DecidableEq, Repr

/-- `MatchHeaderAndExtractContent`. The size may be too large for `stoi`. -/
def matchHeaderAndExtractContent (filestr : Str) : Option (Option FileMessage) :=
  match search kFileTransportHeader filestr with
  | none => some none
  | some m =>
    match m.captures with
    | [filePath, type, size] =>
      (stoi size).bind fun length =>
        (intPosition (m.position + m.length)).bind fun start =>
          (substr filestr start filestr.length).map fun text =>
            some ⟨filePath, type, length, text⟩
    | _ => none

def Node.needFullSync (n : Node) (loggings : Str) : Option Bool :=
  let lastCheckpointId :=
    if n.fs.lookup n.logPath = none then some (some 0)
    else match content n.fs n.logPath with
      | none => some none
      | some localLoggings => extractCheckpointSequenceIdFromLoggings localLoggings
  lastCheckpointId.bind fun last =>
    match last with
    | none => some true
    | some lastId =>
      (extractCheckpointSequenceIdFromLoggings loggings).map fun primary =>
        match primary with
        | none => true
        | some primaryId => decide (lastId < primaryId)

def Node.resetLocalStateForFullSync (n : Node) : Node :=
  { n with fs := removeAll n.fs (home n.port), cache := Cache.empty, maxSequence := 0 }

/-- `create_directories`, from the root down. -/
def createDirectories (t : Tree) (p : Path) : Tree :=
  p.inits.foldl (fun t q => Effect.apply t (.makeDir q)) t

/-- One file or directory of a full sync. -/
def Node.receiveEntry (n : Node) (message : FileMessage) : Option (KvState × Node) :=
  let path := resolve (PREFIX n.port ++ message.filePath)
  if message.type = kDir then
    let t := createDirectories n.fs path
    if t.lookup path = some .dir then
      some (if n.fs.lookup path = none then .finished else .syncError, { n with fs := t })
    else none
  else if message.type = kFile then
    let t := createDirectories n.fs path.dropLast
    if t.lookup path.dropLast = some .dir then
      let w := overwriteFile t path message.content
      some (if w.1 then .finished else .syncError, { n with fs := w.2 })
    else some (.syncError, { n with fs := t })
  else some (.syncError, n)

/-- `PerformFullSyncFromPrimary`. -/
def Node.performFullSyncFromPrimary (n : Node) : List Str → Option (KvState × Node)
  | [] => some (.syncError, n)
  | message :: rest =>
    if message = kSyncDone then n.replayLoggings
    else if message = kSyncError then some (.syncError, n)
    else (matchHeaderAndExtractContent message).bind fun header =>
      match header with
      | none => some (.syncError, n)
      | some file => (Node.receiveEntry n file).bind fun r =>
        if r.1 = .finished then Node.performFullSyncFromPrimary r.2 rest else some r

def Node.overwriteLoggingAndReplay (n : Node) (loggings : Str) : Option (KvState × Node) :=
  let w := overwriteFile n.fs n.logPath loggings
  if w.1 then Node.replayLoggings { n with fs := w.2 } else some (.syncError, n)

/-- The answer to the primary's log: everything, or the log alone. -/
def decision (full : Bool) : Str := if full then kRequireFullResp else kOkResp

/-- `SecondaryRecoverFromPrimary`: the status, the node and what it wrote back. -/
def Node.secondaryRecoverFromPrimary (n : Node) (messages : List Str) :
    Option (KvState × Node × List Str) :=
  if n.isPrimary then some (.syncError, n, [])
  else match messages with
    | [] => some (.syncError, n, [])
    | first :: rest =>
      (matchHeaderAndExtractContent first).bind fun header =>
        match header with
        | none => some (.syncError, n, [])
        | some file => (Node.needFullSync n file.content).bind fun full =>
          (if full then
              Node.performFullSyncFromPrimary (Node.resetLocalStateForFullSync n) rest
            else Node.overwriteLoggingAndReplay n file.content).map fun r =>
            (r.1, r.2, [decision full])

end CacheSync
