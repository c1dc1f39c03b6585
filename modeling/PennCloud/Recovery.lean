import PennCloud.CrashSafety
import PennCloud.FullSync

/-!
# A secondary that recovers by a full sync

The log that the primary sends first tells the secondary that its own files are
too old. It empties its storage folder, takes in the files of the primary and
replays the log among them. Both nodes then hold the same values, whatever the
primary has been through and whatever the secondary held.
-/

namespace Recovery

open Text FileTree KvInterface UnorderedMap ChunkFiles KvCache CacheSync KvStore LogReplay CacheSteps
  Runs ChunkFormat ChunkFolder NodeDisk StoreView LiveNode ChunkCrash CrashSafety FullSync
open ChunkOverlay (UserName)
open LiveLog (Fresh)

/-- What the primary must have in its storage folder for the secondary to read it back. -/
structure Sendable (n : Node) (listing : List Path) : Prop where
  names : ∀ p ∈ listing, ∀ name ∈ p.drop (home n.port).length, SentName name
  fits : ∀ p ∈ listing, ∀ e ∈ n.fs.lookup p, SizesFit n.port p e

/-- The secondary stands on a disk with the directories above its storage folder. -/
structure Mounted (s : Node) : Prop where
  closed : Closed s.fs
  ready : ∀ r, r <+: home s.port → r ≠ home s.port → s.fs.lookup r = some .dir

/-! The files -/

theorem closed_createDirectories {t : Tree} (closed : Closed t) (p : Path) :
    Closed (createDirectories t p) := by
  unfold createDirectories
  generalize p.inits = paths
  induction paths generalizing t with
  | nil => exact closed
  | cons q paths ih => exact ih (closed_apply closed _)

theorem closed_receiveEntry {n m : Node} {message : FileMessage} {status : KvState}
    (closed : Closed n.fs) (h : Node.receiveEntry n message = some (status, m)) : Closed m.fs := by
  unfold Node.receiveEntry at h
  simp only at h
  split at h
  · split at h
    · cases h
      exact closed_createDirectories closed _
    · cases h
  · split at h
    · split at h
      · cases h
        exact closed_apply (closed_createDirectories closed _) _
      · cases h
        exact closed_createDirectories closed _
    · cases h
      exact closed

theorem closed_fullSync {messages : List Str} {n m : Node} {status : KvState}
    (closed : Closed n.fs)
    (h : Node.performFullSyncFromPrimary n messages = some (status, m)) : Closed m.fs := by
  induction messages generalizing n with
  | nil =>
    cases h
    exact closed
  | cons message rest ih =>
    rw [Node.performFullSyncFromPrimary] at h
    split at h
    · rw [(fromLog_replayLoggings h).1]
      exact closed
    split at h
    · cases h
      exact closed
    obtain ⟨header, -, h⟩ := Option.bind_eq_some_iff.mp h
    cases header with
    | none =>
      cases h
      exact closed
    | some file =>
      obtain ⟨⟨entered, p⟩, received, h⟩ := Option.bind_eq_some_iff.mp h
      have kept := closed_receiveEntry closed received
      split at h
      · exact ih kept h
      · cases h
        exact kept

/-- A copy of a storage folder holds the same folders of users. -/
theorem disk_copied {t u : Tree} {a b : Nat} {S : Folders} (disk : Disk t a S) (closed : Closed u)
    (logged : t.lookup (userPath a logName) ≠ none)
    (same : ∀ q, q ≠ [] → u.lookup (home b ++ q) = t.lookup (home a ++ q)) : Disk u b S := by
  have path : ∀ user, u.lookup (userPath b user) = t.lookup (userPath a user) :=
    fun user => same [user] (by simp)
  refine ⟨closed, ?_, fun user F name has => ?_, fun user name has => ?_, ?_⟩
  · have present : u.lookup (userPath b logName) ≠ none := by
      rw [path]
      exact logged
    have parent := closed _ (by simp [userPath]) present
    rwa [userPath, List.dropLast_concat] at parent
  · have own := disk.folder user F name has
    refine ⟨⟨?_, fun s => ?_⟩, own.readable⟩
    · rw [path]
      exact own.files.dir
    · have below : ∀ port, userPath port user ++ [s.name] = home port ++ [user, s.name] := by
        intro port
        rw [userPath, List.append_assoc]
        rfl
      rw [← own.files.file s, below, below]
      exact same _ (by simp)
  · rw [path]
    exact disk.noFolder user name has
  · rw [path]
    exact disk.log

theorem reset_lookup (s : Node) (p : Path) : (Node.resetLocalStateForFullSync s).fs.lookup p =
    if home s.port <+: p then none else s.fs.lookup p := lookup_removeAll _ _ _

/-- All that is sent of the storage folder arrives, and nothing else changes. -/
theorem receives_folder {n s : Node} {listing : List Path} (closed : Closed n.fs)
    (listed : Listed n listing) (sendable : Sendable n listing) (mounted : Mounted s) :
    ∃ fs, Closed fs ∧ (∀ rest, Node.performFullSyncFromPrimary (Node.resetLocalStateForFullSync s)
        (messages n listing ++ rest) =
          Node.performFullSyncFromPrimary { Node.resetLocalStateForFullSync s with fs := fs } rest) ∧
      (∀ q, q ≠ [] → fs.lookup (home s.port ++ q) = n.fs.lookup (home n.port ++ q)) ∧
      ∀ p, ¬ home s.port <+: p → fs.lookup p = s.fs.lookup p := by
  have outside : ∀ p, ¬ home s.port <+: p →
      (Node.resetLocalStateForFullSync s).fs.lookup p = s.fs.lookup p := by
    intro p apart
    rw [reset_lookup, if_neg apart]
  have start : Received n (Node.resetLocalStateForFullSync s) []
      (Node.resetLocalStateForFullSync s).fs := by
    refine ⟨fun q _ => ?_, .inl ?_, fun _ _ => rfl⟩
    · exact (reset_lookup s _).trans (if_pos (List.prefix_append _ _))
    · exact (reset_lookup s _).trans (if_pos (List.prefix_refl _))
  rw [← List.nil_append listing] at listed
  obtain ⟨fs, final, run⟩ := receive_all closed listed start
    (fun q mem => by
      have own := sendable.names _ mem
      rwa [List.drop_left] at own)
    sendable.fits fun r above other => by
      rw [outside r fun below => other (above.eq_of_length_le below.length_le)]
      exact mounted.ready r above other
  have empty : Closed (Node.resetLocalStateForFullSync s).fs :=
    closed_apply mounted.closed (.remove (home s.port))
  have arrived : Node.performFullSyncFromPrimary (Node.resetLocalStateForFullSync s)
      (messages n listing ++ []) =
        some (.syncError, { Node.resetLocalStateForFullSync s with fs := fs }) := run []
  refine ⟨fs, closed_fullSync empty arrived, run, fun q nonempty => ?_, fun p apart => (final.outside p apart).trans (outside p apart)⟩
  refine (final.entries q nonempty).trans ?_
  by_cases sent : home n.port ++ q ∈ [] ++ listing
  · rw [if_pos sent]
  · have absent := mt (listed.entries q).mpr sent
    rw [not_and, not_not] at absent
    rw [if_neg sent, absent nonempty]

/-! The log -/

/-- The first message of the primary. -/
def logMessage (n : Node) (text : Str) : Str := messageOf n.port n.logPath (.file text)

section Log
variable {n : Node} {listing : List Path} {text : Str}

theorem logPath_eq (n : Node) : n.logPath = home n.port ++ [logName] := resolve_kLogFp n.port

theorem sendLogging (log : content n.fs n.logPath = some text) :
    Node.primarySendLogging n = some (.finished, [logMessage n text]) := by
  have there : n.fs.lookup n.logPath ≠ none := by
    intro gone
    rw [content, gone] at log
    cases log
  rw [Node.primarySendLogging, if_neg there, Node.readFileAndWriteTo, log]
  rfl

theorem sentName_log : SentName logName := by decide +kernel

theorem match_logMessage (fits : SizesFit n.port n.logPath (.file text)) :
    matchHeaderAndExtractContent (logMessage n text) =
      some (some ⟨sentName n.port n.logPath, kFile, text.length, text⟩) := by
  rw [logMessage]
  rw [logPath_eq] at fits ⊢
  refine match_messageOf (fun name mem => ?_) (by simp) fits
  rw [List.mem_singleton.mp mem]
  exact sentName_log

theorem log_listed (listed : Listed n listing) (log : content n.fs n.logPath = some text) :
    n.logPath ∈ listing ∧ n.fs.lookup n.logPath = some (.file text) := by
  have entry : n.fs.lookup n.logPath = some (.file text) := by
    rw [content] at log
    split at log
    · rename_i found
      cases log
      exact found
    · cases log
  refine ⟨?_, entry⟩
  rw [logPath_eq] at entry ⊢
  exact (listed.entries [logName]).mpr ⟨by simp, by simp [entry]⟩

end Log

/-! The replay -/

/-- The nodes have the same sequence number and the same values. -/
structure Agrees (n m : Node) : Prop where
  sequenceId : m.cache.sequenceId = n.cache.sequenceId
  views : ∀ user key, UserName user → view m user key = view n user key

theorem visible_or {a b : Option Str} (update : Option Str) (same : visible a = visible b) :
    visible (update.or a) = visible (update.or b) := by
  cases update with
  | none => exact same
  | some value => rfl

theorem readCache_applyRecords {records : List Record} {c : Cache} (read : c.readCache = ∅) :
    (records.foldl applyRecord c).readCache = ∅ := by
  induction records generalizing c with
  | nil => exact read
  | cons r records ih =>
    refine ih ?_
    have unread : c.readCache.lookup r.user = none := by
      rw [read]
      rfl
    simp only [applyRecord, Cache.putsPair, unread]
    exact read

/-- The log of a primary in which no number is missing, replayed over chunk files with the same
values, gives a node that agrees with the primary. -/
theorem replay_agrees {t b : Node} {S S₁ : Folders} (steady : Steady t S) (whole : LogWhole t)
    (disk : Disk b.fs b.port S₁) (spare : ∀ user F, UserName user → S₁ user = some F → Spare F)
    (log : content b.fs b.logPath = content t.fs t.logPath)
    (chunks : ∀ user key, UserName user →
      visible (stored S₁ user key) = visible (stored S user key)) :
    ∃ r, b.replayLoggings = some (.finished, r) ∧
      r = { b with cache := r.cache, maxSequence := r.cache.sequenceId } ∧ Steady r S₁ ∧
      Agrees t r ∧ r.cache.readCache = ∅ ∧
      ∀ user key, find2 r.cache.updatesCache user key ≠ none →
        find2 t.cache.updatesCache user key ≠ none := by
  obtain ⟨base, rs, logged⟩ := steady.logged
  obtain ⟨bound, complete⟩ := whole
  obtain ⟨count, fits⟩ := complete base rs logged.log logged.named
  have numbered := logged.numbered count
  have hasLog : HasLog b base rs := log.trans logged.log
  obtain ⟨c, hc⟩ : ∃ c, c = rs.foldl applyRecord ⟨base, ∅, ∅⟩ := ⟨_, rfl⟩
  have replayed := (replayLoggings_finished hasLog logged.named _).mpr
    ⟨by omega, numbered, fits, c, hc, rfl⟩
  obtain ⟨steady', updates⟩ :=
    steady_applied disk spare hasLog logged.named logged.names numbered hc
  refine ⟨_, replayed, rfl, steady', ⟨?_, fun user key name => ?_⟩, ?_, fun user key held => ?_⟩
  · have total := sequenceId_applyRecords (c := ⟨base, ∅, ∅⟩) numbered
    rw [← hc] at total
    exact total.trans count
  · rw [view_stored steady'.savable.disk name, view_stored steady.savable.disk name, updates]
    exact (visible_or _ (chunks user key name)).trans (logged.values user key name).symm
  · rw [hc]
    exact readCache_applyRecords rfl
  · rw [updates] at held
    by_contra gone
    refine held (lastWrite_eq_none.mpr fun r hr hit => logged.written r hr ?_)
    rw [hit.1, hit.2]
    exact gone

/-- Two nodes that agree still do after each has made a checkpoint. -/
theorem checkpointed_agree {n m : Node} {S S₁ : Folders} (steady : Steady n S)
    (steady' : Steady m S₁) (signedUp : SignedUp n) (signedUp' : SignedUp m) (agrees : Agrees n m)
    (it it' : Iteration Loop) :
    ∃ n' m', n.checkpoint it = some (.finished, n') ∧ m.checkpoint it' = some (.finished, m') ∧
      Agrees n' m' := by
  obtain ⟨t, S₂, saved, disk, -, -, -, values⟩ := checkpoint_steady steady signedUp it
  obtain ⟨t', S₃, saved', disk', -, -, -, values'⟩ := checkpoint_steady steady' signedUp' it'
  refine ⟨_, _, saved, saved', agrees.sequenceId, fun user key name => ?_⟩
  have before := agrees.views user key name
  rw [view_stored steady'.savable.disk name, view_stored steady.savable.disk name,
    ← values user key name, ← values' user key name] at before
  refine Eq.trans (view_stored disk' name key) (before.trans (Eq.symm ?_))
  exact view_stored disk name key

/-! The log alone -/

theorem needFullSync_eq {s : Node} {base base' : Nat} {rs rs' : List Record}
    (log : HasLog s base rs) (fits : base ≤ INT_MAX) (fits' : base' ≤ INT_MAX) :
    Node.needFullSync s (checkpointHeader base' ++ logText rs') =
      some (decide (base < base')) := by
  have there : s.fs.lookup s.logPath ≠ none := lookup_log log
  have own := extract_checkpointHeader base (logText rs)
  have other := extract_checkpointHeader base' (logText rs')
  rw [if_pos fits] at own
  rw [if_pos fits'] at other
  rw [HasLog] at log
  simp only [Node.needFullSync, if_neg there, log, own, other, Option.bind_some, Option.map_some]

/-- A secondary with the chunk values of the primary takes over the log. -/
theorem log_sync_agrees {t s : Node} {S S₁ : Folders} {listing : List Path} {text : Str}
    (steady : Steady t S) (whole : LogWhole t) (primary : t.isPrimary = true)
    (secondary : s.isPrimary = false) (disk : Disk s.fs s.port S₁)
    (spare : ∀ user F, UserName user → S₁ user = some F → Spare F)
    (chunks : ∀ user key, UserName user → visible (stored S₁ user key) = visible (stored S user key))
    (log : content t.fs t.logPath = some text) (fits : SizesFit t.port t.logPath (.file text))
    (current : Node.needFullSync s text = some false) :
    ∃ r, Node.primarySyncSecondary t listing [kOkResp, kSyncDone] =
        some (.finished, [logMessage t text]) ∧
      Node.secondaryRecoverFromPrimary s [logMessage t text] = some (.finished, r, [kOkResp]) ∧
      Steady r S₁ ∧ Agrees t r ∧ r.cache.readCache = ∅ ∧ r.killed = s.killed ∧
      r.isPrimary = false := by
  obtain ⟨b, hb⟩ : ∃ b, b = { s with fs := Effect.apply s.fs (.write s.logPath text) } := ⟨_, rfl⟩
  have opens : writable s.fs s.logPath = true := disk.logOpens
  have disk' : Disk b.fs b.port S₁ := by
    rw [hb]
    exact disk.logWrite ⟨text, .inl rfl⟩
  have copied : content b.fs b.logPath = content t.fs t.logPath := by
    rw [log, hb]
    exact content_write_self text opens
  obtain ⟨r, replayed, rest, steady', agrees, read, -⟩ :=
    replay_agrees steady whole disk' spare copied chunks
  refine ⟨r, ?_, ?_, steady', agrees, read, ?_, ?_⟩
  · have other : kOkResp ≠ kRequireFullResp := by decide +kernel
    simp only [Node.primarySyncSecondary, primary, Bool.not_true, Bool.false_eq_true, if_false,
      sendLogging log, Option.bind_some, ne_eq, not_true_eq_false, if_neg other, if_true]
  · have taken : Node.overwriteLoggingAndReplay s text = some (.finished, r) := by
      rw [← replayed, hb]
      exact if_pos opens
    simp only [Node.secondaryRecoverFromPrimary, secondary, Bool.false_eq_true, if_false,
      match_logMessage fits, Option.bind_some, current, taken, Option.map_some, decision]
  · rw [rest, hb]
  · rw [rest, hb]
    exact secondary

/-! A full sync -/

section FullSync
variable {t s : Node} {listing : List Path}

/-- The whole of what the primary sends when it is asked for everything. -/
theorem sends_everything {text : Str} (primary : t.isPrimary = true)
    (folder : t.fs.lookup (home t.port) = some .dir) (listed : Listed t listing)
    (log : content t.fs t.logPath = some text) :
    Node.primarySyncSecondary t listing [kRequireFullResp, kSyncDone] =
      some (.finished, logMessage t text :: (messages t listing ++ [kSyncDone])) := by
  have all : Node.primarySendAllContent t listing = some (.finished, messages t listing) := by
    rw [Node.primarySendAllContent, if_neg (by simp [folder]), sendEntries_eq]
    intro p mem
    obtain ⟨q, rfl⟩ := listed.below p mem
    exact ((listed.entries q).mp mem).2
  simp only [Node.primarySyncSecondary, primary, Bool.not_true, Bool.false_eq_true, if_false,
    sendLogging log, Option.bind_some, ne_eq, not_true_eq_false, if_true, all, Option.map_some,
    List.cons_append, List.nil_append]

/-- A secondary with an older checkpoint takes in the storage folder and ends up with the values
of the primary. -/
theorem full_sync_agrees {S : Folders} (steady : Steady t S) (whole : LogWhole t)
    (primary : t.isPrimary = true) (secondary : s.isPrimary = false) (mounted : Mounted s)
    (listed : Listed t listing) (sendable : Sendable t listing) {text : Str}
    (log : content t.fs t.logPath = some text) (older : Node.needFullSync s text = some true) :
    ∃ sent r, Node.primarySyncSecondary t listing [kRequireFullResp, kSyncDone] =
        some (.finished, sent) ∧
      Node.secondaryRecoverFromPrimary s sent = some (.finished, r, [kRequireFullResp]) ∧
      Steady r S ∧ Agrees t r ∧ r.cache.readCache = ∅ ∧ r.killed = s.killed ∧
      r.isPrimary = false ∧
      (∀ user key, find2 r.cache.updatesCache user key ≠ none →
        find2 t.cache.updatesCache user key ≠ none) ∧
      (∀ q, q ≠ [] → r.fs.lookup (home s.port ++ q) = t.fs.lookup (home t.port ++ q)) ∧
      ∀ p, ¬ home s.port <+: p → r.fs.lookup p = s.fs.lookup p := by
  have disk := steady.savable.disk
  obtain ⟨member, entry⟩ := log_listed listed log
  obtain ⟨fs, closed, arrives, copied, outside⟩ :=
    receives_folder disk.closed listed sendable mounted
  obtain ⟨b, hb⟩ : ∃ b, b = { Node.resetLocalStateForFullSync s with fs := fs } := ⟨_, rfl⟩
  have port : b.port = s.port := by rw [hb]; rfl
  have files : b.fs = fs := by rw [hb]
  have copiedLog : content b.fs b.logPath = content t.fs t.logPath := by
    rw [content, content, logPath_eq, logPath_eq, port, files, copied _ (by simp)]
  have logged : t.fs.lookup (userPath t.port logName) ≠ none := by
    rw [userPath, ← logPath_eq, entry]
    simp
  have disk' : Disk b.fs b.port S := by
    rw [files, port]
    exact disk_copied disk closed logged copied
  obtain ⟨r, replayed, rest, steady', agrees, read, held⟩ :=
    replay_agrees steady whole disk' steady.spare copiedLog fun _ _ _ => rfl
  have recovers : Node.secondaryRecoverFromPrimary s
      (logMessage t text :: (messages t listing ++ [kSyncDone])) =
        some (.finished, r, [kRequireFullResp]) := by
    have first := match_logMessage (sendable.fits _ member _ entry)
    have ends : Node.performFullSyncFromPrimary (Node.resetLocalStateForFullSync s)
        (messages t listing ++ [kSyncDone]) = some (.finished, r) := by
      rw [arrives, ← hb, Node.performFullSyncFromPrimary, if_pos rfl, replayed]
    simp only [Node.secondaryRecoverFromPrimary, secondary, Bool.false_eq_true, if_false, first,
      Option.bind_some, older, if_true, ends, Option.map_some, decision]
  refine ⟨_, r, sends_everything primary disk.homeDir listed log, recovers, steady', agrees, read,
    ?_, ?_, held, fun q nonempty => ?_, fun p apart => ?_⟩
  · rw [rest, hb]
    rfl
  · rw [rest, hb]
    exact secondary
  · rw [rest]
    exact (congrArg (AList.lookup _) files).trans (copied q nonempty)
  · rw [rest]
    exact (congrArg (AList.lookup _) files).trans (outside p apart)

end FullSync

theorem signedUp_agreed {n m : Node} {S S₁ : Folders} (steady : Steady n S) (steady' : Steady m S₁)
    (folders : ∀ user, S user ≠ none → S₁ user ≠ none) (signedUp : SignedUp n)
    (held : ∀ user key, find2 m.cache.updatesCache user key ≠ none →
      find2 n.cache.updatesCache user key ≠ none) : SignedUp m := by
  intro user key present
  have there := held user key present
  have name : UserName user := by
    refine steady.savable.users user fun absent => there ?_
    rw [find2, absent]
    rfl
  have own := (hasFolder_iff steady.savable.disk name).mp (signedUp user key there)
  exact (hasFolder_iff steady'.savable.disk name).mpr (folders user own)

/-- Whatever happened to the primary, commands, checkpoints, kills and crashes, as long as its
users have folders and its log misses no number: a full sync gives the secondary the storage
folder, the sequence number and the values of the primary, also once both make a checkpoint. -/
theorem full_sync_restores {n t s : Node} {events : List CrashSafety.Event} {listing : List Path}
    {text : Str} (started : Started n) (fresh : Fresh n) (ran : run step n events = some t)
    (along : Along step Condition n events) (signedUp : SignedUp t) (whole : LogWhole t)
    (primary : t.isPrimary = true) (secondary : s.isPrimary = false) (mounted : Mounted s)
    (listed : Listed t listing) (sendable : Sendable t listing)
    (log : content t.fs t.logPath = some text) (older : Node.needFullSync s text = some true) :
    ∃ sent r, Node.primarySyncSecondary t listing [kRequireFullResp, kSyncDone] =
        some (.finished, sent) ∧
      Node.secondaryRecoverFromPrimary s sent = some (.finished, r, [kRequireFullResp]) ∧
      Agrees t r ∧
      (∀ q, q ≠ [] → r.fs.lookup (home s.port ++ q) = t.fs.lookup (home t.port ++ q)) ∧
      (∀ p, ¬ home s.port <+: p → r.fs.lookup p = s.fs.lookup p) ∧
      ∀ it it', ∃ t' r', t.checkpoint it = some (.finished, t') ∧
        r.checkpoint it' = some (.finished, r') ∧ Agrees t' r' := by
  obtain ⟨S, steady⟩ := steady_run (steady_started started fresh) along ran
  obtain ⟨sent, r, sends, recovers, steady', agrees, -, -, -, held, copied, outside⟩ :=
    full_sync_agrees steady whole primary secondary mounted listed sendable log older
  have signedUp' := signedUp_agreed steady steady' (fun _ has => has) signedUp held
  refine ⟨sent, r, sends, recovers, agrees, copied, outside, fun it it' => ?_⟩
  exact checkpointed_agree steady steady' signedUp signedUp' agrees it it'

theorem mounted_nodeAt : Mounted (nodeAt 7001 []) := by
  refine ⟨by decide +kernel, fun r above => ?_⟩
  have ready : ∀ r ∈ (home 7001).inits, r ≠ home 7001 → (nodeAt 7001 []).fs.lookup r = some .dir := by
    decide +kernel
  exact ready r ((List.mem_inits _ _).mpr above)

/-- The secondary was not there when the primary made its checkpoint. -/
theorem full_sync_rewritten : ∃ t sent r, run step lonePrimary rewritten = some t ∧
    Node.primarySyncSecondary t (below t).reverse [kRequireFullResp, kSyncDone] =
      some (.finished, sent) ∧
    Node.secondaryRecoverFromPrimary (nodeAt 7001 []) sent =
      some (.finished, r, [kRequireFullResp]) ∧ view r bob pwd = some "two".toList := by
  have saved : (step lonePrimary (puts "one")).map (fun t =>
      decide (∀ user ∈ t.cache.updatesCache.keys, HasFolder t user)) = some true := by
    decide +kernel
  have condition : Along step Condition lonePrimary rewritten := by
    refine ⟨client_puts _ _, fun t ht => ⟨signedUp_of_users ?_, fun u _ =>
      ⟨client_puts _ _, fun _ _ => trivial⟩⟩⟩
    rw [ht] at saved
    exact of_decide_eq_true (Option.some.inj saved)
  have outcome : (run step lonePrimary rewritten).map (fun t =>
      decide (∀ user ∈ t.cache.updatesCache.keys, HasFolder t user) &&
      decide (t.cache.sequenceId ≤ INT_MAX) &&
      decide (t.replayLoggings.map (fun r => (r.1, r.2.cache.sequenceId)) =
        some (.finished, t.cache.sequenceId)) &&
      decide (t.isPrimary = true) &&
      decide ((below t).reverse.Pairwise fun p q => ¬ q <+: p) &&
      decide (∀ p ∈ (below t).reverse, ∀ name ∈ p.drop (home t.port).length, SentName name) &&
      decide (∀ p ∈ (below t).reverse, ∀ e ∈ t.fs.lookup p, SizesFit t.port p e) &&
      decide ((content t.fs t.logPath).bind (Node.needFullSync (nodeAt 7001 [])) = some true) &&
      decide (view t bob pwd = some "two".toList)) = some true := by decide +kernel
  obtain ⟨t, ran, holds⟩ := Option.map_eq_some_iff.mp outcome
  simp only [Bool.and_eq_true, decide_eq_true_eq] at holds
  obtain ⟨⟨⟨⟨⟨⟨⟨⟨folders, bound⟩, replays⟩, primary⟩, ordered⟩, names⟩, fits⟩, older⟩, value⟩ := holds
  obtain ⟨⟨status, m⟩, replayed, same⟩ := Option.map_eq_some_iff.mp replays
  obtain ⟨rfl, same⟩ := Prod.mk.inj same
  obtain ⟨text, log, older⟩ := Option.bind_eq_some_iff.mp older
  obtain ⟨sent, r, sends, recovers, agrees, -⟩ := full_sync_restores (s := nodeAt 7001 [])
    started_lonePrimary fresh_lonePrimary ran condition (signedUp_of_users folders)
    (logWhole_of_replayed replayed same bound) primary rfl mounted_nodeAt
    (listed_of_perm (List.reverse_perm _) ordered) ⟨names, fits⟩ log older
  refine ⟨t, sent, r, ran, sends, recovers, ?_⟩
  rw [agrees.views bob pwd userName_bob, value]

end Recovery
