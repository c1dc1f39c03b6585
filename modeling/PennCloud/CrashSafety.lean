import PennCloud.ChunkCrash
import PennCloud.LiveLog
import PennCloud.LiveNode

/-!
# A process that dies during a checkpoint

A checkpoint performs its file effects one after the other, and the process may
die between any two of them. The restarted node replays the log over whatever
the chunk files hold by then. Values are lost where a chunk was rewritten but
its delete list is still there, and where the log was truncated but has no
header yet.
-/

namespace CrashSafety

open Text FileTree KvInterface UnorderedMap ChunkFiles KvCache KvStore LogReplay CacheSteps Runs
  ChunkFormat ChunkFolder NodeDisk StoreView LiveNode ChunkCrash
open ChunkOverlay (UserName Settled Keeps overlaid)
open LiveLog (Fresh fresh_smallNode)

/-- Every user with updates has a directory. -/
def SignedUp (n : Node) : Prop :=
  ∀ user key, find2 n.cache.updatesCache user key ≠ none → HasFolder n user

/-- The names of a write can be read back from the log, a checkpoint finds the directories of
the users, and a node that restarts is the primary, which replays its own log. -/
def Client (n : Node) (c : KvCommand) : Prop :=
  match c.com with
  | .gets => UserName c.user
  | .puts | .cput | .dele => (UserName c.user ∧ LogName c.user) ∧ LogName c.key
  | .all => c.usr = none ∨ UserName c.user
  | .ckpt => n.killed = false → SignedUp n
  | .restart => n.killed = true → n.isPrimary = true
  | .cluster | .kill | .sync | .other => True

/-- What happens to a node: a command, a checkpoint, or the death of the process after the first
effects of a checkpoint. -/
inductive Event where
  | command (env : Surroundings) (c : KvCommand)
  | save (it : Iteration Loop)
  | crash (it : Iteration Loop) (done : Nat)

/-- The first effects of a checkpoint. -/
def effectsUpTo (n : Node) (it : Iteration Loop) (k : Nat) : Option (List Effect) :=
  (n.checkpointJournal it).map fun j => j.effects.take k

/-- The process is started again on the files, and gets the same cluster list. -/
def restarted (n : Node) (t : Tree) : Option (KvState × Node) :=
  Node.initCacheForPrimary { Node.boot n.port t with
    isPrimary := n.isPrimary
    secondary := n.secondary
    initialized := n.initialized }

def step (n : Node) : Event → Option Node
  | .command env c => (answer env n c).map Turn.node
  | .save it => (Node.checkpointCopy n it).map Prod.fst
  | .crash it k => (effectsUpTo n it k).bind fun done =>
    (restarted n (applyAll n.fs done)).bind fun r => if r.1 = .finished then some r.2 else none

/-- No number is missing in the log, and its numbers and positions fit in an `int`. -/
def LogWhole (n : Node) : Prop :=
  n.cache.sequenceId ≤ INT_MAX ∧ ∀ base rs, HasLog n base rs → (∀ r ∈ rs, r.Named) →
    base + rs.length = n.cache.sequenceId ∧ Fits (checkpointHeader base).length rs

/-- The file of a user's folder. -/
def file (n : Node) (user : Str) (s : Slot) : Path := userPath n.port user ++ [s.name]

theorem logPath_ne_file (n : Node) (user : Str) (s : Slot) : n.logPath ≠ file n user s := by
  intro same
  rw [Node.logPath, ← userPath_log] at same
  have length := congrArg List.length same
  simp [file, userPath] at length

/-- The effects do not end between the truncation of the log and its new header, nor, for any
user, between the rewriting of a chunk and the removal of the delete list. A delete list that is
left behind has only keys that are in the chunk files. -/
structure Untorn (n : Node) (done : List Effect) : Prop where
  log : .write n.logPath [] ∈ done →
    .append n.logPath (checkpointHeader n.cache.sequenceId) ∈ done
  folder : ∀ user, .remove (file n user .deletes) ∈ done ∨
    (∀ i text, .write (file n user (.chunk i)) text ∉ done) ∧
      ∀ text, .append (file n user .deletes) text ∈ done →
        ∀ key, find2 n.cache.updatesCache user key = some [] → chunkValue n user key ≠ none

structure Recoverable (n : Node) (it : Iteration Loop) (k : Nat) : Prop where
  signedUp : SignedUp n
  logWhole : LogWhole n
  untorn : ∀ done, effectsUpTo n it k = some done → Untorn n done

def Condition (n : Node) : Event → Prop
  | .command _ c => Client n c
  | .save _ => SignedUp n
  | .crash it k => Recoverable n it k

/-- After the crash the node restarts with every value, and a complete checkpoint keeps them. -/
def Survives (n : Node) (it : Iteration Loop) (k : Nat) : Prop :=
  ∃ done m, effectsUpTo n it k = some done ∧
    restarted n (applyAll n.fs done) = some (.finished, m) ∧
    (∀ user key, UserName user → view m user key = view n user key) ∧
    ∀ it', ∃ m', m.checkpoint it' = some (.finished, m') ∧
      ∀ user key, UserName user → view m' user key = view n user key

/-! Commands -/

/-- Nothing was written: what may have changed is the read cache, empty entries of the updates,
and a folder of a user who signed up. -/
structure Calm (n p : Node) : Prop where
  rest : p = { n with
    fs := p.fs
    cache := { n.cache with
      readCache := p.cache.readCache
      updatesCache := p.cache.updatesCache }
    lastCheckpointTime := p.lastCheckpointTime
    isPrimary := p.isPrimary
    killed := p.killed
    initialized := p.initialized
    secondary := p.secondary }
  files : p.fs = n.fs ∨ ∃ user, n.fs.lookup (userPath n.port user) = none ∧
    p.fs = Effect.apply n.fs (.makeDir (userPath n.port user))
  updates : ∀ user key, find2 p.cache.updatesCache user key = find2 n.cache.updatesCache user key
  users : ∀ user, p.cache.updatesCache.lookup user ≠ none →
    n.cache.updatesCache.lookup user ≠ none ∨ UserName user

/-- What a command does to a live node, but for CKPT and CLUSTER. -/
inductive Took (n : Node) : Node → Prop where
  | wrote {p : Node} {r : Record} (calm : Calm n p) (next : r.seqNum = n.cache.sequenceId + 1)
      (name : UserName r.user) (named : r.Named) : Took n (wrote p r)
  | bumped {p : Node} (calm : Calm n p) : Took n (bumped p)
  | calm {p : Node} (calm : Calm n p) : Took n p

theorem calm_readOf {n m : Node} {user key : Str} (read : ReadOf n m user key)
    (name : UserName user) : Calm n m := by
  refine ⟨?_, .inl (by rw [read.rest]), read.updates, fun a present => ?_⟩
  · rw [read.rest]
  · by_cases new : a = user
    · exact .inr (new ▸ name)
    · exact .inl fun absent => present ((read.users a).mpr ⟨absent, fun h => new h.1⟩)

theorem Calm.trans {n m p : Node} (first : Calm n m) (second : Calm m p)
    (files : m.fs = n.fs ∨ p.fs = m.fs) : Calm n p := by
  have port : m.port = n.port := by rw [first.rest]
  refine ⟨?_, ?_, fun user key => ?_, fun user present => ?_⟩
  · rw [second.rest, first.rest]
  · rcases files with same | same
    · have files := second.files
      rwa [port, same] at files
    · rw [same]
      exact first.files
  · rw [second.updates, first.updates]
  · rcases second.users user present with old | name
    · exact first.users user old
    · exact .inr name

section Commands
variable {n m : Node} {c : KvCommand}

theorem prepareCput_calm (name : UserName c.user) (h : Node.prepareCput n c = some m) :
    Calm n m := by
  obtain ⟨⟨status, value, p⟩, answer, rfl⟩ := Option.map_eq_some_iff.mp h
  have calm := calm_readOf (readOf_gets answer) name
  have fs : p.fs = n.fs := by rw [(readOf_gets answer).rest]
  by_cases signsUp : c.key = "pwd".toList ∧
      n.fs.lookup (resolve (PREFIX n.port ++ c.user)) = none ∧ c.value1 = []
  · have folder : resolve (PREFIX n.port ++ c.user) = userPath n.port c.user :=
      resolve_PREFIX n.port name.plain
    rw [if_pos signsUp]
    refine ⟨?_, .inr ⟨c.user, ?_, ?_⟩, calm.updates, calm.users⟩
    · rw [calm.rest]
    · rw [← folder]
      exact signsUp.2.1
    · rw [← folder, ← fs]
  · rw [if_neg signsUp]
    exact calm

theorem calm_cluster {addrs : List Str} (h : Node.parseSecondaryFromMaster n addrs = some m) :
    Calm n m := by
  obtain ⟨first, -, rfl⟩ := Option.map_eq_some_iff.mp h
  exact ⟨rfl, .inl rfl, fun _ _ => rfl, fun _ present => .inl present⟩

theorem calm_counted (n : Node) :
    Calm n { n with lastCheckpointTime := n.lastCheckpointTime + 1 } :=
  ⟨rfl, .inl rfl, fun _ _ => rfl, fun _ present => .inl present⟩

theorem calm_getsAll {status : KvState} {kvs : KvMap} {user : Str} (name : UserName user)
    (h : n.getsAll user = some (status, kvs, m)) : Calm n m := by
  obtain ⟨r, -, h⟩ := Option.bind_eq_some_iff.mp h
  split at h
  · obtain ⟨chunkKvs, -, h⟩ := Option.map_eq_some_iff.mp h
    cases h
    refine ⟨rfl, .inl rfl, fun a b => find2_touch _ _ _ _, fun a present => ?_⟩
    by_cases new : a = user
    · exact .inr (new ▸ name)
    · exact .inl fun absent => present (lookup_touch_eq_none.mpr ⟨absent, new⟩)
  · cases h
    exact ⟨rfl, .inl rfl, fun _ _ => rfl, fun _ present => .inl present⟩

/-- The disk after nothing was written: a new folder is empty. -/
theorem Calm.disk {p : Node} {S : Folders} (calm : Calm n p) (disk : Disk n.fs n.port S)
    (logged : n.fs.lookup n.logPath ≠ none) :
    ∃ S', Disk p.fs p.port S' ∧ p.fs.lookup p.logPath = n.fs.lookup n.logPath ∧
      (∀ a b, UserName a → stored S' a b = stored S a b) ∧
      ∀ a F, S' a = some F → S a = some F ∨ F = Folder.empty := by
  have port : p.port = n.port := by rw [calm.rest]
  have logPath : p.logPath = n.logPath := congrArg (fun port => resolve (kLogFp port)) port
  rw [port, logPath]
  rcases calm.files with same | ⟨user, absent, made⟩
  · rw [same]
    exact ⟨S, disk, rfl, fun _ _ _ => rfl, fun _ _ => .inl⟩
  · obtain ⟨disk', log, same⟩ := disk_signUp disk logged absent
    rw [made]
    refine ⟨_, disk', log, same, fun a F has => ?_⟩
    by_cases new : a = user
    · subst new
      rw [Function.update_self] at has
      exact .inr (Option.some.inj has).symm
    · rw [Function.update_of_ne new] at has
      exact .inl has

theorem took_of_runCommand {S : Folders} (disk : Disk n.fs n.port S)
    (logged : n.fs.lookup n.logPath ≠ none) (inStep : InStep n) (alive : n.killed = false)
    (client : Client n c) (other : c.com ≠ .ckpt ∧ c.com ≠ .cluster) {env : Surroundings} {ret ret' : KvRet}
    {forwards : List Forward} (h : runCommand env n c ret = some (m, ret', forwards)) :
    Took n m := by
  have refl : Calm n n := ⟨rfl, .inl rfl, fun _ _ => rfl, fun _ present => .inl present⟩
  unfold runCommand at h
  cases com : c.com with
  | puts =>
    simp only [Client, com] at client
    simp only [com, alive, reduceCtorEq, false_and, if_false, Bool.false_eq_true] at h
    have next := puts_next inStep disk.logOpens c.user c.key c.value1
    have same : m = ((Node.nextSequence n).puts c.user c.key c.value1 (n.maxSequence + 1)).2 :=
      (congrArg Prod.fst (Option.some.inj h)).symm
    rw [same, next]
    exact .wrote refl rfl client.1.1 ⟨client.1.2, client.2⟩
  | dele =>
    simp only [Client, com] at client
    simp only [com, alive, reduceCtorEq, false_and, if_false, Bool.false_eq_true] at h
    have next := dele_next inStep disk.logOpens c.user c.key
    have same : m = ((Node.nextSequence n).dele c.user c.key (n.maxSequence + 1)).2 :=
      (congrArg Prod.fst (Option.some.inj h)).symm
    rw [same, next]
    exact .wrote refl rfl client.1.1 ⟨client.1.2, client.2⟩
  | cput =>
    simp only [Client, com] at client
    simp only [com, alive, reduceCtorEq, false_and, if_false, Bool.false_eq_true] at h
    obtain ⟨p, prepared, h⟩ := Option.bind_eq_some_iff.mp h
    have calm := prepareCput_calm client.1.1 prepared
    obtain ⟨S', disk', -⟩ := calm.disk disk logged
    have inStep' : InStep p := by rw [calm.rest]; exact inStep
    have next := cputs_next inStep' disk'.logOpens c.user c.key c.value1 c.value2
    obtain ⟨⟨status, q⟩, answered, heq⟩ := Option.map_eq_some_iff.mp h
    have answered : ((Node.nextSequence p).cputs c.user c.key c.value1 c.value2
      (p.maxSequence + 1)) = some (status, q) := answered
    rw [next] at answered
    cases heq
    obtain ⟨⟨status', value, r⟩, read, heq⟩ := Option.map_eq_some_iff.mp answered
    have readOf := readOf_gets read
    have calm' : Calm n r := calm.trans (calm_readOf readOf client.1.1)
      (.inr (by rw [readOf.rest]))
    split at heq
    · cases heq
      exact .bumped calm'
    · split at heq
      · cases heq
        exact .bumped calm'
      · cases heq
        refine .wrote calm' ?_ client.1.1 ⟨client.1.2, client.2⟩
        rw [calm.rest]
  | gets =>
    simp only [Client, com] at client
    simp only [com, alive, reduceCtorEq, false_and, if_false, Bool.false_eq_true] at h
    obtain ⟨⟨status, value, p⟩, read, heq⟩ := Option.map_eq_some_iff.mp h
    cases heq
    exact .calm (calm_readOf (readOf_gets read) client)
  | all =>
    simp only [Client, com] at client
    simp only [com, alive, reduceCtorEq, false_and, if_false, Bool.false_eq_true] at h
    split at h
    · cases h
      exact .calm refl
    · rename_i named
      obtain ⟨⟨status, kvs, p⟩, read, heq⟩ := Option.map_eq_some_iff.mp h
      cases heq
      exact .calm (calm_getsAll (client.resolve_left named) read)
  | ckpt => exact absurd com other.1
  | cluster => exact absurd com other.2
  | sync =>
    simp only [com, alive, reduceCtorEq, false_and, if_false, Bool.false_eq_true] at h
    obtain ⟨r, -, heq⟩ := Option.map_eq_some_iff.mp h
    cases heq
    exact .calm refl
  | kill =>
    simp only [com, alive, reduceCtorEq, false_and, if_false, Bool.false_eq_true] at h
    cases h
    exact .calm ⟨rfl, .inl rfl, fun _ _ => rfl, fun _ present => .inl present⟩
  | restart | other =>
    simp only [com, alive, reduceCtorEq, and_false, if_false, Bool.false_eq_true] at h
    cases h
    exact .calm refl

end Commands

/-! Between two events -/

/-- A value as it counts: the empty value is none. -/
def visible (o : Option Str) : Option Str := o.filter (· ≠ [])

/-- The log holds these records, and the values are those of the log over the chunk files. -/
structure Logged (n : Node) (S : Folders) (base : Nat) (rs : List Record) : Prop where
  log : HasLog n base rs
  named : ∀ r ∈ rs, r.Named
  names : ∀ r ∈ rs, UserName r.user
  /-- A rejected write takes a number that no record has. -/
  count : base + rs.length ≤ n.cache.sequenceId
  numbered : base + rs.length = n.cache.sequenceId → Numbered base rs
  written : ∀ r ∈ rs, find2 n.cache.updatesCache r.user r.key ≠ none
  values : ∀ user key, UserName user →
    visible ((find2 n.cache.updatesCache user key).or (stored S user key)) =
      visible ((lastWrite rs user key).or (stored S user key))

/-- What holds of a node between two events. -/
structure Steady (n : Node) (S : Folders) : Prop where
  savable : Savable n S
  spare : ∀ user F, UserName user → S user = some F → Spare F
  inStep : InStep n
  logged : ∃ base rs, Logged n S base rs

theorem numbered_snoc {base : Nat} {rs : List Record} {r : Record} (numbered : Numbered base rs)
    (next : r.seqNum = base + rs.length + 1) : Numbered base (rs ++ [r]) := by
  induction rs generalizing base with
  | nil => exact ⟨next, trivial⟩
  | cons q rs ih =>
    refine ⟨numbered.1, ih numbered.2 ?_⟩
    rw [next, numbered.1, List.length_cons]
    omega

section Steady
variable {n m : Node} {S : Folders}

theorem view_stored (disk : Disk n.fs n.port S) {user : Str} (name : UserName user) (key : Str) :
    view n user key =
      visible ((find2 n.cache.updatesCache user key).or (stored S user key)) := by
  rw [view, chunkValue_disk disk name]
  rfl

theorem lookup_log {base : Nat} {rs : List Record} (log : HasLog n base rs) :
    n.fs.lookup n.logPath ≠ none := by
  intro gone
  rw [HasLog, content, gone] at log
  cases log

theorem steady_calm (steady : Steady n S) (calm : Calm n m) : ∃ S', Steady m S' := by
  obtain ⟨base, rs, logged⟩ := steady.logged
  obtain ⟨S', disk, log, same, folders⟩ := calm.disk steady.savable.disk (lookup_log logged.log)
  have sequence : m.cache.sequenceId = n.cache.sequenceId := by rw [calm.rest]
  refine ⟨S', ⟨disk, fun user present => ?_, fun user key present => ?_⟩, fun user F name has => ?_,
    ?_, base, rs, ?_, logged.named, logged.names, ?_, ?_, fun r hr => ?_,
    fun user key name => ?_⟩
  · exact (calm.users user present).elim (steady.savable.users user) id
  · rw [calm.updates] at present
    exact steady.savable.keys user key present
  · rcases folders user F has with old | rfl
    · exact steady.spare user F name old
    · exact spare_settled ⟨rfl, fun key placed => absurd rfl placed⟩
  · have inStep := steady.inStep
    rw [calm.rest]
    exact inStep
  · rw [HasLog, content, log]
    exact logged.log
  · rw [sequence]
    exact logged.count
  · rw [sequence]
    exact logged.numbered
  · rw [calm.updates]
    exact logged.written r hr
  · rw [calm.updates, same user key name]
    exact logged.values user key name

theorem steady_bumped (steady : Steady n S) : Steady (bumped n) S := by
  obtain ⟨base, rs, logged⟩ := steady.logged
  have count := logged.count
  refine ⟨⟨steady.savable.disk, steady.savable.users, steady.savable.keys⟩, steady.spare, rfl,
    base, rs, logged.log, logged.named, logged.names, Nat.le_succ_of_le count,
    fun same => ?_, logged.written, logged.values⟩
  have next : (bumped n).cache.sequenceId = n.cache.sequenceId + 1 := rfl
  omega

theorem steady_wrote (steady : Steady n S) {r : Record} (next : r.seqNum = n.cache.sequenceId + 1)
    (name : UserName r.user) (named : r.Named) : Steady (wrote n r) S := by
  obtain ⟨base, rs, logged⟩ := steady.logged
  have updates : ∀ a b, find2 (wrote n r).cache.updatesCache a b = _ :=
    fun a b => find2_applyRecord n.cache r a b
  have sequence : (wrote n r).cache.sequenceId = n.cache.sequenceId + 1 := next
  have count := logged.count
  refine ⟨⟨steady.savable.disk.logWrite ⟨r.text, .inr rfl⟩, fun a present => ?_,
    fun a b present => ?_⟩, steady.spare, rfl, base, rs ++ [r],
    hasLog_wrote steady.savable.disk.logOpens logged.log r, fun q hq => ?_, fun q hq => ?_, ?_,
    fun same => ?_, fun q hq => ?_, fun a b ha => ?_⟩
  · by_cases same : r.user = a
    · exact same ▸ name
    · refine steady.savable.users a fun absent => present ?_
      exact (lookup_applyRecord n.cache r a).mpr ⟨absent, same⟩
  · rw [updates] at present
    split at present
    · rename_i pair
      rw [← pair.2]
      exact oneLine_of_logName named.key
    · exact steady.savable.keys a b present
  · rcases List.mem_append.mp hq with old | new
    · exact logged.named q old
    · rw [List.mem_singleton.mp new]
      exact named
  · rcases List.mem_append.mp hq with old | new
    · exact logged.names q old
    · rw [List.mem_singleton.mp new]
      exact name
  · rw [sequence, List.length_append, List.length_singleton]
    omega
  · rw [sequence, List.length_append, List.length_singleton] at same
    exact numbered_snoc (logged.numbered (by omega)) (by omega)
  · rw [updates]
    split
    · simp
    · rcases List.mem_append.mp hq with old | new
      · exact logged.written q old
      · rename_i other
        rw [List.mem_singleton.mp new] at other
        exact absurd ⟨rfl, rfl⟩ other
  · rw [updates, lastWrite_snoc]
    split
    · rfl
    · exact logged.values a b ha

/-! Checkpoints -/

theorem visible_overlaid (update value : Option Str) :
    visible (overlaid update value) = visible (update.or value) := by
  cases update with
  | none => rfl
  | some v =>
    by_cases deleted : v = []
    · simp [overlaid, visible, deleted, Option.filter]
    · simp [overlaid, visible, deleted]

/-- What a loop over the users leaves of each folder, complete or not. -/
theorem between_folders {R : Str → KvMap → Folder → Folder → Prop} {it : Iteration Loop}
    {u : UserMap} {S' : Folders} (changed : NodeDisk.Changed R (it.pairs .updates u) S S')
    (spare : ∀ user F, UserName user → S user = some F → Spare F)
    (each : ∀ user mp F G, UserName user → (user, mp) ∈ it.pairs .updates u → S user = some F →
      R user mp F G → Between mp F G) {user : Str} {F : Folder} (name : UserName user)
    (has : S user = some F) : ∃ G, S' user = some G ∧ Between (at' u user ∅) F G := by
  cases hu : u.lookup user with
  | none =>
    have absent : user ∉ (it.pairs .updates u).map Prod.fst := by
      intro mem
      obtain ⟨⟨a, mp⟩, hmem, rfl⟩ := List.mem_map.mp mem
      rw [(it.mem_pairs _ _).mp hmem] at hu
      cases hu
    exact ⟨F, (changed.absent user absent).trans has, between_refl (spare user F name has) _⟩
  | some mp =>
    have mem := (it.mem_pairs .updates u).mpr hu
    obtain ⟨G, hG, step⟩ := changed.folder user mp F mem has
    have whole : at' u user ∅ = mp := by rw [at', hu]; rfl
    rw [whole]
    exact ⟨G, hG, each user mp F G name mem has step⟩

theorem spare_between {R : Str → KvMap → Folder → Folder → Prop} {it : Iteration Loop}
    {u : UserMap} {S' : Folders} (changed : NodeDisk.Changed R (it.pairs .updates u) S S')
    (spare : ∀ user F, UserName user → S user = some F → Spare F)
    (each : ∀ user mp F G, UserName user → (user, mp) ∈ it.pairs .updates u → S user = some F →
      R user mp F G → Between mp F G) (user : Str) (G : Folder) (name : UserName user)
    (hG : S' user = some G) : Spare G := by
  obtain ⟨F, has⟩ := Option.ne_none_iff_exists'.mp fun gone => by
    rw [(changed.folders user).mp gone] at hG
    cases hG
  obtain ⟨G', hG', between⟩ := between_folders changed spare each name has
  rw [hG] at hG'
  cases hG'
  exact between.spare

/-- A complete checkpoint of a steady node, where every user with updates has a directory. -/
theorem checkpoint_steady (steady : Steady n S) (signedUp : SignedUp n) (it : Iteration Loop) :
    ∃ t S', n.checkpoint it = some (.finished, { n with
        fs := t
        cache := { n.cache with updatesCache := ∅, readCache := ∅ } }) ∧
      Disk t n.port S' ∧ content t n.logPath = some (checkpointHeader n.cache.sequenceId) ∧
      (∀ user F, UserName user → S' user = some F → Spare F) ∧
      (∀ user, S user = none ↔ S' user = none) ∧
      ∀ user key, UserName user → visible (stored S' user key) =
        visible ((find2 n.cache.updatesCache user key).or (stored S user key)) := by
  obtain ⟨t, S', done, disk, log, changed⟩ := checkpoint_changed steady.savable it
  refine ⟨t, S', done, disk, log, ?_, changed.folders, fun user key name => ?_⟩
  · refine spare_between changed steady.spare fun user mp F G name mem has completed => ?_
    obtain ⟨c, fill, fills, rfl⟩ := completed.changed
    exact between_complete (steady.spare user F name has) fills
  · have keeps : ∀ user mp F, UserName user →
        (user, mp) ∈ it.pairs .updates n.cache.updatesCache → S user = some F → Keeps F mp :=
      fun user mp F name _ has => keeps_spare (steady.spare user F name has) mp
    rw [stored_completed keeps changed name key]
    split
    · rename_i gone
      have fresh : find2 n.cache.updatesCache user key = none := by
        by_contra present
        exact (hasFolder_iff steady.savable.disk name).mp (signedUp user key present) gone
      rw [fresh, stored, gone]
      rfl
    · exact visible_overlaid _ _

/-- A checkpoint of the copied cache. -/
theorem steady_saved (steady : Steady n S) (signedUp : SignedUp n) {it : Iteration Loop}
    {forwards : List Forward} (h : Node.checkpointCopy n it = some (m, forwards)) :
    ∃ S', Steady m S' := by
  obtain ⟨primary, -, h⟩ := Option.bind_eq_some_iff.mp h
  obtain ⟨t, S', done, disk, log, spare, folders, values⟩ := checkpoint_steady steady signedUp it
  rw [done, Option.map_some] at h
  cases h
  refine ⟨S', ⟨disk, steady.savable.users, steady.savable.keys⟩, spare, steady.inStep,
    n.cache.sequenceId, [], ?_, by simp, by simp, Nat.le_refl _, fun _ => trivial,
    by simp, fun user key name => ?_⟩
  · exact log.trans (by simp [logText])
  · have value := values user key name
    rw [lastWrite, List.foldl_nil, Option.none_or, value]
    cases update : find2 n.cache.updatesCache user key with
    | some v => rfl
    | none =>
      rw [update, Option.none_or] at value
      exact value

/-- A node that has replayed its log holds the values of the log over the files. -/
theorem steady_applied {b : Node} {S₁ : Folders} {base : Nat} {rs : List Record}
    (disk : Disk b.fs b.port S₁) (spare : ∀ user F, UserName user → S₁ user = some F → Spare F)
    (log : HasLog b base rs) (named : ∀ r ∈ rs, r.Named) (names : ∀ r ∈ rs, UserName r.user)
    (numbered : Numbered base rs) {c : Cache} (hc : c = rs.foldl applyRecord ⟨base, ∅, ∅⟩) :
    Steady { b with cache := c, maxSequence := c.sequenceId } S₁ ∧
      ∀ user key, find2 c.updatesCache user key = lastWrite rs user key := by
  have updates : ∀ user key, find2 c.updatesCache user key = lastWrite rs user key := by
    intro user key
    rw [hc, find2_applyRecords]
    exact Option.or_none
  have sequence : c.sequenceId = base + rs.length := by
    rw [hc]
    exact sequenceId_applyRecords (c := ⟨base, ∅, ∅⟩) numbered
  refine ⟨⟨⟨disk, fun user present => ?_, fun user key present => ?_⟩, spare, rfl, base, rs, log,
    named, names, le_of_eq sequence.symm, fun _ => numbered, fun r hr => ?_,
    fun user key name => ?_⟩, updates⟩
  · by_contra other
    refine present ?_
    show c.updatesCache.lookup user = none
    rw [hc]
    exact (lookup_applyRecords rs ⟨base, ∅, ∅⟩ user).mpr
      ⟨rfl, fun r hr same => other (same ▸ names r hr)⟩
  · have written : lastWrite rs user key ≠ none := by
      rw [← updates]
      exact present
    by_contra line
    refine written (lastWrite_eq_none.mpr fun r hr hit => line ?_)
    rw [← hit.2]
    exact oneLine_of_logName (named r hr).key
  · show find2 c.updatesCache r.user r.key ≠ none
    rw [updates]
    exact fun none => lastWrite_eq_none.mp none r hr ⟨rfl, rfl⟩
  · exact congrArg (fun u => visible (Option.or u _)) (updates user key)

/-- The process that is started on a whole log. -/
theorem steady_replayed {t : Tree} {S₁ : Folders} {base : Nat} (rs : List Record)
    (disk : Disk t n.port S₁) (spare : ∀ user F, UserName user → S₁ user = some F → Spare F)
    (log : content t n.logPath = some (checkpointHeader base ++ logText rs))
    (named : ∀ r ∈ rs, r.Named) (names : ∀ r ∈ rs, UserName r.user) (numbered : Numbered base rs)
    (header : base ≤ INT_MAX) (fits : Fits (checkpointHeader base).length rs) :
    ∃ m, restarted n t = some (.finished, m) ∧ Steady m S₁ ∧
      ∀ user key, find2 m.cache.updatesCache user key = lastWrite rs user key := by
  obtain ⟨b, hb⟩ : ∃ b, b = { Node.boot n.port t with
    isPrimary := n.isPrimary
    secondary := n.secondary
    initialized := n.initialized } := ⟨_, rfl⟩
  have hasLog : HasLog b base rs := by rw [hb]; exact log
  obtain ⟨c, hc⟩ : ∃ c, c = rs.foldl applyRecord ⟨base, ∅, ∅⟩ := ⟨_, rfl⟩
  have replayed := (replayLoggings_finished hasLog named _).mpr
    ⟨header, numbered, fits, c, hc, rfl⟩
  have disk' : Disk b.fs b.port S₁ := by rw [hb]; exact disk
  obtain ⟨steady, updates⟩ := steady_applied disk' spare hasLog named names numbered hc
  refine ⟨_, ?_, steady, updates⟩
  rw [restarted, ← hb, Node.initCacheForPrimary, if_neg (lookup_log hasLog)]
  exact replayed

/-- A killed primary that restarts replays its own log. -/
theorem steady_restart (steady : Steady n S) (primary : n.isPrimary = true) {env : Surroundings}
    (h : Node.restart n env = some m) : Steady m S := by
  obtain ⟨base, rs, logged⟩ := steady.logged
  obtain ⟨b, hb⟩ : ∃ b, b = { n with killed := false } := ⟨_, rfl⟩
  have log : HasLog b base rs := by rw [hb]; exact logged.log
  have disk : Disk b.fs b.port S := by rw [hb]; exact steady.savable.disk
  have restart : Node.restart n env = b.initCacheForPrimary.bind fun r =>
      if r.1 = .finished then some r.2 else none := by
    rw [hb]
    exact if_pos primary
  rw [restart, Node.initCacheForPrimary, if_neg (lookup_log log)] at h
  obtain ⟨⟨status, p⟩, replayed, ends⟩ := Option.bind_eq_some_iff.mp h
  split at ends
  · rename_i finished
    obtain rfl : status = .finished := finished
    cases ends
    obtain ⟨-, numbered, -, c, hc, rfl⟩ :=
      (replayLoggings_finished log logged.named _).mp replayed
    exact (steady_applied disk steady.spare log logged.named logged.names numbered hc).1
  · cases ends

theorem steady_command (steady : Steady n S) {env : Surroundings} {c : KvCommand}
    (client : Client n c) {t : Turn} (h : answer env n c = some t) : ∃ S', Steady t.node S' := by
  obtain ⟨⟨p, ret, forwards⟩, ran, rfl⟩ := Option.map_eq_some_iff.mp h
  obtain ⟨S₁, counted⟩ := steady_calm steady (calm_counted n)
  obtain ⟨base, rs, logged⟩ := counted.logged
  by_cases restarts : c.com = .restart ∧ n.killed = true
  · rw [runCommand, if_pos restarts] at ran
    obtain ⟨q, done, heq⟩ := Option.map_eq_some_iff.mp ran
    cases heq
    rw [Client, restarts.1] at client
    exact ⟨S₁, steady_restart counted (client restarts.2) done⟩
  by_cases announces : c.com = .cluster
  · rw [runCommand, if_neg restarts, if_pos announces] at ran
    obtain ⟨q, announced, heq⟩ := Option.map_eq_some_iff.mp ran
    cases heq
    exact steady_calm counted (calm_cluster announced)
  by_cases killed : n.killed = true
  · rw [runCommand, if_neg restarts, if_neg announces, if_pos killed] at ran
    cases ran
    exact ⟨S₁, counted⟩
  have alive : n.killed = false := by simpa using killed
  by_cases saves : c.com = .ckpt
  · rw [runCommand, if_neg restarts, if_neg announces, if_neg killed] at ran
    simp only [saves] at ran
    obtain ⟨⟨q, sent⟩, saved, heq⟩ := Option.map_eq_some_iff.mp ran
    cases heq
    rw [Client, saves] at client
    exact steady_saved counted (client alive) saved
  have took := took_of_runCommand counted.savable.disk (lookup_log logged.log) counted.inStep
    alive client ⟨saves, announces⟩ ran
  cases took with
  | @wrote q r calm next name named =>
    obtain ⟨S', steady'⟩ := steady_calm counted calm
    refine ⟨S', steady_wrote steady' ?_ name named⟩
    rw [next, calm.rest]
  | bumped calm =>
    obtain ⟨S', steady'⟩ := steady_calm counted calm
    exact ⟨S', steady_bumped steady'⟩
  | calm calm => exact steady_calm counted calm

/-- A user with a record in the log has a directory. -/
theorem signedUp_replayed {S₁ : Folders} {rs : List Record}
    (steady : Steady n S) (signedUp : SignedUp n) (steady' : Steady m S₁)
    (folders : ∀ user, S user = none ↔ S₁ user = none)
    (written : ∀ r ∈ rs, find2 n.cache.updatesCache r.user r.key ≠ none)
    (updates : ∀ user key, find2 m.cache.updatesCache user key = lastWrite rs user key) :
    SignedUp m := by
  intro user key present
  rw [updates] at present
  by_contra noFolder
  refine present (lastWrite_eq_none.mpr fun r hr hit => noFolder ?_)
  have there : find2 n.cache.updatesCache user key ≠ none := by
    rw [← hit.1, ← hit.2]
    exact written r hr
  have name : UserName user := by
    refine steady.savable.users user fun absent => there ?_
    rw [find2, absent]
    rfl
  have has := (hasFolder_iff steady.savable.disk name).mp (signedUp user key there)
  exact (hasFolder_iff steady'.savable.disk name).mpr fun gone => has ((folders user).mpr gone)

/-- The changes that were made to a folder leave no torn delete list. -/
theorem untorn_folder (savable : Savable n S) {done : List Effect} (untorn : Untorn n done)
    {user : Str} (name : UserName user) {F : Folder} (has : S user = some F) {mp : KvMap}
    (update : ∀ key, mp.lookup key = find2 n.cache.updatesCache user key) {made : List Change}
    (among : ∀ d ∈ made, d.effect (userPath n.port user) ∈ done)
    (removed : Change.dropDeletes.effect (userPath n.port user) ∈ done → .dropDeletes ∈ made) :
    ChunkCrash.Untorn mp F made := by
  rcases untorn.folder user with dropped | ⟨rewritten, present⟩
  · exact .inl (removed dropped)
  · refine .inr ⟨fun i records mem => rewritten i _ (among _ mem), fun pairs mem key deleted => ?_⟩
    rw [update] at deleted
    have stays := present _ (among _ mem) key deleted
    rw [chunkValue_disk savable.disk name, stored, has, Option.bind_some, Folder.value] at stays
    intro gone
    rw [gone] at stays
    exact stays rfl

/-- The process dies in the loop over the users. -/
theorem crash_loop (steady : Steady n S) (signedUp : SignedUp n) (whole : LogWhole n)
    {it : Iteration Loop} {es : List Effect} {S' : Folders}
    (steps : Steps it n.port S (it.pairs .updates n.cache.updatesCache) es S') {k : Nat}
    (untorn : Untorn n (es.take k)) :
    ∃ m S₁, restarted n (applyAll n.fs (es.take k)) = some (.finished, m) ∧ Steady m S₁ ∧
      SignedUp m ∧ ∀ user key, UserName user → view m user key = view n user key := by
  obtain ⟨base, rs, logged⟩ := steady.logged
  obtain ⟨S₁, disk, changed⟩ := steps.interrupted steady.savable.disk (steady.savable.names it)
    (steady.savable.lines it) (it.nodup_keys _ _) k
  have each : ∀ user mp F G, UserName user → (user, mp) ∈ it.pairs .updates n.cache.updatesCache →
      S user = some F → Interrupted it n.port (es.take k) user mp F G → Between mp F G := by
    intro user mp F G name mem has step
    have spare := steady.spare user F name has
    rcases step.changed with rfl | ⟨c, fill, j, fills, rfl, among, removed⟩
    · exact between_refl spare mp
    · exact between_take spare fills j (untorn_folder steady.savable untorn name has
        (update_of_pairs mem) among removed)
  have log : content (applyAll n.fs (es.take k)) n.logPath =
      some (checkpointHeader base ++ logText rs) := by
    rw [content, Node.logPath, steps.log n.fs (List.take_subset k es)]
    exact logged.log
  obtain ⟨header, complete⟩ := whole
  obtain ⟨count, fits⟩ := complete base rs logged.log logged.named
  obtain ⟨m, done, steady', updates⟩ := steady_replayed rs disk
    (spare_between changed steady.spare each) log logged.named logged.names
    (logged.numbered count) (by omega) fits
  refine ⟨m, S₁, done, steady', signedUp_replayed steady signedUp steady' changed.folders
    logged.written updates, fun user key name => ?_⟩
  rw [view_stored steady'.savable.disk name, view_stored steady.savable.disk name, updates,
    logged.values user key name]
  have value := logged.values user key name
  cases written : lastWrite rs user key with
  | some v => rfl
  | none =>
    -- The pair is not in the log: its value is the old one or the one being written.
    rw [written, Option.none_or] at value
    rw [Option.none_or, Option.none_or]
    cases has : S user with
    | none => rw [stored, stored, has, (changed.folders user).mp has]
    | some F =>
      obtain ⟨G, hG, between⟩ := between_folders changed steady.spare each name has
      have old : stored S user key = F.value key := by rw [stored, has]; rfl
      have new : stored S₁ user key = G.value key := by rw [stored, hG]; rfl
      rcases between.value key with same | overlaid
      · rw [new, old, same]
      · rw [new, overlaid, visible_overlaid, lookup_at', ← old, value]

/-- The process dies once the checkpoint is complete. -/
theorem crash_after (steady : Steady n S) (signedUp : SignedUp n) (whole : LogWhole n)
    {t : Tree} {S' : Folders} (disk : Disk t n.port S')
    (log : content t n.logPath = some (checkpointHeader n.cache.sequenceId))
    (spare : ∀ user F, UserName user → S' user = some F → Spare F)
    (folders : ∀ user, S user = none ↔ S' user = none)
    (values : ∀ user key, UserName user → visible (stored S' user key) =
      visible ((find2 n.cache.updatesCache user key).or (stored S user key))) :
    ∃ m S₁, restarted n t = some (.finished, m) ∧ Steady m S₁ ∧ SignedUp m ∧
      ∀ user key, UserName user → view m user key = view n user key := by
  obtain ⟨m, done, steady', updates⟩ := steady_replayed [] disk spare
    (log.trans (by simp [logText])) (by simp) (by simp) trivial whole.1 trivial
  refine ⟨m, S', done, steady', signedUp_replayed steady signedUp steady' folders (by simp)
    updates, fun user key name => ?_⟩
  rw [view_stored steady'.savable.disk name, view_stored steady.savable.disk name, updates,
    ← values user key name]
  rfl

/-- The process dies anywhere in a checkpoint. -/
theorem crash_steady (steady : Steady n S) {it : Iteration Loop} {k : Nat}
    (recoverable : Recoverable n it k) :
    ∃ done m S₁, effectsUpTo n it k = some done ∧
      restarted n (applyAll n.fs done) = some (.finished, m) ∧ Steady m S₁ ∧ SignedUp m ∧
      ∀ user key, UserName user → view m user key = view n user key := by
  obtain ⟨signedUp, whole, untorn⟩ := recoverable
  obtain ⟨es, S', steps, journal⟩ := checkpoint_steps steady.savable it
  obtain ⟨tail, htail⟩ : ∃ tail, tail = [Effect.write n.logPath [],
    .append n.logPath (checkpointHeader n.cache.sequenceId)] := ⟨_, rfl⟩
  rw [← htail] at journal
  have effects : effectsUpTo n it k = some ((es ++ tail).take k) := by
    rw [effectsUpTo, journal]
    rfl
  have untorn := untorn _ effects
  by_cases loop : k ≤ es.length
  · rw [List.take_append_of_le_length loop] at untorn effects
    obtain ⟨m, S₁, done, rest⟩ := crash_loop steady signedUp whole steps untorn
    exact ⟨_, m, S₁, effects, done, rest⟩
  · obtain ⟨i, rfl⟩ : ∃ i, k = es.length + (i + 1) := ⟨k - es.length - 1, by omega⟩
    rw [List.take_length_add_append, htail] at untorn effects
    cases i with
    | zero =>
      -- The log is truncated and has no header.
      have header := untorn.log (by simp)
      rcases List.mem_append.mp header with user | other
      · obtain ⟨user, s, target⟩ := steps.targets _ user
        exact absurd target (logPath_ne_file n user s)
      · simp at other
    | succ i =>
      obtain ⟨t, S'', done, disk, log, spare, folders, values⟩ :=
        checkpoint_steady steady signedUp it
      have all : [Effect.write n.logPath [],
          .append n.logPath (checkpointHeader n.cache.sequenceId)].take (i + 1 + 1) = tail := by
        rw [htail]
        exact List.take_of_length_le (by simp)
      rw [all] at effects
      have files : t = applyAll n.fs (es ++ tail) := by
        rw [Node.checkpoint, journal, Option.map_some, Option.some.injEq, Prod.mk.injEq] at done
        exact (congrArg Node.fs done.2).symm
      obtain ⟨m, S₁, done', rest⟩ := crash_after steady signedUp whole disk log spare
        folders values
      rw [files] at done'
      exact ⟨_, m, S₁, effects, done', rest⟩

/-! Runs -/

theorem steady_step (steady : Steady n S) {e : Event} (condition : Condition n e)
    (h : step n e = some m) : ∃ S', Steady m S' := by
  cases e with
  | command env c =>
    obtain ⟨t, answered, rfl⟩ := Option.map_eq_some_iff.mp h
    exact steady_command steady condition answered
  | save it =>
    obtain ⟨⟨p, forwards⟩, saved, rfl⟩ := Option.map_eq_some_iff.mp h
    exact steady_saved steady condition saved
  | crash it k =>
    obtain ⟨done, p, S₁, effects, back, steady', -⟩ := crash_steady steady condition
    rw [step, effects, Option.bind_some, back] at h
    cases h
    exact ⟨S₁, steady'⟩

theorem steady_run {events : List Event} (steady : ∃ S, Steady n S)
    (along : Along step Condition n events) (h : run step n events = some m) :
    ∃ S, Steady m S := by
  have preserved : ∀ p e q, (∃ S, Steady p S) → Condition p e → step p e = some q →
      ∃ S, Steady q S := by
    rintro p e q ⟨S, steady⟩ condition stepped
    exact steady_step steady condition stepped
  exact run_invariant_along preserved steady along h

theorem survives_steady (steady : Steady n S) {it : Iteration Loop} {k : Nat}
    (recoverable : Recoverable n it k) : Survives n it k := by
  obtain ⟨done, m, S₁, effects, back, steady', signedUp, values⟩ :=
    crash_steady steady recoverable
  refine ⟨done, m, effects, back, values, fun it' => ?_⟩
  obtain ⟨t, S₂, saved, disk, -, -, -, values'⟩ := checkpoint_steady steady' signedUp it'
  refine ⟨_, saved, fun user key name => ?_⟩
  rw [← values user key name, view_stored steady'.savable.disk name, ← values' user key name]
  exact view_stored disk name key

end Steady

theorem steady_started {n : Node} (started : Started n) (fresh : Fresh n) : ∃ S, Steady n S := by
  obtain ⟨S, disk, settled⟩ := started.disk
  have empty : ∀ user key, find2 n.cache.updatesCache user key = none := by
    intro user key
    rw [started.updatesCache]
    rfl
  refine ⟨S, ⟨disk, fun user present => ?_, fun user key present => ?_⟩,
    fun user F name has => spare_settled (settled user F name has), started.inStep,
    n.cache.sequenceId, [], fresh.log, by simp, by simp, Nat.le_refl _, fun _ => trivial, by simp,
    fun user key _ => ?_⟩
  · rw [started.updatesCache] at present
    exact absurd rfl present
  · exact absurd (empty user key) present
  · rw [empty]
    rfl

/-- In every run with this condition, a checkpoint that is cut short where no delete list is torn
and the log is whole loses nothing, also once a checkpoint has been completed. -/
theorem crash_safe {n t : Node} (started : Started n) (fresh : Fresh n) {events : List Event}
    (ran : run step n events = some t) (along : Along step Condition n events)
    (it : Iteration Loop) (k : Nat) (recoverable : Recoverable t it k) : Survives t it k := by
  obtain ⟨S, steady⟩ := steady_run (steady_started started fresh) along ran
  exact survives_steady steady recoverable

/-! A small run -/

/-- A log that a replay reads to its end is whole. -/
theorem logWhole_of_replayed {n m : Node} (replayed : n.replayLoggings = some (.finished, m))
    (same : m.cache.sequenceId = n.cache.sequenceId) (fits : n.cache.sequenceId ≤ INT_MAX) :
    LogWhole n := by
  refine ⟨fits, fun base rs log named => ?_⟩
  obtain ⟨-, numbered, positions, c, rfl, rfl⟩ := (replayLoggings_finished log named m).mp replayed
  have count := sequenceId_applyRecords (c := ⟨base, ∅, ∅⟩) numbered
  exact ⟨count.symm.trans same, positions⟩

theorem signedUp_of_users {n : Node} (folders : ∀ user ∈ n.cache.updatesCache.keys,
    HasFolder n user) : SignedUp n := by
  intro user key present
  refine folders user (AList.lookup_isSome.mp ?_)
  rw [Option.isSome_iff_ne_none]
  intro absent
  exact present (by rw [find2, absent]; rfl)

/-- Until the index of the first user is written nothing can be torn. -/
theorem untorn_index (n : Node) (user : Str) (i : Nat) (text record index : Str) :
    Untorn n [.append (file n user (.chunk i)) text, .append (file n user (.chunk i)) record,
      .write (file n user .index) index] := by
  refine ⟨fun log => ?_, fun a => .inr ⟨fun j text written => ?_, fun text deleted => ?_⟩⟩
  · simp [logPath_ne_file] at log
  · simp [file, name_injective.eq_iff] at written
  · simp [file, name_injective.eq_iff] at deleted

def puts (value : String) : Event :=
  .command { it := Iteration.stored Loop }
    { com := .puts, usr := some bob, key := pwd, value1 := value.toList }

theorem client_puts (n : Node) (value : String) : Condition n (puts value) :=
  ⟨⟨userName_bob, logName_bob⟩, logName_pwd⟩

/-- The process dies before it writes the metadata of a new record. -/
theorem crash_safe_first : ∃ t, run step (smallNode [bob]) [puts "one"] = some t ∧
    Survives t (Iteration.stored Loop) 3 := by
  have outcome : (run step (smallNode [bob]) [puts "one"]).map (fun t =>
      decide (effectsUpTo t (Iteration.stored Loop) 3 = some
        [.append (file t bob (.chunk 0)) [], .append (file t bob (.chunk 0)) "pwd\n3\none".toList,
          .write (file t bob .index) "0\n9".toList]) &&
      decide (∀ user ∈ t.cache.updatesCache.keys, HasFolder t user) &&
      decide (t.cache.sequenceId ≤ INT_MAX) &&
      decide (t.replayLoggings.map (fun r => (r.1, r.2.cache.sequenceId)) =
        some (.finished, t.cache.sequenceId))) = some true := by decide +kernel
  obtain ⟨t, ran, holds⟩ := Option.map_eq_some_iff.mp outcome
  simp only [Bool.and_eq_true, decide_eq_true_eq] at holds
  obtain ⟨⟨⟨effects, folders⟩, fits⟩, replays⟩ := holds
  obtain ⟨⟨status, m⟩, replayed, same⟩ := Option.map_eq_some_iff.mp replays
  obtain ⟨rfl, same⟩ := Prod.mk.inj same
  refine ⟨t, ran, crash_safe started_smallNode fresh_smallNode ran ⟨client_puts _ _, fun _ _ =>
    trivial⟩ _ 3 ⟨signedUp_of_users folders, logWhole_of_replayed replayed same fits, ?_⟩⟩
  intro done first
  rw [effects] at first
  cases first
  exact untorn_index t bob 0 _ _ _

/-- The node serves alone, as the primary. -/
def lonePrimary : Node :=
  { smallNode [bob] with
    isPrimary := true
    secondary := [Address.init "127.0.0.1:7000".toList] }

theorem started_lonePrimary : Started lonePrimary :=
  ⟨started_smallNode.disk, rfl, rfl, started_smallNode.logged, rfl, rfl⟩

theorem fresh_lonePrimary : Fresh lonePrimary :=
  ⟨rfl, fresh_smallNode.opens, fresh_smallNode.log⟩

def rewritten : List Event := [puts "one", .save (Iteration.stored Loop), puts "two"]

/-- The process dies after a chunk is rewritten and before the delete list is removed: the next
checkpoint deletes the new value. -/
theorem not_crash_safe : ¬ ∀ (n t : Node) (events : List Event) (it : Iteration Loop) (k : Nat),
    Started n → Fresh n → run step n events = some t → Along step Condition n events →
      SignedUp t → LogWhole t → Survives t it k := by
  intro claim
  have saved : (step lonePrimary (puts "one")).map (fun t =>
      decide (∀ user ∈ t.cache.updatesCache.keys, HasFolder t user)) = some true := by
    decide +kernel
  have condition : Along step Condition lonePrimary rewritten := by
    refine ⟨client_puts _ _, fun t ht => ⟨signedUp_of_users ?_, fun u _ =>
      ⟨client_puts _ _, fun _ _ => trivial⟩⟩⟩
    rw [ht] at saved
    exact of_decide_eq_true (Option.some.inj saved)
  have outcome : (run step lonePrimary rewritten).map (fun t =>
      decide (∀ user ∈ t.cache.updatesCache.keys, HasFolder t user) &&
      decide (t.cache.sequenceId ≤ INT_MAX) &&
      decide (t.replayLoggings.map (fun r => (r.1, r.2.cache.sequenceId)) =
        some (.finished, t.cache.sequenceId)) &&
      decide (((effectsUpTo t (Iteration.stored Loop) 6).bind fun done =>
        (restarted t (applyAll t.fs done)).bind fun r =>
          (r.2.checkpoint (Iteration.stored Loop)).map fun q => view q.2 bob pwd) =
        some none) &&
      decide (view t bob pwd = some "two".toList)) = some true := by decide +kernel
  obtain ⟨t, ran, holds⟩ := Option.map_eq_some_iff.mp outcome
  simp only [Bool.and_eq_true, decide_eq_true_eq] at holds
  obtain ⟨⟨⟨⟨folders, fits⟩, replays⟩, lost⟩, value⟩ := holds
  obtain ⟨⟨status, m⟩, replayed, same⟩ := Option.map_eq_some_iff.mp replays
  obtain ⟨rfl, same⟩ := Prod.mk.inj same
  obtain ⟨done, q, effects, back, -, kept⟩ := claim lonePrimary t rewritten
    (Iteration.stored Loop) 6 started_lonePrimary fresh_lonePrimary ran condition
    (signedUp_of_users folders) (logWhole_of_replayed replayed same fits)
  obtain ⟨p, completed, views⟩ := kept (Iteration.stored Loop)
  rw [effects, Option.bind_some, back, Option.bind_some, completed] at lost
  have gone : view p bob pwd = none := Option.some.inj lost
  rw [views bob pwd userName_bob, value] at gone
  cases gone

end CrashSafety
