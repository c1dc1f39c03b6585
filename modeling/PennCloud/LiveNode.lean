import PennCloud.Acknowledgement
import PennCloud.StoreView

/-!
# Commands on a live node

Runs of client commands and checkpoints on a node that is not killed. Each
command changes the current value of the pair it writes, if it is accepted, and
of no other pair; a conditional write compares with the current value.
-/

namespace LiveNode

open Text FileTree KvInterface UnorderedMap ChunkFiles KvCache KvStore LogReplay CacheSteps Runs
  ChunkFormat ChunkFolder NodeDisk StoreView Acknowledgement
open ChunkOverlay (UserName Settled Keeps overlaid)

/-- A live node between two commands. -/
structure Live (n : Node) (S : Folders) : Prop where
  sound : Sound n S
  inStep : InStep n
  alive : n.killed = false

/-- A node that has just been initialised, on the folders it found. -/
structure Started (n : Node) : Prop where
  disk : ∃ S, Disk n.fs n.port S ∧ ∀ user F, UserName user → S user = some F → Settled F
  readCache : n.cache.readCache = ∅
  updatesCache : n.cache.updatesCache = ∅
  logged : n.fs.lookup n.logPath ≠ none
  inStep : InStep n
  alive : n.killed = false

/-- Client commands and checkpoints, for names of one word and keys of one line. -/
def Plain (c : KvCommand) : Prop :=
  match c.com with
  | .gets | .puts | .cput | .dele => UserName c.user ∧ OneLine c.key
  | .all => c.usr = none ∨ UserName c.user
  | .ckpt => True
  | _ => False

/-- The value of a pair after a write, if there is one. -/
def overwritten (w : Option (Str × Str × Str)) (user key old : Str) : Str :=
  match w with
  | some w => if w.1 = user ∧ w.2.1 = key then w.2.2 else old
  | none => old

/-- What a command has written when it ends with the status. -/
def settles (c : KvCommand) (status : KvState) : Option (Str × Str × Str) :=
  if status = .finished then written c else none

theorem live_started {n : Node} (started : Started n) : ∃ S, Live n S := by
  obtain ⟨S, disk, settled⟩ := started.disk
  refine ⟨S, ⟨disk, settled, fun a b => ?_, fun a b value _ h => ?_, fun a h => ?_, fun a b h => ?_,
    started.logged⟩, started.inStep, started.alive⟩
  · rw [started.readCache]
    exact .inl rfl
  · rw [started.readCache] at h
    cases h
  · rw [started.updatesCache] at h
    exact absurd rfl h
  · rw [started.updatesCache] at h
    exact absurd rfl h

/-- Nothing was written: what may have changed is the read cache, empty entries of the
updates, and a folder of a user who signed up. -/
structure Quiet (n p : Node) : Prop where
  live : ∃ S, Live p S
  rest : p = { n with
    fs := p.fs
    cache := { n.cache with
      readCache := p.cache.readCache
      updatesCache := p.cache.updatesCache }
    lastCheckpointTime := p.lastCheckpointTime }
  log : content p.fs n.logPath = content n.fs n.logPath
  updates : ∀ user key, find2 p.cache.updatesCache user key = find2 n.cache.updatesCache user key
  chunks : ∀ user key, UserName user → chunkValue p user key = chunkValue n user key
  folders : ∀ user, UserName user → HasFolder n user → HasFolder p user

section Quiet
variable {n m p : Node} {S : Folders}

theorem quiet_refl (live : Live n S) : Quiet n n :=
  ⟨⟨S, live⟩, rfl, rfl, fun _ _ => rfl, fun _ _ _ => rfl, fun _ _ h => h⟩

theorem Quiet.trans (first : Quiet n m) (second : Quiet m p) : Quiet n p := by
  have logPath : m.logPath = n.logPath := by rw [first.rest]; rfl
  refine ⟨second.live, ?_, ?_, fun user key => ?_, fun user key name => ?_, fun user name has => ?_⟩
  · rw [second.rest, first.rest]
  · rw [← logPath, second.log, logPath, first.log]
  · rw [second.updates, first.updates]
  · rw [second.chunks user key name, first.chunks user key name]
  · exact second.folders user name (first.folders user name has)

theorem Quiet.values (quiet : Quiet n p) {user : Str} (name : UserName user) (key : Str) :
    cur p user key = cur n user key := by
  rw [cur, cur, quiet.updates, quiet.chunks user key name]

theorem Quiet.sequenceId (quiet : Quiet n p) : p.cache.sequenceId = n.cache.sequenceId := by
  rw [quiet.rest]

theorem Quiet.logPath (quiet : Quiet n p) : p.logPath = n.logPath := by
  rw [quiet.rest]
  rfl

/-- A read is quiet. -/
theorem quiet_readOf (live : Live n S) (sound : Sound m S) {user key : Str}
    (read : ReadOf n m user key) : Quiet n m := by
  have fs : m.fs = n.fs := by rw [read.rest]
  have port : m.port = n.port := by rw [read.rest]
  have inStep : InStep m := read.alike.inStep live.inStep
  have alive : m.killed = false := by
    rw [read.rest]
    exact live.alive
  refine ⟨⟨S, sound, inStep, alive⟩, ?_, by rw [fs], read.updates, fun a b _ => ?_, fun a _ h => ?_⟩
  · rw [read.rest]
  · rw [chunkValue, chunkValue, fs, port]
  · rwa [HasFolder, fs, port]

/-- Counting the command is quiet. -/
theorem quiet_counted (live : Live n S) :
    Quiet n { n with lastCheckpointTime := n.lastCheckpointTime + 1 } :=
  ⟨⟨S, ⟨live.sound.disk, live.sound.settled, live.sound.apart, live.sound.read, live.sound.users,
    live.sound.keys, live.sound.logged⟩, live.inStep, live.alive⟩, rfl, rfl, fun _ _ => rfl,
    fun _ _ _ => rfl, fun _ _ h => h⟩

/-- The first half of a conditional write is quiet, and leaves the pair in a cache. -/
theorem prepareCput_quiet (live : Live n S) {c : KvCommand} (name : UserName c.user) :
    ∃ p, Node.prepareCput n c = some p ∧ Quiet n p ∧
      (find2 p.cache.readCache c.user c.key ≠ none ∨
        find2 p.cache.updatesCache c.user c.key ≠ none) := by
  obtain ⟨status, m, answer, sound, read, cached, -⟩ := gets_sound live.sound name c.key
  have quiet := quiet_readOf live sound read
  have fs : m.fs = n.fs := by rw [read.rest]
  have port : m.port = n.port := by rw [read.rest]
  have folder : resolve (PREFIX n.port ++ c.user) = userPath m.port c.user := by
    rw [resolve_PREFIX n.port name.plain, port]
    rfl
  by_cases signsUp : c.key = "pwd".toList ∧
      n.fs.lookup (resolve (PREFIX n.port ++ c.user)) = none ∧ c.value1 = []
  · have absent : m.fs.lookup (userPath m.port c.user) = none := by
      rw [← folder, fs]
      exact signsUp.2.1
    obtain ⟨S', sound', folders, same, log⟩ := sound_signUp sound absent
    have inStep : InStep m := read.alike.inStep live.inStep
    have alive : m.killed = false := by
      rw [read.rest]
      exact live.alive
    obtain ⟨p, hp⟩ : ∃ p, p = { m with
      fs := Effect.apply m.fs (.makeDir (userPath m.port c.user)) } := ⟨_, rfl⟩
    rw [← hp] at sound'
    have signedUp : Quiet m p := by
      refine ⟨⟨S', sound', by rw [hp]; exact inStep, by rw [hp]; exact alive⟩, by rw [hp],
        by rw [hp]; exact log, fun _ _ => by rw [hp], fun a b ha => ?_, fun a ha h => ?_⟩
      · rw [chunkValue_disk sound'.disk ha, chunkValue_disk sound.disk ha, same a b ha]
      · rw [hasFolder_iff sound.disk ha] at h
        rw [hasFolder_iff sound'.disk ha]
        exact folders a h
    refine ⟨p, ?_, quiet.trans signedUp, by rw [hp]; exact cached⟩
    rw [Node.prepareCput, answer, Option.map_some, if_pos signsUp, folder, hp]
  · refine ⟨m, ?_, quiet, cached⟩
    rw [Node.prepareCput, answer, Option.map_some, if_neg signsUp]

end Quiet

/-! Commands -/

/-- What a command does to a live node, and the status it ends with. -/
inductive Outcome (n : Node) (c : KvCommand) : KvState → Node → Prop where
  | accepted {p : Node} {r : Record} (quiet : Quiet n p) (user : c.user = r.user)
      (key : c.key = r.key) (next : r.seqNum = n.cache.sequenceId + 1)
      (writes : written c = some (r.user, r.key, r.written))
      (expected : c.com = .cput → cur n c.user c.key = c.value1) :
      Outcome n c .finished (wrote p r)
  | rejected {p : Node} (quiet : Quiet n p) (conditional : c.com = .cput)
      (other : cur n c.user c.key ≠ c.value1) : Outcome n c .valueError (bumped p)
  | quiet {p : Node} (status : KvState) (quiet : Quiet n p) (writes : written c = none)
      (notSaved : c.com ≠ .ckpt) : Outcome n c status p
  | saved {m : Node} {it : Iteration Loop} {forwards : List Forward} (status : KvState)
      (ckpt : c.com = .ckpt) (done : Node.checkpointCopy n it = some (m, forwards)) :
      Outcome n c status m

section Commands
variable {n : Node} {S : Folders}

/-- A conditional write is accepted exactly when it was given the current value. -/
theorem cput_outcome (live : Live n S) {c : KvCommand} (com : c.com = .cput)
    (name : UserName c.user) (env : Surroundings) (ret : KvRet) :
    ∃ m, runCommand env n c ret = some (m, { ret with
        status := if cur n c.user c.key = c.value1 then .finished else .valueError },
        Node.forwarded n c) ∧
      Outcome n c (if cur n c.user c.key = c.value1 then .finished else .valueError) m := by
  obtain ⟨p, prepared, quiet, cached⟩ := prepareCput_quiet live name
  obtain ⟨S', liveP⟩ := quiet.live
  obtain ⟨status, m, answer, sound, read, -, finished⟩ := gets_sound liveP.sound name c.key
  obtain rfl := finished cached
  have quiet' : Quiet n m := quiet.trans (quiet_readOf liveP sound read)
  have opens : LogOpens p := liveP.sound.disk.logOpens
  have next := cputs_next liveP.inStep opens c.user c.key c.value1 c.value2
  rw [answer, Option.map_some, quiet.values name, quiet.sequenceId] at next
  have outcome : runCommand env n c ret = ((Node.nextSequence p).cputs c.user c.key c.value1
      c.value2 (p.maxSequence + 1)).map fun r =>
        (r.2, { ret with status := r.1 }, Node.forwarded n c) := by
    unfold runCommand
    simp only [com, live.alive, reduceCtorEq, false_and, if_false, Bool.false_eq_true, prepared,
      Option.bind_some]
    rfl
  rw [outcome, next]
  by_cases same : cur n c.user c.key = c.value1
  · refine ⟨wrote m ⟨n.cache.sequenceId + 1, c.user, c.key, some c.value2⟩, by simp [same], ?_⟩
    rw [if_pos same]
    exact .accepted quiet' rfl rfl rfl (by simp [written, com, Record.written]) fun _ => same
  · refine ⟨bumped m, by simp [same], ?_⟩
    rw [if_neg same]
    exact .rejected quiet' com same

theorem puts_outcome (live : Live n S) {c : KvCommand} (com : c.com = .puts) (env : Surroundings)
    (ret : KvRet) :
    ∃ m, runCommand env n c ret = some (m, { ret with status := .finished },
        Node.forwarded n c) ∧ Outcome n c .finished m := by
  have next := puts_next live.inStep live.sound.disk.logOpens c.user c.key c.value1
  have outcome : runCommand env n c ret = some
      (((Node.nextSequence n).puts c.user c.key c.value1 (n.maxSequence + 1)).2, { ret with
        status := ((Node.nextSequence n).puts c.user c.key c.value1 (n.maxSequence + 1)).1 },
        Node.forwarded n c) := by
    unfold runCommand
    simp only [com, live.alive, reduceCtorEq, false_and, if_false, Bool.false_eq_true]
    rfl
  rw [outcome, next]
  exact ⟨_, rfl, .accepted (quiet_refl live) rfl rfl rfl (by simp [written, com, Record.written])
    (by simp [com])⟩

theorem dele_outcome (live : Live n S) {c : KvCommand} (com : c.com = .dele) (env : Surroundings)
    (ret : KvRet) :
    ∃ m, runCommand env n c ret = some (m, { ret with status := .finished },
        Node.forwarded n c) ∧ Outcome n c .finished m := by
  have next := dele_next live.inStep live.sound.disk.logOpens c.user c.key
  have outcome : runCommand env n c ret = some
      (((Node.nextSequence n).dele c.user c.key (n.maxSequence + 1)).2, { ret with
        status := ((Node.nextSequence n).dele c.user c.key (n.maxSequence + 1)).1 },
        Node.forwarded n c) := by
    unfold runCommand
    simp only [com, live.alive, reduceCtorEq, false_and, if_false, Bool.false_eq_true]
    rfl
  rw [outcome, next]
  exact ⟨_, rfl, .accepted (quiet_refl live) rfl rfl rfl (by simp [written, com, Record.written])
    (by simp [com])⟩

/-- Every client command and checkpoint of a live node has one of these outcomes. -/
theorem runCommand_outcome (live : Live n S) {c : KvCommand} (plain : Plain c)
    {env : Surroundings} {ret ret' : KvRet} {m : Node} {forwards : List Forward}
    (h : runCommand env n c ret = some (m, ret', forwards)) : Outcome n c ret'.status m := by
  cases com : c.com with
  | puts =>
    obtain ⟨m', done, outcome⟩ := puts_outcome live com env ret
    rw [done] at h
    cases h
    exact outcome
  | dele =>
    obtain ⟨m', done, outcome⟩ := dele_outcome live com env ret
    rw [done] at h
    cases h
    exact outcome
  | cput =>
    simp only [Plain, com] at plain
    obtain ⟨m', done, outcome⟩ := cput_outcome live com plain.1 env ret
    rw [done] at h
    cases h
    exact outcome
  | gets =>
    simp only [Plain, com] at plain
    unfold runCommand at h
    simp only [com, live.alive, reduceCtorEq, false_and, if_false, Bool.false_eq_true] at h
    obtain ⟨status, m', answer, sound, read, -⟩ := gets_sound live.sound plain.1 c.key
    rw [answer, Option.map_some] at h
    cases h
    exact .quiet _ (quiet_readOf live sound read) (by simp [written, com]) (by simp [com])
  | all =>
    simp only [Plain, com] at plain
    unfold runCommand at h
    simp only [com, live.alive, reduceCtorEq, false_and, if_false, Bool.false_eq_true] at h
    split at h
    · cases h
      exact .quiet _ (quiet_refl live) (by simp [written, com]) (by simp [com])
    · rename_i named
      obtain ⟨⟨status, kvs, m'⟩, answer, heq⟩ := Option.map_eq_some_iff.mp h
      cases heq
      obtain ⟨sound, values, updates, rfl, same⟩ :=
        getsAll_keeps live.sound (plain.resolve_left named) answer
      exact .quiet _ ⟨⟨S, sound, live.inStep, live.alive⟩, rfl, rfl, same, fun _ _ _ => rfl,
        fun _ _ h => h⟩ (by simp [written, com]) (by simp [com])
  | ckpt =>
    unfold runCommand at h
    simp only [com, live.alive, reduceCtorEq, false_and, if_false, Bool.false_eq_true] at h
    obtain ⟨⟨m', forwards'⟩, done, heq⟩ := Option.map_eq_some_iff.mp h
    cases heq
    exact .saved _ com done
  | sync | cluster | kill | restart | other => simp [Plain, com] at plain

end Commands

/-! Runs -/

section Runs
variable {n m : Node} {S : Folders}

theorem live_wrote {p : Node} (live : Live p S) {r : Record} (name : UserName r.user)
    (line : OneLine r.key) : Live (wrote p r) S :=
  ⟨sound_wrote live.sound name line, rfl, live.alive⟩

theorem live_bumped {p : Node} (live : Live p S) : Live (bumped p) S :=
  ⟨sound_bumped live.sound, rfl, live.alive⟩

/-- A checkpoint of the copied cache on a live node. -/
theorem saved_live (live : Live n S) {it : Iteration Loop} {forwards : List Forward}
    (h : Node.checkpointCopy n it = some (m, forwards)) :
    (∃ S', Live m S') ∧ ∀ user key, UserName user → cur m user key = cur n user key := by
  obtain ⟨rest, -, S', sound, -, values⟩ := checkpointCopy_sound live.sound h
  have inStep : InStep m := by
    rw [rest]
    exact live.inStep
  have alive : m.killed = false := by
    rw [rest]
    exact live.alive
  refine ⟨⟨S', sound, inStep, alive⟩, fun user key name => ?_⟩
  exact cur_saved live.sound.disk sound.disk (by rw [rest]) name (values user key name)

theorem written_plain {c : KvCommand} (plain : Plain c) {w : Str × Str × Str}
    (writes : written c = some w) : UserName c.user ∧ OneLine c.key := by
  unfold written at writes
  cases com : c.com with
  | puts | cput | dele => simpa only [Plain, com] using plain
  | gets | all | ckpt | sync | cluster | kill | restart | other => simp [com] at writes

theorem outcome_live (live : Live n S) {c : KvCommand} (plain : Plain c) {status : KvState}
    (outcome : Outcome n c status m) : ∃ S', Live m S' := by
  cases outcome with
  | accepted quiet user key next writes expected =>
    obtain ⟨S', live'⟩ := quiet.live
    obtain ⟨name, line⟩ := written_plain plain writes
    exact ⟨S', live_wrote live' (user ▸ name) (key ▸ line)⟩
  | rejected quiet conditional other =>
    obtain ⟨S', live'⟩ := quiet.live
    exact ⟨S', live_bumped live'⟩
  | quiet status quiet writes notSaved => exact quiet.live
  | saved status ckpt done => exact (saved_live live done).1

/-- A command changes the value of the pair it writes, if it is accepted, and no other. -/
theorem outcome_values (live : Live n S) {c : KvCommand} {status : KvState}
    (outcome : Outcome n c status m) {user : Str} (name : UserName user) (key : Str) :
    cur m user key = overwritten (settles c status) user key (cur n user key) := by
  have unwritten : written c = none → overwritten (settles c status) user key (cur n user key) =
      cur n user key := by
    intro none
    rw [settles, none, ite_self]
    rfl
  cases outcome with
  | @accepted p r quiet _ _ next writes expected =>
    obtain ⟨S', live'⟩ := quiet.live
    rw [cur_wrote live'.sound.disk r name, quiet.values name, settles, if_pos rfl, writes]
    rfl
  | @rejected p quiet conditional other =>
    rw [settles, if_neg (by simp)]
    exact quiet.values name key
  | quiet status quiet writes notSaved => rw [unwritten writes, quiet.values name]
  | saved status ckpt done =>
    rw [unwritten (by simp [written, ckpt]), (saved_live live done).2 user key name]

/-- One turn of `handle_connect`, with the status its command ends with. -/
def outcome (n : Node) (e : Event) : Option KvState :=
  (runCommand e.1 { n with lastCheckpointTime := n.lastCheckpointTime + 1 } e.2
    ⟨.finished, [], []⟩).map fun r => r.2.1.status

/-- A turn counts the command, runs it, and may save a copy. -/
theorem turn_outcome (live : Live n S) {e : Event} (plain : Plain e.2) (h : turn n e = some m) :
    ∃ p r status, Quiet n p ∧ outcome n e = some status ∧ Outcome p e.2 status r ∧
      (m = r ∨ ∃ forwards, Node.checkpointCopy r e.1.it = some (m, forwards)) := by
  obtain ⟨t, ht, rfl⟩ := Option.map_eq_some_iff.mp h
  obtain ⟨r, ret, forwards, done, saves⟩ := handleConnect_some ht
  have counted := quiet_counted live
  obtain ⟨S', live'⟩ := counted.live
  have status : outcome n e = some ret.status := by
    rw [outcome, done]
    rfl
  refine ⟨_, r, ret.status, counted, status, runCommand_outcome live' plain done, ?_⟩
  rcases saves with ⟨node, -⟩ | ⟨copies, copied, -⟩
  · exact .inl node
  · exact .inr ⟨copies, copied⟩

/-- What one turn does to the values of a live node. -/
theorem turn_live (live : Live n S) {e : Event} (plain : Plain e.2) (h : turn n e = some m) :
    ∃ S' status, Live m S' ∧ outcome n e = some status ∧ ∀ a b, UserName a →
      cur m a b = overwritten (settles e.2 status) a b (cur n a b) := by
  obtain ⟨p, r, status, quiet, ends, ran, saves⟩ := turn_outcome live plain h
  obtain ⟨S₁, liveP⟩ := quiet.live
  obtain ⟨S₂, liveR⟩ := outcome_live liveP plain ran
  have values : ∀ a b, UserName a →
      cur r a b = overwritten (settles e.2 status) a b (cur n a b) := by
    intro a b name
    rw [outcome_values liveP ran name, quiet.values name]
  rcases saves with rfl | ⟨forwards, copied⟩
  · exact ⟨S₂, status, liveR, ends, values⟩
  · obtain ⟨⟨S₃, liveM⟩, same⟩ := saved_live liveR copied
    exact ⟨S₃, status, liveM, ends, fun a b name => (same a b name).trans (values a b name)⟩

theorem checkpointCopy_cluster {it : Iteration Loop} {forwards : List Forward}
    (h : Node.checkpointCopy n it = some (m, forwards)) :
    m.port = n.port ∧ m.isPrimary = n.isPrimary ∧ m.secondary = n.secondary := by
  obtain ⟨primary, -, h⟩ := Option.bind_eq_some_iff.mp h
  obtain ⟨saved, -, h⟩ := Option.map_eq_some_iff.mp h
  cases h
  exact ⟨rfl, rfl, rfl⟩

/-- A turn changes neither the role of the node nor its cluster list. -/
theorem turn_cluster (live : Live n S) {e : Event} (plain : Plain e.2) (h : turn n e = some m) :
    m.port = n.port ∧ m.isPrimary = n.isPrimary ∧ m.secondary = n.secondary := by
  obtain ⟨p, r, status, quiet, -, ran, saves⟩ := turn_outcome live plain h
  have first : p.port = n.port ∧ p.isPrimary = n.isPrimary ∧ p.secondary = n.secondary := by
    rw [quiet.rest]
    exact ⟨rfl, rfl, rfl⟩
  have second : r.port = p.port ∧ r.isPrimary = p.isPrimary ∧ r.secondary = p.secondary := by
    cases ran with
    | @accepted q w quiet =>
      show q.port = p.port ∧ q.isPrimary = p.isPrimary ∧ q.secondary = p.secondary
      rw [quiet.rest]
      exact ⟨rfl, rfl, rfl⟩
    | @rejected q quiet =>
      show q.port = p.port ∧ q.isPrimary = p.isPrimary ∧ q.secondary = p.secondary
      rw [quiet.rest]
      exact ⟨rfl, rfl, rfl⟩
    | quiet status quiet =>
      rw [quiet.rest]
      exact ⟨rfl, rfl, rfl⟩
    | saved status ckpt done => exact checkpointCopy_cluster done
  rw [← first.1, ← first.2.1, ← first.2.2, ← second.1, ← second.2.1, ← second.2.2]
  rcases saves with rfl | ⟨forwards, copied⟩
  · exact ⟨rfl, rfl, rfl⟩
  · exact checkpointCopy_cluster copied

/-- What a command makes of the value of a pair. -/
def effectOn (user key : Str) (value : Str) (c : KvCommand) : Str :=
  if c.user = user ∧ c.key = key then
    match c.com with
    | .puts => c.value1
    | .cput => if value = c.value1 then c.value2 else value
    | .dele => []
    | _ => value
  else value

theorem overwritten_written {c : KvCommand} {w : Str × Str × Str} (writes : written c = some w)
    (user key value : Str) : overwritten (some w) user key value =
      if c.user = user ∧ c.key = key then w.2.2 else value := by
  unfold written at writes
  cases com : c.com with
  | puts | cput | dele =>
    simp only [com, Option.some.injEq] at writes
    rw [← writes]
    rfl
  | gets | all | ckpt | sync | cluster | kill | restart | other => simp [com] at writes

/-- The value of a pair after a command depends on its value before alone. -/
theorem outcome_effect (live : Live n S) {c : KvCommand} {status : KvState}
    (outcome : Outcome n c status m) {user : Str} (name : UserName user) (key : Str) :
    cur m user key = effectOn user key (cur n user key) c := by
  rw [outcome_values live outcome name key]
  cases outcome with
  | @accepted p r quiet sameUser sameKey next writes expected =>
    rw [settles, if_pos rfl, writes, overwritten_written writes, effectOn]
    by_cases pair : c.user = user ∧ c.key = key
    · rw [if_pos pair, if_pos pair]
      unfold written at writes
      cases com : c.com with
      | puts | dele =>
        simp only [com, Option.some.injEq, Prod.mk.injEq] at writes
        exact writes.2.2.symm
      | cput =>
        simp only [com, Option.some.injEq, Prod.mk.injEq] at writes
        have same := expected com
        rw [pair.1, pair.2] at same
        rw [if_pos same]
        exact writes.2.2.symm
      | gets | all | ckpt | sync | cluster | kill | restart | other => simp [com] at writes
    · rw [if_neg pair, if_neg pair]
  | @rejected p quiet conditional other =>
    rw [settles, if_neg (by simp), overwritten, effectOn]
    by_cases pair : c.user = user ∧ c.key = key
    · rw [pair.1, pair.2] at other
      rw [if_pos pair, conditional, if_neg other]
    · rw [if_neg pair]
  | quiet status quiet writes notSaved =>
    rw [settles, writes, ite_self, overwritten, effectOn]
    unfold written at writes
    split
    · cases com : c.com with
      | puts | cput | dele => simp [com] at writes
      | gets | all | ckpt | sync | cluster | kill | restart | other => rfl
    · rfl
  | saved status ckpt done =>
    have none : written c = none := by simp [written, ckpt]
    rw [settles, none, ite_self, overwritten, effectOn, ckpt]
    split <;> rfl

theorem turn_effect (live : Live n S) {e : Event} (plain : Plain e.2) (h : turn n e = some m)
    {user : Str} (name : UserName user) (key : Str) :
    cur m user key = effectOn user key (cur n user key) e.2 := by
  obtain ⟨p, r, status, quiet, -, ran, saves⟩ := turn_outcome live plain h
  obtain ⟨S₁, liveP⟩ := quiet.live
  obtain ⟨S₂, liveR⟩ := outcome_live liveP plain ran
  have value := outcome_effect liveP ran name key
  rw [quiet.values name] at value
  rcases saves with rfl | ⟨forwards, copied⟩
  · exact value
  · rw [(saved_live liveR copied).2 user key name, value]

theorem run_live {events : List Event} (live : Live n S) (plain : ∀ e ∈ events, Plain e.2)
    (h : run turn n events = some m) : ∃ S', Live m S' := by
  induction events generalizing n S with
  | nil =>
    cases h
    exact ⟨S, live⟩
  | cons e es ih =>
    obtain ⟨r, hr, hrm⟩ := run_cons_eq_some.mp h
    obtain ⟨S', -, live', -⟩ := turn_live live (plain e List.mem_cons_self) hr
    exact ih live' (fun d hd => plain d (List.mem_cons_of_mem e hd)) hrm

theorem run_effect {events : List Event} (live : Live n S) (plain : ∀ e ∈ events, Plain e.2)
    (h : run turn n events = some m) {user : Str} (name : UserName user) (key : Str) :
    cur m user key = (events.map Prod.snd).foldl (effectOn user key) (cur n user key) := by
  induction events generalizing n S with
  | nil =>
    cases h
    rfl
  | cons e es ih =>
    obtain ⟨r, hr, hrm⟩ := run_cons_eq_some.mp h
    have first := plain e List.mem_cons_self
    obtain ⟨S', -, live', -⟩ := turn_live live first hr
    rw [ih live' (fun d hd => plain d (List.mem_cons_of_mem e hd)) hrm,
      turn_effect live first hr name]
    rfl

end Runs

/-! A new node -/

theorem oneLine_of_logName {key : Str} (name : LogName key) : OneLine key := by
  intro line
  exact absurd (name.alphabet _ line) (by decide)

theorem userName_of_logName {user : Str} (name : LogName user) (notDot : user ≠ ".".toList)
    (notDotDot : user ≠ "..".toList) : UserName user := by
  have outside : ∀ c ∈ '/' :: (shellBreaks ++ shellQuoting), nameChar c = false := by
    decide +kernel
  have apart : ∀ c ∈ '/' :: (shellBreaks ++ shellQuoting), c ∉ user := by
    intro c special mem
    have alphabet := name.alphabet c mem
    rw [outside c special] at alphabet
    cases alphabet
  constructor
  · exact ⟨name.nonempty, notDot, notDotDot, apart '/' List.mem_cons_self⟩
  · intro c mem breaks
    exact apart c (List.mem_cons_of_mem _ (List.mem_append_left _ breaks)) mem
  · intro c mem quoting
    exact apart c (List.mem_cons_of_mem _ (List.mem_append_right _ quoting)) mem

/-- A node that finds an empty storage folder has started once it is initialised. -/
theorem started_initialised (port : Nat) :
    ∃ n, (Node.boot port (emptyHome port)).initCacheForPrimary = some (.finished, n) ∧
      Started n := by
  have disk := disk_emptyHome port
  have absent : (emptyHome port).lookup (resolve (kLogFp port)) = none := by
    rw [← userPath_log, lookup_emptyHome, if_neg (below_home port logName)]
  have written : content (Effect.apply (emptyHome port)
      (.write (resolve (kLogFp port)) (checkpointHeader 0))) (resolve (kLogFp port)) = _ :=
    content_write_self _ disk.logOpens
  refine ⟨{ Node.boot port (emptyHome port) with
      fs := Effect.apply (emptyHome port) (.write (resolve (kLogFp port)) (checkpointHeader 0)) },
    ?_, ⟨⟨_, disk.logWrite ⟨_, .inl rfl⟩, fun _ _ _ h => by cases h⟩, rfl, rfl, ?_, rfl, rfl⟩⟩
  · have opens : writable (emptyHome port) (resolve (kLogFp port)) = true := disk.logOpens
    simp only [Node.initCacheForPrimary, Node.boot, Node.logPath, absent, if_true, overwriteFile,
      opens, Cache.empty]
  · intro gone
    have gone' : (Effect.apply (emptyHome port) (.write (resolve (kLogFp port))
      (checkpointHeader 0))).lookup (resolve (kLogFp port)) = none := gone
    rw [content, gone'] at written
    cases written

theorem userName_bob : UserName bob :=
  userName_of_logName logName_bob (by decide) (by decide)

/-- The disk of a small node with one user. -/
theorem disk_nodeAt (port : Nat) :
    Disk (nodeAt port [bob]).fs port (Function.update (fun _ => none) bob (some Folder.empty)) ∧
      (nodeAt port [bob]).fs.lookup (nodeAt port [bob]).logPath =
        some (.file (checkpointHeader 0)) := by
  have empty := disk_emptyHome port
  have disk := empty.logWrite (e := .write (resolve (kLogFp port)) (checkpointHeader 0))
    ⟨_, .inl rfl⟩
  obtain ⟨headed, hh⟩ : ∃ t, t = Effect.apply (emptyHome port) (.write (resolve (kLogFp port))
    (checkpointHeader 0)) := ⟨_, rfl⟩
  rw [← hh] at disk
  have inserted : headed = (emptyHome port).insert (resolve (kLogFp port))
      (.file (checkpointHeader 0)) := hh.trans (apply_write _ empty.logOpens)
  have notLog : bob ≠ logName := by decide +kernel
  have apart : userPath port bob ≠ resolve (kLogFp port) := by
    rw [← userPath_log]
    intro same
    have below : userPath port logName <+: userPath port bob := by rw [same]
    exact notLog (userPath_apart (List.prefix_refl _) below)
  have absent : headed.lookup (userPath port bob) = none := by
    rw [inserted, AList.lookup_insert_ne apart, lookup_emptyHome,
      if_neg (below_home port bob)]
  have parent : headed.lookup (userPath port bob).dropLast = some .dir := by
    rw [userPath, List.dropLast_concat]
    exact disk.homeDir
  have path : resolve (PREFIX port ++ bob) = userPath port bob :=
    resolve_PREFIX port userName_bob.plain
  have files : (nodeAt port [bob]).fs = Effect.apply headed (.makeDir (userPath port bob)) := by
    rw [Effect.apply, if_pos ⟨absent, parent⟩, inserted, ← path]
    rfl
  have logged : (nodeAt port [bob]).fs.lookup (resolve (kLogFp port)) =
      some (.file (checkpointHeader 0)) := by
    have outside : (nodeAt port [bob]).fs.lookup (resolve (kLogFp port)) =
        headed.lookup (resolve (kLogFp port)) := by
      rw [files, Effect.apply, if_pos ⟨absent, parent⟩, AList.lookup_insert_ne apart.symm]
    rw [outside, inserted, AList.lookup_insert]
  have made := disk.makeDir absent notLog
  rw [← files] at made
  exact ⟨made, logged⟩

theorem started_nodeAt (port : Nat) : Started (nodeAt port [bob]) := by
  obtain ⟨disk, logged⟩ := disk_nodeAt port
  refine ⟨⟨_, disk, fun user F _ has => ?_⟩, rfl, rfl, by simp [logged], rfl, rfl⟩
  · by_cases new : user = bob
    · subst new
      rw [Function.update_self] at has
      cases has
      exact ⟨rfl, fun key placed => absurd rfl placed⟩
    · rw [Function.update_of_ne new] at has
      cases has

/-- The role of a node and its cluster list have no part in its start. -/
theorem started_cluster {n : Node} (started : Started n) (isPrimary : Bool)
    (secondary : List Address) :
    Started { n with isPrimary := isPrimary, secondary := secondary } :=
  ⟨started.disk, started.readCache, started.updatesCache, started.logged, started.inStep,
    started.alive⟩

/-- A small node holds no value. -/
theorem view_nodeAt (port : Nat) (isPrimary : Bool) (secondary : List Address) {user : Str}
    (name : UserName user) (key : Str) :
    view { nodeAt port [bob] with isPrimary := isPrimary, secondary := secondary } user key =
      none := by
  have disk : Disk (nodeAt port [bob]).fs (nodeAt port [bob]).port _ := (disk_nodeAt port).1
  have chunk := chunkValue_disk disk name key
  have unstored : stored (Function.update (fun _ => none) bob (some Folder.empty)) user key =
      none := by
    rw [stored]
    by_cases new : user = bob
    · subst new
      rw [Function.update_self]
      rfl
    · rw [Function.update_of_ne new]
      rfl
  have value : chunkValue { nodeAt port [bob] with isPrimary := isPrimary, secondary := secondary }
      user key = none := chunk.trans unstored
  rw [view, value]
  rfl

theorem started_smallNode : Started (smallNode [bob]) := started_nodeAt 7000

/-- A small node that is the primary of a cluster of its own. -/
def servingNode : Node :=
  { nodeAt 7000 [bob] with isPrimary := true, secondary := [Address.init "127.0.0.1:7000".toList] }

theorem started_servingNode : Started servingNode := started_cluster (started_nodeAt 7000) _ _

theorem cur_servingNode (key : Str) : cur servingNode bob key = [] := by
  have none : view servingNode bob key = none := view_nodeAt 7000 _ _ userName_bob key
  rw [view_eq] at none
  by_contra there
  rw [if_neg there] at none
  cases none

/-! Compare and set -/

def conditionalWrite (user key prev new : Str) : KvCommand :=
  { com := .cput, usr := some user, key := key, value1 := prev, value2 := new }

/-- After any run of a live node, a conditional write ends with FINISHED exactly when it was
given the current value, which it then replaces. It changes no other value. -/
theorem cput_compare_and_set {n t : Node} {events : List Event} (started : Started n)
    (plain : ∀ e ∈ events, Plain e.2) (h : run turn n events = some t) (env : Surroundings)
    {user : Str} (name : UserName user) (key prev new : Str) (ret : KvRet) :
    ∃ m ret' forwards,
      runCommand env t (conditionalWrite user key prev new) ret = some (m, ret', forwards) ∧
      (ret'.status = .finished ↔ cur t user key = prev) ∧
      (ret'.status = .finished → cur m user key = new ∧
        ∀ a b, UserName a → ¬ (a = user ∧ b = key) → cur m a b = cur t a b) ∧
      (ret'.status ≠ .finished → ret'.status = .valueError ∧
        ∀ a b, UserName a → cur m a b = cur t a b) := by
  obtain ⟨S, live⟩ := live_started started
  obtain ⟨S', live⟩ := run_live live plain h
  obtain ⟨m, done, ends⟩ := cput_outcome live (c := conditionalWrite user key prev new) rfl
    name env ret
  have values : ∀ a b, UserName a → cur m a b =
      if cur t user key = prev ∧ user = a ∧ key = b then new else cur t a b := by
    intro a b ha
    rw [outcome_values live ends ha]
    by_cases same : cur t user key = prev
    · simp [settles, written, overwritten, conditionalWrite, KvCommand.user, same]
    · simp [settles, overwritten, conditionalWrite, KvCommand.user, same]
  simp only [conditionalWrite, KvCommand.user, Option.getD_some] at done
  refine ⟨m, _, _, done, ?_, fun finished => ?_, fun failed => ?_⟩
  · by_cases same : cur t user key = prev
    · simp [same]
    · simp [same]
  · have same : cur t user key = prev := by
      by_contra ne
      simp [ne] at finished
    refine ⟨?_, fun a b ha ne => ?_⟩
    · rw [values user key name]
      exact if_pos ⟨same, rfl, rfl⟩
    · rw [values a b ha]
      exact if_neg fun h => ne ⟨h.2.1.symm, h.2.2.symm⟩
  · have ne : cur t user key ≠ prev := by
      intro same
      simp [same] at failed
    refine ⟨?_, fun a b ha => ?_⟩
    · simp [ne]
    · rw [values a b ha]
      exact if_neg fun h => ne h.1

/-- A value that was read is replaced. -/
theorem cput_after_puts : ∃ t m ret forwards,
    run turn (smallNode [bob]) [(surroundings,
      { com := .puts, usr := some bob, key := pwd, value1 := "one".toList })] = some t ∧
    runCommand surroundings t (conditionalWrite bob pwd "one".toList "two".toList)
      ⟨.finished, [], []⟩ = some (m, ret, forwards) ∧
    ret.status = .finished ∧ cur m bob pwd = "two".toList := by
  have outcome : ((run turn (smallNode [bob]) [(surroundings,
      { com := .puts, usr := some bob, key := pwd, value1 := "one".toList })]).map
        fun t => cur t bob pwd) = some "one".toList := by decide +kernel
  obtain ⟨t, ht, value⟩ := Option.map_eq_some_iff.mp outcome
  have name := userName_bob
  have line : OneLine pwd := by decide
  obtain ⟨m, ret, forwards, done, status, changed, -⟩ := cput_compare_and_set started_smallNode
    (fun e mem => by
      rw [List.mem_singleton.mp mem]
      exact ⟨name, line⟩) ht surroundings name pwd "one".toList "two".toList
    ⟨.finished, [], []⟩
  have finished := status.mpr value
  exact ⟨t, m, ret, forwards, ht, done, finished, (changed finished).1⟩

end LiveNode
