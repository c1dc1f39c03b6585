import PennCloud.LiveNode
import PennCloud.ServedFiles

/-!
# The storage service on a live node

A primary answers the calls of a service as the store does that the files of a user are
stored in, while it serves other clients and saves checkpoints. So every request does on
a node what the service is for.
-/

namespace NodeStorage

open Text KvInterface UnorderedMap KvCache KvStore CacheSteps Runs ChunkFormat ChunkFolder NodeDisk
  StoreView Acknowledgement LiveNode Dialogue StorageHandler FileService StoredFiles StorageIsolation
open ChunkOverlay (UserName)
open StorageMetadata (Env)
open ServedFiles (serveAll reaches_serveAll AllRegular)

/-- `kv_gets`, `kv_puts`, `kv_cput` and `kv_dele`. -/
def command : KvCall → KvCommand
  | .gets usr key => { com := .gets, usr := some usr, key := key }
  | .puts usr key value => { com := .puts, usr := some usr, key := key, value1 := value }
  | .cput usr key prevValue newValue =>
    { com := .cput, usr := some usr, key := key, value1 := prevValue, value2 := newValue }
  | .dele usr key => { com := .dele, usr := some usr, key := key }

/-- A command of another client, which leaves these keys of the user alone. -/
def Elsewhere (mine : Str → Prop) (usr : Str) (c : KvCommand) : Prop :=
  Plain c ∧ (c.user = usr → mine c.key → c.com ≠ .puts ∧ c.com ≠ .cput ∧ c.com ≠ .dele)

/-- A primary answers a call, after commands of others. -/
def AnsweredBy (mine : Str → Prop) (usr : Str) (n : Node) (call : KvCall) (reply : KvReply)
    (m : Node) : Prop :=
  ∃ events p env done ret, (∀ e ∈ events, Elsewhere mine usr e.2) ∧ run turn n events = some p ∧
    handleConnect env p (command call) = some done ∧ done.reply = some ret ∧
    reply = ⟨ret.status, ret.value⟩ ∧ m = done.node

/-- The node is live, and its values are these. -/
structure Keeps (v : Values) (n : Node) : Prop where
  live : ∃ S, Live n S
  values : ∀ user key, UserName user → v user key = cur n user key

/-- The files of the user are stored on a live node. -/
structure KeepsFiles (usr : Str) (fs : UserFiles) (n : Node) : Prop where
  live : ∃ S, Live n S
  stores : Stores usr fs (cur n)

section Replies
variable {n : Node} {S : Folders}

/-- What a turn replies is what its command ends with. -/
theorem handleConnect_reply {env : Surroundings} {c : KvCommand} {done : Turn} {ret : KvRet}
    (answered : handleConnect env n c = some done) (reply : done.reply = some ret) :
    ∃ m forwards, runCommand env { n with lastCheckpointTime := n.lastCheckpointTime + 1 } c
      ⟨.finished, [], []⟩ = some (m, ret, forwards) := by
  obtain ⟨first, ran, saved⟩ := Option.bind_eq_some_iff.mp answered
  obtain ⟨⟨m, ret', forwards⟩, ends, same⟩ := Option.map_eq_some_iff.mp ran
  have replied : first.reply = some ret := by
    split at saved
    · obtain ⟨copy, -, rfl⟩ := Option.map_eq_some_iff.mp saved
      exact reply
    · cases saved
      exact reply
  rw [← same] at replied
  split at replied
  · cases replied
    exact ⟨m, forwards, ends⟩
  · cases replied

/-- A value that is there is found. -/
theorem gets_found (sound : Sound n S) {user key : Str} (name : UserName user)
    (there : cur n user key ≠ []) : ∃ m, n.gets user key = some (.finished, cur n user key, m) := by
  obtain ⟨status, m, answer, -, -, -, cached⟩ := gets_sound sound name key
  by_cases known : find2 n.cache.readCache user key ≠ none ∨ find2 n.cache.updatesCache user key ≠ none
  · obtain rfl := cached known
    exact ⟨m, answer⟩
  · rw [not_or, not_not, not_not] at known
    obtain ⟨unread, fresh⟩ := known
    obtain ⟨status', chunk, finished⟩ := chunkAnswer_disk sound.disk name key
    have loads := gets_loaded unread fresh
    rw [chunk, answer] at loads
    have value := cur_disk sound.disk name key
    rw [fresh] at value
    have stored : stored S user key ≠ none := by
      intro none
      rw [none] at value
      exact there value
    obtain rfl := finished.mpr stored
    obtain ⟨rfl, -⟩ := Prod.mk.inj (Option.some.inj loads)
    exact ⟨m, answer⟩

theorem gets_outcome (live : Live n S) {c : KvCommand} (com : c.com = .gets) (name : UserName c.user)
    (env : Surroundings) (ret : KvRet) : ∃ status m, runCommand env n c ret = some (m,
        { ret with status := status, value := cur n c.user c.key }, []) ∧
      (cur n c.user c.key ≠ [] → status = .finished) := by
  obtain ⟨status, m, answer, -⟩ := gets_sound live.sound name c.key
  refine ⟨status, m, ?_, fun there => ?_⟩
  · unfold runCommand
    simp only [com, live.alive, reduceCtorEq, false_and, if_false, Bool.false_eq_true, answer,
      Option.map_some]
  · obtain ⟨m', found⟩ := gets_found live.sound name there
    cases answer.symm.trans found
    rfl

/-- The reply of a turn is an answer of the store. -/
theorem answers_of_reply (live : Live n S) {env : Surroundings} {call : KvCall} {done : Turn}
    {ret : KvRet} (plain : Plain (command call))
    (answered : handleConnect env n (command call) = some done) (reply : done.reply = some ret) :
    ∃ w, Answers (fun user key => cur n user key) call ⟨ret.status, ret.value⟩ w ∧
      ∀ user key, UserName user → w user key = cur done.node user key := by
  obtain ⟨m, forwards, ends⟩ := handleConnect_reply answered reply
  have turned : turn n (env, command call) = some done.node := by
    rw [turn, answered]
    rfl
  have effect : ∀ user key, UserName user → cur done.node user key =
      effectOn user key (cur n user key) (command call) :=
    fun user key name => turn_effect live plain turned name key
  have counted := quiet_counted live
  obtain ⟨S', live'⟩ := counted.live
  cases call with
  | gets usr key =>
    have name : UserName usr := plain.1
    have same := counted.values name key
    obtain ⟨status, m', ran, found⟩ := gets_outcome live' (c := command (.gets usr key)) rfl name env
      ⟨.finished, [], []⟩
    cases ends.symm.trans ran
    show ∃ w, Answers _ _ ⟨status, cur _ usr key⟩ w ∧ _
    change cur _ usr key ≠ [] → _ at found
    rw [same] at found ⊢
    refine ⟨_, .got found, fun a b known => ?_⟩
    rw [effect a b known, effectOn]
    split
    · rfl
    · rfl
  | puts usr key value =>
    obtain ⟨m', ran, -⟩ := puts_outcome live' (c := command (.puts usr key value)) rfl env
      ⟨.finished, [], []⟩
    cases ends.symm.trans ran
    refine ⟨_, .put, fun a b known => ?_⟩
    rw [effect a b known, Values.set, effectOn]
    exact if_congr (and_congr eq_comm eq_comm) rfl rfl
  | cput usr key prevValue newValue =>
    have name : UserName usr := plain.1
    have same := counted.values name key
    obtain ⟨m', ran, -⟩ := cput_outcome live' (c := command (.cput usr key prevValue newValue)) rfl
      name env ⟨.finished, [], []⟩
    cases ends.symm.trans ran
    show ∃ w, Answers _ _ ⟨if cur _ usr key = prevValue then _ else _, _⟩ w ∧ _
    rw [same]
    by_cases expected : cur n usr key = prevValue
    · rw [if_pos expected]
      refine ⟨_, .swapped expected, fun a b known => ?_⟩
      rw [effect a b known, Values.set, effectOn]
      by_cases pair : a = usr ∧ b = key
      · obtain ⟨rfl, rfl⟩ := pair
        rw [if_pos ⟨rfl, rfl⟩, if_pos ⟨rfl, rfl⟩]
        exact (if_pos expected).symm
      · rw [if_neg pair, if_neg fun no => pair ⟨no.1.symm, no.2.symm⟩]
    · rw [if_neg expected]
      refine ⟨_, .kept expected (by decide), fun a b known => ?_⟩
      rw [effect a b known, effectOn]
      split
      · rename_i pair
        obtain ⟨rfl, rfl⟩ := pair
        exact (if_neg expected).symm
      · rfl
  | dele usr key =>
    obtain ⟨m', ran, -⟩ := dele_outcome live' (c := command (.dele usr key)) rfl env
      ⟨.finished, [], []⟩
    cases ends.symm.trans ran
    refine ⟨_, .removed, fun a b known => ?_⟩
    rw [effect a b known, Values.set, effectOn]
    exact if_congr (and_congr eq_comm eq_comm) rfl rfl

end Replies

/-! Others -/

section Others
variable {mine : Str → Prop} {usr : Str} {n p : Node} {S : Folders}

theorem effectOn_elsewhere {c : KvCommand} (elsewhere : Elsewhere mine usr c) {key : Str}
    (own : mine key) (value : Str) : effectOn usr key value c = value := by
  rw [effectOn]
  split
  · rename_i pair
    obtain ⟨puts, cput, dele⟩ := elsewhere.2 pair.1 (pair.2 ▸ own)
    split
    · rename_i com
      exact absurd com puts
    · rename_i com
      exact absurd com cput
    · rename_i com
      exact absurd com dele
    · rfl
  · rfl

/-- The commands of others leave what the user has as it is. -/
theorem sameAt_run (live : Live n S) (name : UserName usr) {events : List Event}
    (elsewhere : ∀ e ∈ events, Elsewhere mine usr e.2) (ran : run turn n events = some p) :
    SameAt mine usr (cur n) (cur p) := by
  intro key own
  rw [run_effect live (fun e mem => (elsewhere e mem).1) ran name key]
  clear ran
  induction events with
  | nil => rfl
  | cons e events ih =>
    obtain ⟨first, later⟩ := List.forall_mem_cons.mp elsewhere
    rw [List.map_cons, List.foldl_cons, effectOn_elsewhere first own, ih later]

theorem oneLine_of_storage {key : Str} (mine : OfStorage key) : OneLine key := by
  rcases mine with rfl | ⟨id, rfl⟩
  · decide
  · exact newline_notMem_toDecimal id

theorem plain_command (name : UserName usr) {call : KvCall} (own : Own usr call) :
    Plain (command call) := by
  obtain ⟨user, mine⟩ := own
  have line := oneLine_of_storage mine
  cases call with
  | gets | puts | cput | dele =>
    obtain rfl := user
    exact ⟨name, line⟩

/-- Whatever a primary answers, the store may answer amid the calls of others. -/
theorem amid_of_answeredBy (name : UserName usr) {v : Values} {call : KvCall} {reply : KvReply}
    {m : Node} (keeps : Keeps v n) (plain : Plain (command call))
    (answered : AnsweredBy mine usr n call reply m) :
    ∃ w, AmidOthers mine usr v call reply w ∧ Keeps w m := by
  obtain ⟨events, p, env, done, ret, elsewhere, ran, ends, replied, rfl, rfl⟩ := answered
  obtain ⟨S, live⟩ := keeps.live
  obtain ⟨S', live'⟩ := run_live live (fun e mem => (elsewhere e mem).1) ran
  have turned : turn p (env, command call) = some done.node := by
    rw [turn, ends]
    rfl
  obtain ⟨w, answers, values⟩ := answers_of_reply live' plain ends replied
  obtain ⟨S'', -, live'', -⟩ := turn_live live' plain turned
  refine ⟨w, ⟨cur p, fun key own => ?_, answers⟩, ⟨S'', live''⟩, values⟩
  rw [keeps.values usr key name]
  exact sameAt_run live name elsewhere ran key own

end Others

/-! Sessions -/

section Sessions
variable {usr : Str} {fs : UserFiles} {n : Node} {reqs : List (Env × Int × StorageServiceReq)}

/-- A user whose files are stored on a node is served as in any store. -/
theorem reaches_node {α : Type} {p : Service α} {post : Values → α → Prop} (name : UserName usr)
    (live : ∃ S, Live n S) (own : Anyway usr p fun _ => True)
    (reaches : p.Reaches False (Amid usr) (cur n) post) :
    p.Reaches False (AnsweredBy OfStorage usr) n fun m result => ∃ w, Keeps w m ∧ post w result :=
  reaches.simulate own ⟨live, fun _ _ _ => rfl⟩ fun keeps own answered =>
    amid_of_answeredBy name keeps (plain_command name own) answered

theorem anyway_serveAll (usr : Str) (reqs : List (Env × Int × StorageServiceReq)) :
    Anyway usr (serveAll usr reqs) fun _ => True := by
  induction reqs with
  | nil => trivial
  | cons r reqs ih =>
    refine respects_bind ((anyway_serve r.1 usr r.2.1 r.2.2).mono fun resp _ => ?_)
    exact respects_bind (ih.mono fun _ _ => trivial)

/-- On a live node, the service performs the requests of a user one after the other, while other
clients write what they like elsewhere, and checkpoints are saved between any two calls. -/
theorem serves_on_node (name : UserName usr) (keeps : KeepsFiles usr fs n)
    (regular : AllRegular fs.made reqs) :
    (serveAll usr reqs).Reaches False (AnsweredBy OfStorage usr) n fun m resps => ∃ fs',
      PerformsAll usr fs (reqs.map fun r => r.2.2) resps fs' ∧ KeepsFiles usr fs' m := by
  refine (reaches_node name keeps.live (anyway_serveAll usr reqs)
    (reaches_serveAll keeps.stores regular)).mono ?_
  rintro m resps ⟨w, kept, fs', performs, stores⟩
  refine ⟨fs', performs, kept.live, stores.same fun key _ => ?_⟩
  exact (kept.values usr key name).symm

/-- The root folder of a user is stored on a live node that holds nothing of his storage. -/
theorem keepsFiles_new {S : Folders} (live : Live n S) (name : UserName usr)
    (letters : ∀ c ∈ usr, StorageMetadata.pathChar c = true ∧ c ≠ '/')
    (empty : ∀ key, cur n usr key = []) {env : Surroundings} {m : Node}
    (turned : turn n (env, command (.puts usr kMetadataFp
      (SharedMetadata.initialMetadata usr))) = some m) : KeepsFiles usr noFiles m := by
  have plain : Plain (command (.puts usr kMetadataFp
      (SharedMetadata.initialMetadata usr))) := ⟨name, oneLine_of_storage ofStorage_metadata⟩
  obtain ⟨S', -, live', -⟩ := turn_live live plain turned
  have effect : ∀ key, cur m usr key = _ := turn_effect live plain turned name
  refine ⟨⟨S', live'⟩, stores_noFiles name.plain.nonempty letters ?_ fun id => ?_⟩
  · rw [effect, effectOn, if_pos ⟨rfl, rfl⟩]
    rfl
  · rw [effect, effectOn, if_neg fun no => StorageFailure.metadata_ne_decimal id no.2.symm, empty]

/-- Bob uploads a file to a small node and downloads it. -/
theorem bob_served_on_node : ∃ n, KeepsFiles bob noFiles n ∧
    (serveAll bob [(MetadataRoundTrip.deepEnv, 3, ⟨.fileUpload, .fileUploadReq "/f".toList "x".toList⟩),
      (MetadataRoundTrip.deepEnv, 3, ⟨.fileDownload, .fileDownloadReq "/f".toList⟩)]).Reaches False
      (AnsweredBy OfStorage bob) n fun m resps => ∃ fs', PerformsAll bob noFiles
        [⟨.fileUpload, .fileUploadReq "/f".toList "x".toList⟩,
          ⟨.fileDownload, .fileDownloadReq "/f".toList⟩] resps fs' ∧ KeepsFiles bob fs' m := by
  obtain ⟨S, live⟩ := live_started started_servingNode
  have ends : (turn servingNode (surroundings, command (.puts bob kMetadataFp
      (SharedMetadata.initialMetadata bob)))).isSome := by decide +kernel
  obtain ⟨n, turned⟩ := Option.isSome_iff_exists.mp ends
  have keeps := keepsFiles_new live userName_bob (by decide) cur_servingNode turned
  refine ⟨n, keeps, serves_on_node userName_bob keeps fun r mem => ?_⟩
  have enough : INT_MAX < MetadataRoundTrip.deepEnv.fuel := Nat.lt_succ_self _
  simp only [List.mem_cons, List.not_mem_nil, or_false] at mem
  rcases mem with rfl | rfl
  · exact ⟨enough, by decide, by decide⟩
  · exact ⟨enough, fun trailing => absurd trailing (by decide)⟩

end Sessions

end NodeStorage
