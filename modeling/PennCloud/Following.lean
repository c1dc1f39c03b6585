import PennCloud.Replication

/-!
# A secondary that follows the primary

A secondary that handles what the primary forwards, in the order in which it
was sent, runs the writes and the checkpoints of the primary. A relation of two
live nodes that a write or a checkpoint on both of them keeps, and a read on the
first, is then kept by a run of the primary.
-/

namespace Following

open Text FileTree KvInterface UnorderedMap ChunkFiles KvCache KvStore LogReplay CacheSteps Runs
  ChunkFormat ChunkFolder NodeDisk StoreView Acknowledgement LiveNode Replication
open ChunkOverlay (UserName overlaid)

/-- The node is the first of its cluster, and lists the other node once. -/
structure Leader (n : Node) (address : Address) : Prop where
  primary : n.isPrimary = true
  first : ∃ a, n.secondary.head? = some a ∧ a.port = n.port
  lists : Replication.Lists n address

/-- What a relation between a primary and a secondary must be kept by. -/
structure Keeps (R : Node → Node → Prop) : Prop where
  counted : ∀ p q k l, R p q →
    R { p with lastCheckpointTime := k } { q with lastCheckpointTime := l }
  read : ∀ p m S (c : KvCommand) env ret ret' forwards, Live p S → R p m → Plain c →
    written c = none → c.com ≠ .ckpt → ∀ p', runCommand env p c ret = some (p', ret', forwards) →
    R p' m
  write : ∀ p q S S' (c : KvCommand) env env' ret, Live p S → Live q S' → R p q → Plain c →
    written c ≠ none → ∀ p' q' ret₁ ret₂ forwards forwards',
    runCommand env p c ret = some (p', ret₁, forwards) →
    runCommand env' q c ret = some (q', ret₂, forwards') → R p' q'
  save : ∀ p q S S' it it', Live p S → Live q S' → R p q → ∀ p' q' forwards forwards',
    Node.checkpointCopy p it = some (p', forwards) →
    Node.checkpointCopy q it' = some (q', forwards') → R p' q'

/-- The command that is forwarded when the primary runs the command. -/
def forwardOf (c : KvCommand) : List KvCommand :=
  if written c ≠ none then [c] else if c.com = .ckpt then [{ com := .ckpt }] else []

section Forwards
variable {n m : Node} {S : Folders} {address : Address}

theorem leader_cluster (leader : Leader n address)
    (same : m.port = n.port ∧ m.isPrimary = n.isPrimary ∧ m.secondary = n.secondary) :
    Leader m address := by
  obtain ⟨port, role, secondary⟩ := same
  refine ⟨role.trans leader.primary, ?_, ?_⟩
  · rw [secondary, port]
    exact leader.first
  · rw [Replication.Lists, secondary, port]
    exact leader.lists

/-- A checkpoint of the first node of the cluster is forwarded. -/
theorem deliveries_saved (leader : Leader n address) {it : Iteration Loop}
    {forwards : List Forward} (h : Node.checkpointCopy n it = some (m, forwards)) :
    deliveries address forwards = [{ com := .ckpt }] := by
  obtain ⟨a, head, port⟩ := leader.first
  rw [Node.checkpointCopy, head, Option.bind_some] at h
  obtain ⟨saved, -, h⟩ := Option.map_eq_some_iff.mp h
  cases h
  rw [if_pos port]
  exact deliveries_forward leader.lists _

theorem deliveries_command (live : Live n S) (leader : Leader n address) {c : KvCommand}
    (plain : Plain c) {env : Surroundings} {ret ret' : KvRet} {forwards : List Forward}
    (h : runCommand env n c ret = some (m, ret', forwards)) :
    deliveries address forwards = forwardOf c := by
  by_cases writes : written c = none
  · unfold forwardOf
    rw [if_neg (by simp [writes])]
    unfold runCommand at h
    cases com : c.com with
    | puts | cput | dele => simp [written, com] at writes
    | sync | cluster | kill | restart | other => simp [Plain, com] at plain
    | gets =>
      simp only [com, live.alive, reduceCtorEq, false_and, if_false, Bool.false_eq_true] at h ⊢
      obtain ⟨r, -, heq⟩ := Option.map_eq_some_iff.mp h
      cases heq
      rfl
    | all =>
      simp only [com, live.alive, reduceCtorEq, false_and, if_false, Bool.false_eq_true] at h ⊢
      split at h
      · cases h
        rfl
      · obtain ⟨r, -, heq⟩ := Option.map_eq_some_iff.mp h
        cases heq
        rfl
    | ckpt =>
      simp only [com, live.alive, reduceCtorEq, false_and, if_false, if_true,
        Bool.false_eq_true] at h ⊢
      obtain ⟨⟨p, sent⟩, saved, heq⟩ := Option.map_eq_some_iff.mp h
      cases heq
      exact deliveries_saved leader saved
  · rw [forwardOf, if_pos writes, runCommand_forwards live plain writes h, Node.forwarded,
      if_pos leader.primary]
    exact deliveries_forward leader.lists c

end Forwards

section Turns
variable {n m p q p' q' : Node} {S S' : Folders} {address : Address}

theorem outcome_cluster {c : KvCommand} {status : KvState} (outcome : Outcome n c status m) :
    m.port = n.port ∧ m.isPrimary = n.isPrimary ∧ m.secondary = n.secondary := by
  cases outcome with
  | @accepted p r quiet =>
    show p.port = n.port ∧ p.isPrimary = n.isPrimary ∧ p.secondary = n.secondary
    rw [quiet.rest]
    exact ⟨rfl, rfl, rfl⟩
  | @rejected p quiet =>
    show p.port = n.port ∧ p.isPrimary = n.isPrimary ∧ p.secondary = n.secondary
    rw [quiet.rest]
    exact ⟨rfl, rfl, rfl⟩
  | quiet status quiet =>
    rw [quiet.rest]
    exact ⟨rfl, rfl, rfl⟩
  | saved status ckpt done => exact checkpointCopy_cluster done

theorem runCommand_ckpt (live : Live n S) {c : KvCommand} (ckpt : c.com = .ckpt)
    {env : Surroundings} {ret ret' : KvRet} {forwards : List Forward}
    (h : runCommand env n c ret = some (m, ret', forwards)) :
    Node.checkpointCopy n env.it = some (m, forwards) := by
  unfold runCommand at h
  simp only [ckpt, live.alive, reduceCtorEq, false_and, if_false, Bool.false_eq_true] at h
  obtain ⟨⟨p, sent⟩, saved, heq⟩ := Option.map_eq_some_iff.mp h
  cases heq
  exact saved

/-- A secondary runs the command and makes no checkpoint of its own. -/
theorem turn_secondary (live : Live q S) (secondary : q.isPrimary = false) {e : Event}
    (plain : Plain e.2) (h : turn q e = some q') :
    ∃ ret forwards, runCommand e.1 { q with lastCheckpointTime := q.lastCheckpointTime + 1 } e.2
      ⟨.finished, [], []⟩ = some (q', ret, forwards) := by
  obtain ⟨t, ht, rfl⟩ := Option.map_eq_some_iff.mp h
  obtain ⟨first, answered, ends⟩ := Option.bind_eq_some_iff.mp ht
  obtain ⟨⟨r, ret, forwards⟩, done, node⟩ := Option.map_eq_some_iff.mp answered
  obtain ⟨S', live'⟩ := (quiet_counted live).live
  have role := (outcome_cluster (runCommand_outcome live' plain done)).2.1
  have node : first.node = r := by rw [← node]
  have stays : ¬ (first.node.isPrimary = true ∧ first.node.lastCheckpointTime % 20 = 0) := by
    rw [node, role]
    simp [secondary]
  rw [if_neg stays] at ends
  cases ends
  exact ⟨ret, forwards, node ▸ done⟩

/-- Handling commands does not make the node primary. -/
theorem run_secondary {events : List Event} (live : Live q S) (plain : ∀ e ∈ events, Plain e.2)
    (h : run turn q events = some q') (secondary : q.isPrimary = false) : q'.isPrimary = false := by
  induction events generalizing q S with
  | nil =>
    cases h
    exact secondary
  | cons e es ih =>
    obtain ⟨r, hr, ends⟩ := run_cons_eq_some.mp h
    have first := plain e List.mem_cons_self
    obtain ⟨S', -, live', -⟩ := turn_live live first hr
    have role := (turn_cluster live first hr).2.1
    exact ih live' (fun d mem => plain d (List.mem_cons_of_mem e mem)) ends (role.trans secondary)

theorem run_single {arrivals : List Event} {c : KvCommand} (order : arrivals.map Prod.snd = [c])
    (handled : run turn q arrivals = some q') : ∃ env, turn q (env, c) = some q' := by
  obtain ⟨⟨env, d⟩, rfl, same⟩ := List.map_eq_singleton_iff.mp order
  obtain rfl : d = c := same
  obtain ⟨r, hr, ends⟩ := run_cons_eq_some.mp handled
  cases ends
  exact ⟨env, hr⟩

theorem plain_forwardOf {c : KvCommand} (plain : Plain c) : ∀ d ∈ forwardOf c, Plain d := by
  intro d mem
  unfold forwardOf at mem
  split at mem
  · rw [List.mem_singleton.mp mem]
    exact plain
  · split at mem
    · rw [List.mem_singleton.mp mem]
      trivial
    · cases mem

/-- A turn of the primary: the command, and maybe a checkpoint, each with what it sends. -/
theorem turn_leader (live : Live p S) (leader : Leader p address) {e : Event} (plain : Plain e.2)
    {t : Turn} (h : handleConnect e.1 p e.2 = some t) :
    ∃ r ret forwards, runCommand e.1 { p with lastCheckpointTime := p.lastCheckpointTime + 1 } e.2
        ⟨.finished, [], []⟩ = some (r, ret, forwards) ∧
      (t.node = r ∧ deliveries address t.forwards = forwardOf e.2 ∨
        ∃ copies, Node.checkpointCopy r e.1.it = some (t.node, copies) ∧
          deliveries address t.forwards = forwardOf e.2 ++ [{ com := .ckpt }]) := by
  obtain ⟨r, ret, forwards, done, saves⟩ := handleConnect_some h
  obtain ⟨S₁, counted⟩ := (quiet_counted live).live
  have leader' : Leader { p with lastCheckpointTime := p.lastCheckpointTime + 1 } address :=
    leader_cluster leader ⟨rfl, rfl, rfl⟩
  have sent := deliveries_command counted leader' plain done
  refine ⟨r, ret, forwards, done, ?_⟩
  rcases saves with ⟨node, all⟩ | ⟨copies, copied, all⟩
  · exact .inl ⟨node, all ▸ sent⟩
  · have leaderR := leader_cluster leader' (outcome_cluster (runCommand_outcome counted plain done))
    refine .inr ⟨copies, copied, ?_⟩
    rw [all, deliveries_append, sent, deliveries_saved leaderR copied]

theorem plain_turn (live : Live p S) (leader : Leader p address) {e : Event} (plain : Plain e.2)
    {t : Turn} (h : handleConnect e.1 p e.2 = some t) :
    ∀ d ∈ deliveries address t.forwards, Plain d := by
  obtain ⟨r, ret, forwards, -, ⟨-, sent⟩ | ⟨copies, -, sent⟩⟩ := turn_leader live leader plain h
  · rw [sent]
    exact plain_forwardOf plain
  · rw [sent]
    intro d mem
    rcases List.mem_append.mp mem with own | saved
    · exact plain_forwardOf plain d own
    · rw [List.mem_singleton.mp saved]
      trivial

theorem plain_arrivals {arrivals : List Event} {sent : List KvCommand}
    (plain : ∀ d ∈ sent, Plain d) (order : arrivals.map Prod.snd = sent) :
    ∀ e ∈ arrivals, Plain e.2 :=
  fun e mem => plain e.2 (order ▸ List.mem_map_of_mem mem)

section Keeps
variable {R : Node → Node → Prop} (keeps : Keeps R)
include keeps

theorem keeps_saved (live : Live p S) (live' : Live q S') (related : R p q)
    (secondary : q.isPrimary = false) {it : Iteration Loop} {forwards : List Forward}
    (h : Node.checkpointCopy p it = some (p', forwards)) {arrivals : List Event}
    (order : arrivals.map Prod.snd = [{ com := .ckpt }])
    (handled : run turn q arrivals = some q') : R p' q' := by
  obtain ⟨env, ran⟩ := run_single order handled
  obtain ⟨ret, copies, done⟩ := turn_secondary live' secondary (e := (env, { com := .ckpt }))
    trivial ran
  obtain ⟨S₁, counted⟩ := (quiet_counted live').live
  have saved := runCommand_ckpt counted rfl done
  have related' := keeps.counted p q p.lastCheckpointTime (q.lastCheckpointTime + 1) related
  exact keeps.save _ _ _ _ _ _ live counted related' _ _ _ _ h saved

/-- The first half of a turn of the primary. -/
theorem keeps_command (live : Live p S) (live' : Live q S') (related : R p q)
    (secondary : q.isPrimary = false) {c : KvCommand} (plain : Plain c) {env : Surroundings}
    {ret : KvRet} {forwards : List Forward}
    (h : runCommand env p c ⟨.finished, [], []⟩ = some (p', ret, forwards)) {arrivals : List Event}
    (order : arrivals.map Prod.snd = forwardOf c) (handled : run turn q arrivals = some q') :
    R p' q' := by
  by_cases writes : written c = none
  · by_cases ckpt : c.com = .ckpt
    · have saved := runCommand_ckpt live ckpt h
      rw [forwardOf, if_neg (by simp [writes]), if_pos ckpt] at order
      exact keeps_saved keeps live live' related secondary saved order handled
    · rw [forwardOf, if_neg (by simp [writes]), if_neg ckpt, List.map_eq_nil_iff] at order
      subst order
      cases handled
      exact keeps.read _ _ _ _ _ _ _ _ live related plain writes ckpt _ h
  · rw [forwardOf, if_pos writes] at order
    obtain ⟨env', ran⟩ := run_single order handled
    obtain ⟨ret', copies, done⟩ := turn_secondary live' secondary (e := (env', c)) plain ran
    obtain ⟨S₁, counted⟩ := (quiet_counted live').live
    have related' := keeps.counted p q p.lastCheckpointTime (q.lastCheckpointTime + 1) related
    exact keeps.write _ _ _ _ _ _ _ _ live counted related' plain writes _ _ _ _ _ _ h done

/-- A turn of the primary, and the commands that reach the other node meanwhile. -/
theorem keeps_turn (live : Live p S) (live' : Live q S') (related : R p q)
    (leader : Leader p address) (secondary : q.isPrimary = false) {e : Event}
    (plain : Plain e.2) {t : Turn} (h : handleConnect e.1 p e.2 = some t) {arrivals : List Event}
    (order : arrivals.map Prod.snd = deliveries address t.forwards)
    (handled : run turn q arrivals = some q') : R t.node q' := by
  obtain ⟨r, ret, forwards, done, ends⟩ := turn_leader live leader plain h
  obtain ⟨S₁, counted⟩ := (quiet_counted live).live
  have related' := keeps.counted p q (p.lastCheckpointTime + 1) q.lastCheckpointTime related
  rcases ends with ⟨node, sent⟩ | ⟨copies, copied, sent⟩
  · rw [node]
    exact keeps_command keeps counted live' related' secondary plain done (order.trans sent) handled
  · obtain ⟨S₂, liveR⟩ := outcome_live counted plain (runCommand_outcome counted plain done)
    rw [sent] at order
    obtain ⟨first, second, rfl, order, order'⟩ := List.map_eq_append_iff.mp order
    rw [run_append] at handled
    obtain ⟨q₁, ran, ran'⟩ := Option.bind_eq_some_iff.mp handled
    have plainFirst := plain_arrivals (plain_forwardOf plain) order
    obtain ⟨S₃, liveQ⟩ := run_live live' plainFirst ran
    have middle := keeps_command keeps counted live' related' secondary plain done order ran
    exact keeps_saved keeps liveR liveQ middle (run_secondary live' plainFirst ran secondary) copied
      order' ran'

/-- What a run of the primary keeps when the other node handles everything it is sent, in the
order in which it was sent. -/
theorem keeps_run {events arrivals : List Event} {forwards : List Forward} (live : Live p S)
    (live' : Live q S') (related : R p q) (leader : Leader p address)
    (secondary : q.isPrimary = false) (plain : ∀ e ∈ events, Plain e.2)
    (executed : execute p events = some (p', forwards))
    (order : arrivals.map Prod.snd = deliveries address forwards)
    (handled : run turn q arrivals = some q') :
    R p' q' ∧ (∃ S₁, Live q' S₁) ∧ q'.isPrimary = false := by
  induction events generalizing p q S S' arrivals forwards with
  | nil =>
    cases executed
    obtain rfl : arrivals = [] := List.map_eq_nil_iff.mp order
    cases handled
    exact ⟨related, ⟨S', live'⟩, secondary⟩
  | cons e es ih =>
    obtain ⟨t, ht, rest⟩ := Option.bind_eq_some_iff.mp executed
    obtain ⟨⟨p₁, later⟩, hr, heq⟩ := Option.map_eq_some_iff.mp rest
    cases heq
    rw [deliveries_append] at order
    obtain ⟨first, second, rfl, order, order'⟩ := List.map_eq_append_iff.mp order
    rw [run_append] at handled
    obtain ⟨q₁, ran, ran'⟩ := Option.bind_eq_some_iff.mp handled
    have own := plain e List.mem_cons_self
    have step : turn p e = some t.node := by rw [turn, ht]; rfl
    obtain ⟨S₁, -, liveP, -⟩ := turn_live live own step
    have arrives := plain_arrivals (plain_turn live leader own ht) order
    obtain ⟨S₂, liveQ⟩ := run_live live' arrives ran
    have related' := keeps_turn keeps live live' related leader secondary own ht order ran
    have leader' := leader_cluster leader (turn_cluster live own step)
    exact ih liveP liveQ related' leader' (run_secondary live' arrives ran secondary)
      (fun d mem => plain d (List.mem_cons_of_mem e mem)) hr order' ran'

end Keeps

end Turns

/-! A write on both nodes -/

section Writes
variable {p q p' q' : Node} {S S' : Folders}

/-- Two live nodes with the same value of the pair both accept the write, or both turn it away. -/
inductive Both (p q : Node) : Node → Node → Prop where
  | wrote {p₁ q₁ : Node} {r r' : Record} (quiet : Quiet p p₁) (quiet' : Quiet q q₁)
      (user : r'.user = r.user) (key : r'.key = r.key) (written : r'.written = r.written)
      (next : r.seqNum = p.cache.sequenceId + 1) (next' : r'.seqNum = q.cache.sequenceId + 1) :
      Both p q (wrote p₁ r) (wrote q₁ r')
  | bumped {p₁ q₁ : Node} (quiet : Quiet p p₁) (quiet' : Quiet q q₁) :
      Both p q (bumped p₁) (bumped q₁)

theorem both_of_outcomes {c : KvCommand} {status status' : KvState} (writes : written c ≠ none)
    (same : cur q c.user c.key = cur p c.user c.key) (first : Outcome p c status p')
    (second : Outcome q c status' q') : Both p q p' q' := by
  have notSaved : c.com ≠ .ckpt := by
    intro com
    simp [written, com] at writes
  cases first with
  | accepted quiet user key next write expected =>
    cases second with
    | accepted quiet' user' key' next' write' expected' =>
      rw [write] at write'
      obtain ⟨sameUser, rest⟩ := Prod.mk.inj (Option.some.inj write')
      obtain ⟨sameKey, sameValue⟩ := Prod.mk.inj rest
      exact .wrote quiet quiet' sameUser.symm sameKey.symm sameValue.symm next next'
    | rejected quiet' conditional other =>
      rw [same] at other
      exact absurd (expected conditional) other
    | quiet status quiet' none => exact absurd none writes
    | saved status com => exact absurd com notSaved
  | rejected quiet conditional other =>
    cases second with
    | accepted quiet' user' key' next' write' expected' =>
      rw [← same] at other
      exact absurd (expected' conditional) other
    | rejected quiet' => exact .bumped quiet quiet'
    | quiet status quiet' none => exact absurd none writes
    | saved status com => exact absurd com notSaved
  | quiet status quiet none => exact absurd none writes
  | saved status com => exact absurd com notSaved

/-- The nodes have the same sequence number and the same value of each pair. -/
structure Matches (p q : Node) : Prop where
  sequenceId : q.cache.sequenceId = p.cache.sequenceId
  values : ∀ user key, UserName user → cur q user key = cur p user key

theorem matches_quiet (related : Matches p q) (quiet : Quiet p p') (quiet' : Quiet q q') :
    Matches p' q' := by
  constructor
  · rw [quiet.sequenceId, quiet'.sequenceId, related.sequenceId]
  · intro user key name
    rw [quiet.values name, quiet'.values name, related.values user key name]

theorem matches_both (related : Matches p q) (both : Both p q p' q') : Matches p' q' := by
  cases both with
  | @wrote p₁ q₁ r r' quiet quiet' user key written next next' =>
    obtain ⟨S, live⟩ := quiet.live
    obtain ⟨S', live'⟩ := quiet'.live
    have before := matches_quiet related quiet quiet'
    constructor
    · show r'.seqNum = r.seqNum
      rw [next, next', related.sequenceId]
    · intro a b name
      rw [cur_wrote live.sound.disk r name, cur_wrote live'.sound.disk r' name, user, key, written,
        before.values a b name]
  | bumped quiet quiet' =>
    have before := matches_quiet related quiet quiet'
    constructor
    · exact congrArg (· + 1) before.sequenceId
    · exact fun a b name => before.values a b name

end Writes

/-- Reads, writes and checkpoints keep two nodes at the same values. -/
theorem keeps_matches : Keeps Matches := by
  constructor
  · intro p q k l related
    exact ⟨related.sequenceId, related.values⟩
  · intro p q S c env ret ret' forwards live related plain reads notSaved p' done
    have outcome := runCommand_outcome live plain done
    generalize ret'.status = status at outcome
    cases outcome with
    | accepted quiet user key next write => simp [reads] at write
    | rejected quiet conditional => simp [written, conditional] at reads
    | quiet status quiet =>
      exact ⟨related.sequenceId.trans quiet.sequenceId.symm, fun user key name =>
        (related.values user key name).trans (quiet.values name key).symm⟩
    | saved status com => exact absurd com notSaved
  · intro p q S S' c env env' ret live live' related plain writes p' q' ret₁ ret₂ forwards forwards'
      first second
    obtain ⟨w, write⟩ := Option.ne_none_iff_exists'.mp writes
    have name := (written_plain plain write).1
    exact matches_both related (both_of_outcomes writes (related.values _ _ name)
      (runCommand_outcome live plain first) (runCommand_outcome live' plain second))
  · intro p q S S' it it' live live' related p' q' forwards forwards' first second
    constructor
    · rw [(checkpointCopy_sound live.sound first).1, (checkpointCopy_sound live'.sound second).1]
      exact related.sequenceId
    · intro user key name
      rw [(saved_live live first).2 user key name, (saved_live live' second).2 user key name,
        related.values user key name]

/-! The folders of the users -/

/-- The command makes a folder for the user, if there is none. -/
def SignsUp (c : KvCommand) (user : Str) : Prop :=
  c.com = .cput ∧ c.key = "pwd".toList ∧ c.value1 = [] ∧ c.user = user

instance (c : KvCommand) (user : Str) : Decidable (SignsUp c user) :=
  inferInstanceAs (Decidable (_ ∧ _))

/-- What stands at the place of the user's folder. -/
def folderOf (n : Node) (user : Str) : Option Entry := n.fs.lookup (userPath n.port user)

section Folders
variable {n m p : Node} {S : Folders} {user : Str}

theorem log_apart {port : Nat} (notLog : user ≠ logName) :
    ¬ resolve (kLogFp port) <+: userPath port user := by
  intro above
  rw [← userPath_log] at above
  exact notLog (userPath_apart (List.prefix_refl _) above)

theorem folderOf_wrote (n : Node) (r : Record) (notLog : user ≠ logName) :
    folderOf (wrote n r) user = folderOf n user :=
  apply_outside n.fs (.append n.logPath r.text) (log_apart notLog)

theorem folderOf_prepareCput {c : KvCommand} (name : UserName c.user) (known : UserName user)
    (parent : n.fs.lookup (home n.port) = some .dir) (h : Node.prepareCput n c = some p) :
    folderOf p user = if (c.key = "pwd".toList ∧ c.value1 = [] ∧ c.user = user) ∧
      folderOf n user = none then some .dir else folderOf n user := by
  obtain ⟨⟨status, value, r⟩, answer, rfl⟩ := Option.map_eq_some_iff.mp h
  have fs : r.fs = n.fs := by rw [(readOf_gets answer).rest]
  have port : r.port = n.port := by rw [(readOf_gets answer).rest]
  have folder : resolve (PREFIX n.port ++ c.user) = userPath n.port c.user :=
    resolve_PREFIX n.port name.plain
  have unchanged : folderOf r user = folderOf n user := by rw [folderOf, folderOf, fs, port]
  by_cases signsUp : c.key = "pwd".toList ∧
      n.fs.lookup (resolve (PREFIX n.port ++ c.user)) = none ∧ c.value1 = []
  · rw [if_pos signsUp]
    obtain ⟨isPwd, absent, empty⟩ := signsUp
    rw [folder] at absent ⊢
    have above : n.fs.lookup (userPath n.port c.user).dropLast = some .dir := by
      rw [userPath, List.dropLast_concat]
      exact parent
    have made : Effect.apply n.fs (.makeDir (userPath n.port c.user)) =
        n.fs.insert (userPath n.port c.user) .dir := if_pos ⟨absent, above⟩
    show (Effect.apply r.fs (.makeDir (userPath n.port c.user))).lookup (userPath r.port user) = _
    rw [fs, port, made]
    by_cases same : c.user = user
    · subst same
      rw [if_pos ⟨⟨isPwd, empty, rfl⟩, absent⟩, AList.lookup_insert]
    · have apart : userPath n.port user ≠ userPath n.port c.user := by
        intro paths
        have below : userPath n.port c.user <+: userPath n.port user := by rw [paths]
        exact same (userPath_apart below (List.prefix_refl _))
      rw [if_neg fun signs => same signs.1.2.2, AList.lookup_insert_ne apart]
      rfl
  · rw [if_neg signsUp]
    split
    · rename_i signs
      obtain ⟨⟨isPwd, empty, same⟩, absent⟩ := signs
      rw [← same] at absent
      refine absurd ⟨isPwd, ?_, empty⟩ signsUp
      rw [folder]
      exact absent
    · exact unchanged

/-- A command changes the place of a folder when it signs the user up, and only then. -/
theorem folderOf_command (live : Live n S) {c : KvCommand} (plain : Plain c)
    (notSaved : c.com ≠ .ckpt) {env : Surroundings} {ret ret' : KvRet} {forwards : List Forward}
    (h : runCommand env n c ret = some (m, ret', forwards)) (name : UserName user)
    (notLog : user ≠ logName) : folderOf m user =
      if SignsUp c user ∧ folderOf n user = none then some .dir else folderOf n user := by
  have unfolded := h
  unfold runCommand at unfolded
  cases com : c.com with
  | puts =>
    simp only [com, live.alive, reduceCtorEq, false_and, if_false, Bool.false_eq_true] at unfolded
    have next := puts_next live.inStep live.sound.disk.logOpens c.user c.key c.value1
    have same : m = ((Node.nextSequence n).puts c.user c.key c.value1 (n.maxSequence + 1)).2 :=
      (congrArg Prod.fst (Option.some.inj unfolded)).symm
    rw [same, next, if_neg (by simp [SignsUp, com])]
    exact folderOf_wrote n _ notLog
  | dele =>
    simp only [com, live.alive, reduceCtorEq, false_and, if_false, Bool.false_eq_true] at unfolded
    have next := dele_next live.inStep live.sound.disk.logOpens c.user c.key
    have same : m = ((Node.nextSequence n).dele c.user c.key (n.maxSequence + 1)).2 :=
      (congrArg Prod.fst (Option.some.inj unfolded)).symm
    rw [same, next, if_neg (by simp [SignsUp, com])]
    exact folderOf_wrote n _ notLog
  | cput =>
    simp only [Plain, com] at plain
    simp only [com, live.alive, reduceCtorEq, false_and, if_false, Bool.false_eq_true] at unfolded
    obtain ⟨p, prepared, answered⟩ := Option.bind_eq_some_iff.mp unfolded
    obtain ⟨p', prepared', quiet, -⟩ := prepareCput_quiet live plain.1
    rw [prepared] at prepared'
    cases prepared'
    obtain ⟨S', liveP⟩ := quiet.live
    have folder := folderOf_prepareCput plain.1 name live.sound.disk.homeDir prepared
    have signs : SignsUp c user ↔ c.key = "pwd".toList ∧ c.value1 = [] ∧ c.user = user :=
      and_iff_right com
    have next := cputs_next liveP.inStep liveP.sound.disk.logOpens c.user c.key c.value1 c.value2
    obtain ⟨⟨status, q⟩, wrote', heq⟩ := Option.map_eq_some_iff.mp answered
    have wrote' : (Node.nextSequence p).cputs c.user c.key c.value1 c.value2 (p.maxSequence + 1) =
      some (status, q) := wrote'
    rw [next] at wrote'
    cases heq
    obtain ⟨⟨status', value, r⟩, read, heq⟩ := Option.map_eq_some_iff.mp wrote'
    have fs : folderOf r user = folderOf p user := by
      rw [folderOf, folderOf, (readOf_gets read).rest]
    simp only [signs, ← folder, ← fs]
    split at heq
    · cases heq
      rfl
    · split at heq
      · cases heq
        rfl
      · cases heq
        exact folderOf_wrote r _ notLog
  | gets =>
    simp only [com, live.alive, reduceCtorEq, false_and, if_false, Bool.false_eq_true] at unfolded
    obtain ⟨⟨status, value, p⟩, read, heq⟩ := Option.map_eq_some_iff.mp unfolded
    cases heq
    rw [if_neg (by simp [SignsUp, com]), folderOf, folderOf, (readOf_gets read).rest]
  | all =>
    simp only [Plain, com] at plain
    simp only [com, live.alive, reduceCtorEq, false_and, if_false, Bool.false_eq_true] at unfolded
    rw [if_neg (by simp [SignsUp, com])]
    split at unfolded
    · cases unfolded
      rfl
    · rename_i named
      obtain ⟨⟨status, kvs, p⟩, read, heq⟩ := Option.map_eq_some_iff.mp unfolded
      cases heq
      obtain ⟨-, -, updates, rfl, -⟩ := getsAll_keeps live.sound (plain.resolve_left named) read
      rfl
  | ckpt => exact absurd com notSaved
  | sync | cluster | kill | restart | other => simp [Plain, com] at plain

/-- A checkpoint writes below the folders only. -/
theorem folderOf_saved (live : Live n S) {it : Iteration Loop} {forwards : List Forward}
    (h : Node.checkpointCopy n it = some (m, forwards)) (notLog : user ≠ logName) :
    folderOf m user = folderOf n user := by
  obtain ⟨primary, -, h⟩ := Option.bind_eq_some_iff.mp h
  obtain ⟨es, S', steps, journal⟩ := checkpoint_steps live.sound.savable it
  rw [Node.checkpoint, journal] at h
  cases h
  refine applyAll_outside n.fs _ fun e mem below => ?_
  rcases List.mem_append.mp mem with chunk | log
  · obtain ⟨other, slot, target⟩ := steps.targets e chunk
    rw [target] at below
    have length := below.length_le
    simp only [userPath, List.length_append, List.length_singleton] at length
    omega
  · simp only [List.mem_cons, List.not_mem_nil, or_false] at log
    rcases log with rfl | rfl
    · exact log_apart notLog below
    · exact log_apart notLog below

end Folders

/-! A replica -/

/-- The nodes hold the same updates over chunk files with the same values, their users have
folders on both, and their logs start at the same checkpoint. -/
structure Follows (p q : Node) : Prop where
  sequenceId : q.cache.sequenceId = p.cache.sequenceId
  updates : ∀ user key, find2 q.cache.updatesCache user key = find2 p.cache.updatesCache user key
  chunks : ∀ user key, UserName user → chunkValue q user key = chunkValue p user key
  folders : ∀ user, UserName user → user ≠ logName → folderOf q user = folderOf p user
  header : ∃ base rs rs', HasLog p base rs ∧ HasLog q base rs'

section Follows
variable {n m p q p' q' : Node} {S S' : Folders}

theorem Follows.values (follows : Follows p q) : Matches p q := by
  constructor
  · exact follows.sequenceId
  · intro user key name
    rw [cur, cur, follows.updates, follows.chunks user key name]

theorem hasLog_quiet (quiet : Quiet n m) {base : Nat} {rs : List Record} (log : HasLog n base rs) :
    HasLog m base rs := by
  rw [HasLog, quiet.logPath, quiet.log]
  exact log

theorem chunkValue_wrote (live : Live n S) (r : Record) {user : Str} (name : UserName user)
    (key : Str) : chunkValue (wrote n r) user key = chunkValue n user key := by
  have disk : Disk (wrote n r).fs (wrote n r).port S := live.sound.disk.logWrite ⟨r.text, .inr rfl⟩
  rw [chunkValue_disk disk name, chunkValue_disk live.sound.disk name]

theorem follows_both (follows : Follows p q) (both : Both p q p' q')
    (folders : ∀ user, UserName user → user ≠ logName → folderOf q' user = folderOf p' user) :
    Follows p' q' := by
  obtain ⟨base, rs, rs', log, log'⟩ := follows.header
  have sequence := (matches_both follows.values both).sequenceId
  cases both with
  | @wrote p₁ q₁ r r' quiet quiet' user key written next next' =>
    obtain ⟨S, live⟩ := quiet.live
    obtain ⟨S', live'⟩ := quiet'.live
    refine ⟨sequence, fun a b => ?_, fun a b name => ?_, folders, base, rs ++ [r], rs' ++ [r'],
      hasLog_wrote live.sound.disk.logOpens (hasLog_quiet quiet log) r,
      hasLog_wrote live'.sound.disk.logOpens (hasLog_quiet quiet' log') r'⟩
    · have first : find2 (wrote p₁ r).cache.updatesCache a b = _ :=
        find2_applyRecord p₁.cache r a b
      have second : find2 (wrote q₁ r').cache.updatesCache a b = _ :=
        find2_applyRecord q₁.cache r' a b
      rw [first, second, user, key, written, quiet.updates, quiet'.updates, follows.updates]
    · rw [chunkValue_wrote live r name, chunkValue_wrote live' r' name,
        quiet.chunks a b name, quiet'.chunks a b name, follows.chunks a b name]
  | bumped quiet quiet' =>
    refine ⟨sequence, fun a b => ?_, fun a b name => ?_, folders, base, rs, rs',
      hasLog_quiet quiet log, hasLog_quiet quiet' log'⟩
    · exact (quiet'.updates a b).trans ((follows.updates a b).trans (quiet.updates a b).symm)
    · exact (quiet'.chunks a b name).trans
        ((follows.chunks a b name).trans (quiet.chunks a b name).symm)

/-- A checkpoint on both nodes. -/
theorem follows_saved (live : Live p S) (live' : Live q S') (follows : Follows p q)
    {it it' : Iteration Loop} {forwards forwards' : List Forward}
    (first : Node.checkpointCopy p it = some (p', forwards))
    (second : Node.checkpointCopy q it' = some (q', forwards')) : Follows p' q' := by
  have places : ∀ user, UserName user → user ≠ logName → folderOf q' user = folderOf p' user := by
    intro user name notLog
    rw [folderOf_saved live first notLog, folderOf_saved live' second notLog,
      follows.folders user name notLog]
  obtain ⟨rest, log, T, sound, -, values⟩ := checkpointCopy_sound live.sound first
  obtain ⟨rest', log', T', sound', -, values'⟩ := checkpointCopy_sound live'.sound second
  have cache : p'.cache = p.cache := by rw [rest]
  have cache' : q'.cache = q.cache := by rw [rest']
  have path : p'.logPath = p.logPath := by rw [rest]; rfl
  have path' : q'.logPath = q.logPath := by rw [rest']; rfl
  refine ⟨?_, fun user key => ?_, fun user key name => ?_, places, p.cache.sequenceId, [], [], ?_, ?_⟩
  · rw [cache, cache', follows.sequenceId]
  · rw [cache, cache', follows.updates]
  · have same := follows.chunks user key name
    rw [chunkValue_disk live'.sound.disk name, chunkValue_disk live.sound.disk name] at same
    have absent : S' user = none ↔ S user = none := by
      by_cases isLog : user = logName
      · rw [isLog]
        exact iff_of_true live'.sound.disk.noLogFolder live.sound.disk.noLogFolder
      · have place := follows.folders user name isLog
        have has := hasFolder_iff live.sound.disk name
        have has' := hasFolder_iff live'.sound.disk name
        rw [HasFolder, resolve_PREFIX _ name.plain] at has has'
        rw [folderOf, folderOf, userPath, userPath] at place
        rw [place] at has'
        exact not_iff_not.mp (has'.symm.trans has)
    rw [chunkValue_disk sound'.disk name, chunkValue_disk sound.disk name, values user key name,
      values' user key name, same, follows.updates]
    simp only [absent]
  · rw [HasLog, path, log]
    simp [logText]
  · rw [HasLog, path', log', follows.sequenceId]
    simp [logText]

/-- A node that handles all it is sent stays a replica. -/
theorem keeps_follows : Keeps Follows := by
  constructor
  · intro p q k l follows
    exact ⟨follows.sequenceId, follows.updates, follows.chunks, follows.folders, follows.header⟩
  · intro p q S c env ret ret' forwards live follows plain reads notSaved p' done
    have outcome := runCommand_outcome live plain done
    generalize ret'.status = status at outcome
    cases outcome with
    | accepted quiet user key next write => simp [reads] at write
    | rejected quiet conditional => simp [written, conditional] at reads
    | quiet status quiet =>
      obtain ⟨base, rs, rs', log, log'⟩ := follows.header
      refine ⟨follows.sequenceId.trans quiet.sequenceId.symm, fun user key => ?_,
        fun user key name => ?_, fun user name notLog => ?_, base, rs, rs', hasLog_quiet quiet log,
        log'⟩
      · exact (follows.updates user key).trans (quiet.updates user key).symm
      · exact (follows.chunks user key name).trans (quiet.chunks user key name).symm
      · have stays : ¬ (SignsUp c user ∧ folderOf p user = none) := by
          rintro ⟨⟨com, -⟩, -⟩
          simp [written, com] at reads
        rw [folderOf_command live plain notSaved done name notLog, if_neg stays]
        exact follows.folders user name notLog
    | saved status com => exact absurd com notSaved
  · intro p q S S' c env env' ret live live' follows plain writes p' q' ret₁ ret₂ forwards forwards'
      first second
    obtain ⟨w, write⟩ := Option.ne_none_iff_exists'.mp writes
    have name := (written_plain plain write).1
    have notSaved : c.com ≠ .ckpt := fun com => writes (by simp [written, com])
    refine follows_both follows (both_of_outcomes writes (follows.values.values _ _ name)
      (runCommand_outcome live plain first) (runCommand_outcome live' plain second)) ?_
    intro user known notLog
    rw [folderOf_command live plain notSaved first known notLog,
      folderOf_command live' plain notSaved second known notLog, follows.folders user known notLog]
  · intro p q S S' it it' live live' follows p' q' forwards forwards' first second
    exact follows_saved live live' follows first second

end Follows

end Following
