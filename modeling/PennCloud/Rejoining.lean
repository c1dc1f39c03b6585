import PennCloud.Following
import PennCloud.Recovery

/-!
# A secondary that comes back

A secondary follows the primary up to some command and then misses the rest.
Its files are those of a replica at that point, and the number in the header of
its log tells whether the primary has made a checkpoint since: if not, the chunk
files still hold the same values and the log is enough; otherwise all files are
sent. Either way it agrees with the primary again, and follows it from there.
-/

namespace Rejoining

open Text FileTree KvInterface UnorderedMap ChunkFiles KvCache CacheSync KvStore LogReplay CacheSteps
  Runs ChunkFormat ChunkFolder NodeDisk StoreView Acknowledgement LiveNode ChunkCrash Replication
  Following FullSync Recovery
open ChunkOverlay (UserName Settled overlaid)
open CrashSafety (SignedUp Client Logged Steady LogWhole visible visible_overlaid steady_calm
  calm_counted steady_command steady_saved steady_started)
open LiveLog (Fresh)

/-- The command can be logged, and the users with updates have folders when it is done. -/
structure Registered (n : Node) (e : Event) : Prop where
  plain : Plain e.2
  names : written e.2 ≠ none → LogName e.2.user ∧ LogName e.2.key
  signedUp : ∀ t, turn n e = some t → SignedUp t

/-- The header of the log only grows, and while it stays the same so do the chunk values. -/
structure Leads (n m : Node) (before after : Nat) : Prop where
  grows : before ≤ after
  chunks : before = after → ∀ user key, UserName user →
    visible (chunkValue m user key) = visible (chunkValue n user key)

theorem leads_refl (n : Node) (base : Nat) : Leads n n base base :=
  ⟨Nat.le_refl _, fun _ _ _ _ => rfl⟩

theorem Leads.trans {n m p : Node} {a b c : Nat} (first : Leads n m a b) (second : Leads m p b c) :
    Leads n p a c := by
  have up := first.grows
  have down := second.grows
  constructor
  · omega
  · intro same user key name
    rw [second.chunks (by omega) user key name, first.chunks (by omega) user key name]

/-- A log has one header. -/
theorem hasLog_base {n : Node} {base base' : Nat} {rs rs' : List Record} (first : HasLog n base rs)
    (second : HasLog n base' rs') : base = base' := by
  have digits : ∀ k, ∀ c ∈ toDecimal k, isSpace c = false :=
    fun k c mem => isDigit_not_space (isDigit_of_mem_toDecimal mem)
  have spelled : ∀ k (rest : Str), checkpointHeader k ++ rest = ("KvStoreLogEntry".toList ++ ' ' ::
      "Checkpointed at SequenceID: ".toList) ++ (toDecimal k ++ '\n' :: rest) := by
    intro k rest
    rw [checkpointHeader_eq]
    simp
  have same := Option.some.inj (first.symm.trans second)
  rw [spelled, spelled] at same
  have rest := List.append_cancel_left same
  exact toDecimal_injective
    (append_blank_inj (digits base) (digits base') (by decide) (by decide) rest).1

section Saves
variable {n m : Node} {S S₁ : Folders} {it : Iteration Loop} {forwards : List Forward}

theorem signedUp_saved (live : Live n S) (h : Node.checkpointCopy n it = some (m, forwards))
    (signedUp : SignedUp m) : SignedUp n := by
  obtain ⟨rest, -, S', sound, folders, -⟩ := checkpointCopy_sound live.sound h
  intro user key held
  have entry : n.cache.updatesCache.lookup user ≠ none := by
    intro absent
    rw [find2, absent] at held
    exact held rfl
  have name := live.sound.users user entry
  have kept : find2 m.cache.updatesCache user key ≠ none := by
    rw [rest]
    exact held
  have has := (hasFolder_iff sound.disk name).mp (signedUp user key kept)
  exact (hasFolder_iff live.sound.disk name).mpr fun none => has ((folders user).mp none)

/-- A checkpoint moves the header, or finds nothing new to write. -/
theorem leads_saved (live : Live n S) (steady : Steady n S₁)
    (h : Node.checkpointCopy n it = some (m, forwards)) {base : Nat} {rs : List Record}
    (log : HasLog n base rs) :
    HasLog m n.cache.sequenceId [] ∧ Leads n m base n.cache.sequenceId := by
  obtain ⟨base', rs', logged⟩ := steady.logged
  obtain rfl := hasLog_base log logged.log
  obtain ⟨rest, saved, S', sound, -, values⟩ := checkpointCopy_sound live.sound h
  have path : m.logPath = n.logPath := by rw [rest]; rfl
  have count := logged.count
  refine ⟨?_, by omega, fun same user key name => ?_⟩
  · rw [HasLog, path, saved]
    simp [logText]
  · have none' : rs' = [] := List.length_eq_zero_iff.mp (by omega)
    have value := logged.values user key name
    have own := chunkValue_disk live.sound.disk name key
    have own' := chunkValue_disk steady.savable.disk name key
    rw [none', lastWrite, List.foldl_nil, Option.none_or, ← own', own] at value
    rw [chunkValue_disk sound.disk name, own, values user key name]
    by_cases has : S user = none
    · rw [if_pos has, stored, has]
      rfl
    · rw [if_neg has, visible_overlaid, value]

end Saves

section Runs
variable {n m : Node} {S S₁ : Folders}

/-- A command that is not a checkpoint leaves the header of the log and the chunk files. -/
theorem leads_command {c : KvCommand} (notSaved : c.com ≠ .ckpt)
    {status : KvState} (outcome : Outcome n c status m) {base : Nat} {rs : List Record}
    (log : HasLog n base rs) : (∃ rs', HasLog m base rs') ∧ Leads n m base base := by
  have same : ∀ {p}, Quiet n p → Leads n p base base := by
    intro p quiet
    refine ⟨Nat.le_refl _, fun _ user key name => ?_⟩
    rw [quiet.chunks user key name]
  cases outcome with
  | @accepted p r quiet =>
    obtain ⟨S', live'⟩ := quiet.live
    have opens : LogOpens p := live'.sound.disk.logOpens
    refine ⟨⟨rs ++ [r], hasLog_wrote opens (hasLog_quiet quiet log) r⟩, ?_⟩
    refine (same quiet).trans ⟨Nat.le_refl _, fun _ user key name => ?_⟩
    rw [chunkValue_wrote live' r name]
  | rejected quiet =>
    refine ⟨⟨rs, hasLog_quiet quiet log⟩, (same quiet).trans ⟨Nat.le_refl _, ?_⟩⟩
    exact fun _ _ _ _ => rfl
  | quiet status quiet => exact ⟨⟨rs, hasLog_quiet quiet log⟩, same quiet⟩
  | saved status com => exact absurd com notSaved

theorem client_of_registered {e : Event} (plain : Plain e.2)
    (names : written e.2 ≠ none → LogName e.2.user ∧ LogName e.2.key)
    (signedUp : e.2.com = .ckpt → SignedUp n) : Client n e.2 := by
  unfold Client
  cases com : e.2.com with
  | gets =>
    simp only [Plain, com] at plain
    exact plain.1
  | puts | cput | dele =>
    simp only [Plain, com] at plain
    obtain ⟨user, key⟩ := names (by simp [written, com])
    exact ⟨⟨plain.1, user⟩, key⟩
  | all =>
    simp only [Plain, com] at plain
    exact plain
  | ckpt => exact fun _ => signedUp com
  | sync | cluster | kill | restart | other => simp [Plain, com] at plain

/-- One turn of the primary: it can still be restored, and is ahead of where it was. -/
theorem leads_turn (live : Live n S) (steady : Steady n S₁) {e : Event}
    (registered : Registered n e) (h : turn n e = some m) {base : Nat} {rs : List Record}
    (log : HasLog n base rs) :
    (∃ S₂, Steady m S₂) ∧ ∃ base' rs', HasLog m base' rs' ∧ Leads n m base base' := by
  have signedUp := registered.signedUp m h
  obtain ⟨t, ht, rfl⟩ := Option.map_eq_some_iff.mp h
  obtain ⟨r, ret, sent, done, saves⟩ := handleConnect_some ht
  have plain := registered.plain
  obtain ⟨S₂, counted⟩ := (quiet_counted live).live
  obtain ⟨S₃, steady'⟩ := steady_calm steady (calm_counted n)
  have outcome := runCommand_outcome counted plain done
  obtain ⟨S₄, liveR⟩ := outcome_live counted plain outcome
  have log' : HasLog { n with lastCheckpointTime := n.lastCheckpointTime + 1 } base rs := log
  have signedUpR : SignedUp r := by
    rcases saves with ⟨node, -⟩ | ⟨copies, copied, -⟩
    · rw [← node]
      exact signedUp
    · exact signedUp_saved liveR copied signedUp
  have client : Client n e.2 := by
    refine client_of_registered plain registered.names fun com => ?_
    have saved := runCommand_ckpt counted com done
    exact fun user key => signedUp_saved counted saved signedUpR user key
  have answered : answer e.1 n e.2 = some
      ⟨r, if r.isPrimary then some ret else none, sent⟩ := by
    rw [answer, done]
    rfl
  obtain ⟨S₅, steadyR⟩ := steady_command steady client answered
  have first : ∃ base' rs', HasLog r base' rs' ∧ Leads n r base base' := by
    by_cases com : e.2.com = .ckpt
    · obtain ⟨headed, leads⟩ :=
        leads_saved counted steady' (runCommand_ckpt counted com done) log'
      exact ⟨_, [], headed, leads.grows, leads.chunks⟩
    · obtain ⟨⟨rs', headed⟩, leads⟩ := leads_command com outcome log'
      exact ⟨base, rs', headed, leads.grows, leads.chunks⟩
  obtain ⟨base', rs', headed, leads⟩ := first
  rcases saves with ⟨node, -⟩ | ⟨copies, copied, -⟩
  · rw [node]
    exact ⟨⟨S₅, steadyR⟩, base', rs', headed, leads⟩
  · obtain ⟨headed', leads'⟩ := leads_saved liveR steadyR copied headed
    exact ⟨steady_saved steadyR signedUpR copied, _, [], headed', leads.trans leads'⟩

theorem leads_run {events : List Event} (live : Live n S) (steady : Steady n S₁)
    (along : Along turn Registered n events) (h : run turn n events = some m) {base : Nat}
    {rs : List Record} (log : HasLog n base rs) :
    (∃ S₂, Live m S₂) ∧ (∃ S₂, Steady m S₂) ∧
      ∃ base' rs', HasLog m base' rs' ∧ Leads n m base base' := by
  induction events generalizing n S S₁ base rs with
  | nil =>
    cases h
    exact ⟨⟨S, live⟩, ⟨S₁, steady⟩, base, rs, log, leads_refl _ base⟩
  | cons e es ih =>
    obtain ⟨r, hr, hrm⟩ := run_cons_eq_some.mp h
    obtain ⟨registered, later⟩ := (along_cons hr).mp along
    obtain ⟨S₂, -, liveR, -⟩ := turn_live live registered.plain hr
    obtain ⟨⟨S₃, steadyR⟩, base₁, rs₁, log₁, leads⟩ := leads_turn live steady registered hr log
    obtain ⟨liveM, steadyM, base', rs', log', leads'⟩ := ih liveR steadyR later hrm log₁
    exact ⟨liveM, steadyM, base', rs', log', leads.trans leads'⟩

theorem plain_along {events : List Event} (along : Along turn Registered n events)
    (h : run turn n events = some m) : ∀ e ∈ events, Plain e.2 := by
  induction events generalizing n with
  | nil => simp
  | cons e es ih =>
    obtain ⟨r, hr, hrm⟩ := run_cons_eq_some.mp h
    obtain ⟨registered, later⟩ := (along_cons hr).mp along
    exact List.forall_mem_cons.mpr ⟨registered.plain, ih later hrm⟩

theorem leader_run {events : List Event} {address : Address} (live : Live n S)
    (plain : ∀ e ∈ events, Plain e.2) (h : run turn n events = some m) (leader : Leader n address) :
    Leader m address := by
  induction events generalizing n S with
  | nil =>
    cases h
    exact leader
  | cons e es ih =>
    obtain ⟨r, hr, hrm⟩ := run_cons_eq_some.mp h
    have first := plain e List.mem_cons_self
    obtain ⟨S', -, live', -⟩ := turn_live live first hr
    exact ih live' (fun d mem => plain d (List.mem_cons_of_mem e mem)) hrm
      (leader_cluster leader (turn_cluster live first hr))

end Runs

/-! The node that comes back -/

section Back
variable {n m : Node} {S S₁ : Folders}

theorem matches_of_agrees (agrees : Agrees n m) : Matches n m := by
  refine ⟨agrees.sequenceId, fun user key name => ?_⟩
  have same := agrees.views user key name
  rw [view_eq, view_eq] at same
  by_cases absent : cur m user key = []
  · by_cases absent' : cur n user key = []
    · rw [absent, absent']
    · rw [if_pos absent, if_neg absent'] at same
      cases same
  · rw [if_neg absent] at same
    split at same
    · cases same
    · exact Option.some.inj same

theorem agrees_of_matches (same : Matches n m) : Agrees n m :=
  ⟨same.sequenceId, fun user key name => view_congr (same.values user key name)⟩

/-- The folders of a live node, with the log that goes over them. -/
theorem steady_of_live (live : Live n S) (steady : Steady n S₁) : Steady n S := by
  obtain ⟨base, rs, logged⟩ := steady.logged
  refine ⟨live.sound.savable, fun user F name has => spare_settled (live.sound.settled user F name has),
    live.inStep, base, rs, logged.log, logged.named, logged.names, logged.count, logged.numbered,
    logged.written, fun user key name => ?_⟩
  rw [← chunkValue_disk live.sound.disk name, chunkValue_disk steady.savable.disk name]
  exact logged.values user key name

/-- A node that has replayed its log is live. -/
theorem live_replayed (steady : Steady n S)
    (settled : ∀ user F, UserName user → S user = some F → Settled F)
    (read : n.cache.readCache = ∅) (alive : n.killed = false) : Live n S := by
  obtain ⟨base, rs, logged⟩ := steady.logged
  refine ⟨⟨steady.savable.disk, settled, fun user key => ?_, fun user key value _ held => ?_,
    steady.savable.users, steady.savable.keys, CrashSafety.lookup_log logged.log⟩, steady.inStep, alive⟩
  · rw [read]
    exact .inl rfl
  · rw [read] at held
    cases held

theorem mounted_of_disk (disk : Disk n.fs n.port S) : Mounted n := by
  refine ⟨disk.closed, fun r above other => dir_above disk.closed above other ?_⟩
  rw [disk.homeDir]
  simp

/-- A secondary whose log starts no later than that of the primary, and with the same chunk values
where it starts at the same checkpoint, agrees with the primary after the sync. -/
theorem sync_agrees {t s : Node} {listing : List Path} (steady : Steady t S)
    (settled : ∀ user F, UserName user → S user = some F → Settled F) (whole : LogWhole t)
    (primary : t.isPrimary = true) (role : s.isPrimary = false) (alive : s.killed = false)
    (listed : Listed t listing) (sendable : Sendable t listing) (disk : Disk s.fs s.port S₁)
    (settled' : ∀ user F, UserName user → S₁ user = some F → Settled F) {base base' : Nat}
    {rs rs' : List Record} (log : HasLog t base' rs) (own : HasLog s base rs')
    (older : base ≤ base') (chunks : base = base' → ∀ user key, UserName user →
      visible (stored S₁ user key) = visible (stored S user key)) :
    ∃ answer sent r S', Node.primarySyncSecondary t listing [answer, kSyncDone] =
        some (.finished, sent) ∧
      Node.secondaryRecoverFromPrimary s sent = some (.finished, r, [answer]) ∧
      Live r S' ∧ Agrees t r ∧ r.isPrimary = false := by
  obtain ⟨b, records, logged⟩ := steady.logged
  obtain rfl := hasLog_base log logged.log
  obtain ⟨bound, complete⟩ := whole
  obtain ⟨count, -⟩ := complete _ _ logged.log logged.named
  have decides : Node.needFullSync s (checkpointHeader base' ++ logText rs) =
      some (decide (base < base')) := needFullSync_eq own (by omega) (by omega)
  obtain ⟨member, entry⟩ := log_listed listed log
  by_cases behind : base < base'
  · obtain ⟨sent, r, sends, recovers, steady', agrees, read, killed, roleR, -⟩ :=
      full_sync_agrees steady ⟨bound, complete⟩ primary role (mounted_of_disk disk) listed sendable
        log (by rw [decides, decide_eq_true behind])
    exact ⟨_, sent, r, S, sends, recovers,
      live_replayed steady' settled read (killed.trans alive), agrees, roleR⟩
  · obtain ⟨r, sends, recovers, steady', agrees, read, killed, roleR⟩ :=
      log_sync_agrees steady ⟨bound, complete⟩ primary role disk
        (fun user F name has => spare_settled (settled' user F name has)) (chunks (by omega)) log
        (sendable.fits _ member _ entry) (by rw [decides, decide_eq_false behind])
    exact ⟨_, _, r, S₁, sends, recovers,
      live_replayed steady' settled' read (killed.trans alive), agrees, roleR⟩

end Back

/-- The files of a replica of the primary at some point of its run are enough to come back: the
sync ends well on both sides, the nodes agree, and they agree after every command that the primary
then runs and forwards. -/
theorem rejoins {p p' q q' t s : Node} {shared missed arrivals : List Event}
    {forwards : List Forward} {address : Address} {listing : List Path} (started : Started p)
    (started' : Started q) (fresh : Fresh p) (follows : Follows p q) (leader : Leader p address)
    (secondary : q.isPrimary = false) (registered : Along turn Registered p shared)
    (executed : execute p shared = some (p', forwards))
    (order : arrivals.map Prod.snd = deliveries address forwards)
    (handled : run turn q arrivals = some q') (registered' : Along turn Registered p' missed)
    (alone : run turn p' missed = some t) (whole : LogWhole t) (listed : Listed t listing)
    (sendable : Sendable t listing) (files : s.fs = q'.fs) (port : s.port = q'.port)
    (role : s.isPrimary = false) (alive : s.killed = false) :
    ∃ answer sent r, Node.primarySyncSecondary t listing [answer, kSyncDone] =
        some (.finished, sent) ∧
      Node.secondaryRecoverFromPrimary s sent = some (.finished, r, [answer]) ∧ Agrees t r ∧
      ∀ later arrivals' forwards' t' r', (∀ e ∈ later, Plain e.2) →
        execute t later = some (t', forwards') →
        arrivals'.map Prod.snd = deliveries address forwards' →
        run turn r arrivals' = some r' → Agrees t' r' := by
  obtain ⟨S₀, live₀⟩ := live_started started
  obtain ⟨S₁, live₁⟩ := live_started started'
  obtain ⟨S₂, steady₀⟩ := steady_started started fresh
  have ran := run_of_execute executed
  have plain := plain_along registered ran
  obtain ⟨replica, ⟨Sq, liveQ⟩, -⟩ :=
    keeps_run keeps_follows live₀ live₁ follows leader secondary plain executed order handled
  obtain ⟨base, rs, rs', log, logQ⟩ := replica.header
  obtain ⟨⟨S₃, liveP⟩, ⟨S₄, steadyP⟩, -⟩ := leads_run live₀ steady₀ registered ran fresh.log
  obtain ⟨⟨St, liveT⟩, ⟨S₅, steadyT⟩, base', rs₁, logT, leads⟩ :=
    leads_run liveP steadyP registered' alone log
  have leaderT := leader_run liveP (plain_along registered' alone) alone
    (leader_run live₀ plain ran leader)
  have steady := steady_of_live liveT steadyT
  have disk : Disk s.fs s.port Sq := by
    rw [files, port]
    exact liveQ.sound.disk
  have own : HasLog s base rs' := by
    rw [HasLog, Node.logPath, files, port]
    exact logQ
  have chunks : base = base' → ∀ user key, UserName user →
      visible (stored Sq user key) = visible (stored St user key) := by
    intro same user key name
    have value := leads.chunks same user key name
    rwa [← replica.chunks user key name, chunkValue_disk liveT.sound.disk name,
      chunkValue_disk liveQ.sound.disk name, eq_comm] at value
  obtain ⟨answer, sent, r, S', sends, recovers, liveR, agrees, roleR⟩ :=
    sync_agrees steady liveT.sound.settled whole leaderT.primary role alive listed sendable disk
      liveQ.sound.settled logT own leads.grows chunks
  refine ⟨answer, sent, r, sends, recovers, agrees, ?_⟩
  intro later arrivals' forwards' t' r' plain' executed' order' handled'
  exact agrees_of_matches (keeps_run keeps_matches liveT liveR (matches_of_agrees agrees) leaderT
    roleR plain' executed' order' handled').1

/-! Two nodes -/

theorem folderOf_nodeAt (port : Nat) {user : Str} (notLog : user ≠ logName) :
    (nodeAt port [bob]).fs.lookup (userPath port user) = if user = bob then some .dir else none := by
  have path : resolve (PREFIX port ++ bob) = userPath port bob :=
    resolve_PREFIX port userName_bob.plain
  show AList.lookup (userPath port user) (AList.insert (resolve (PREFIX port ++ bob)) Entry.dir
    (AList.insert (resolve (kLogFp port)) _ (emptyHome port))) = _
  rw [path, ← userPath_log]
  by_cases same : user = bob
  · rw [if_pos same, same, AList.lookup_insert]
  · have apart : ∀ other, user ≠ other → userPath port user ≠ userPath port other := by
      intro other ne paths
      have below : userPath port other <+: userPath port user := by rw [paths]
      exact ne (userPath_apart (List.prefix_refl _) below)
    rw [if_neg same, AList.lookup_insert_ne (apart bob same),
      AList.lookup_insert_ne (apart logName notLog), lookup_emptyHome, if_neg (below_home port user)]

theorem chunkValue_nodeAt (port : Nat) (isPrimary : Bool) (secondary : List Address) {user : Str}
    (name : UserName user) (key : Str) :
    chunkValue { nodeAt port [bob] with isPrimary := isPrimary, secondary := secondary } user key =
      none := by
  have disk : Disk (nodeAt port [bob]).fs (nodeAt port [bob]).port _ := (disk_nodeAt port).1
  refine (chunkValue_disk disk name key).trans ?_
  rw [stored]
  by_cases new : user = bob
  · subst new
    rw [Function.update_self]
    rfl
  · rw [Function.update_of_ne new]
    rfl

theorem hasLog_nodeAt (port : Nat) (isPrimary : Bool) (secondary : List Address) :
    HasLog { nodeAt port [bob] with isPrimary := isPrimary, secondary := secondary } 0 [] := by
  have entry : (nodeAt port [bob]).fs.lookup (nodeAt port [bob]).logPath = _ := (disk_nodeAt port).2
  show content (nodeAt port [bob]).fs (nodeAt port [bob]).logPath = _
  rw [content, entry]
  simp [logText]

theorem follows_nodes : Follows primaryNode secondaryNode := by
  have cache : primaryNode.cache = Cache.empty := rfl
  have cache' : secondaryNode.cache = Cache.empty := rfl
  refine ⟨?_, fun user key => ?_, fun user key name => ?_, fun user name notLog => ?_, 0, [], [], ?_, ?_⟩
  · rw [cache, cache']
  · rw [cache, cache']
  · rw [primaryNode, secondaryNode, chunkValue_nodeAt _ _ _ name, chunkValue_nodeAt _ _ _ name]
  · exact (folderOf_nodeAt 7001 notLog).trans (folderOf_nodeAt 7000 notLog).symm
  · exact hasLog_nodeAt 7000 true members
  · exact hasLog_nodeAt 7001 false members

theorem fresh_primaryNode : Fresh primaryNode := by
  refine ⟨rfl, ?_, hasLog_nodeAt 7000 true members⟩
  unfold LogOpens
  decide +kernel

/-- A turn that the check of the folders can be computed for. -/
theorem registered_of_turn {n : Node} {e : Event} (plain : Plain e.2)
    (names : LogName e.2.user ∧ LogName e.2.key)
    (folders : (turn n e).map (fun t => decide (∀ user ∈ t.cache.updatesCache.keys, HasFolder t user)) =
      some true) : Registered n e := by
  refine ⟨plain, fun _ => names, fun t ran => CrashSafety.signedUp_of_users ?_⟩
  rw [ran] at folders
  exact of_decide_eq_true (Option.some.inj folders)

theorem logName_x : LogName "x".toList := ⟨by decide +kernel, by decide +kernel⟩

/-- The secondary misses a write, and the log is enough. -/
theorem rejoins_after_puts : ∃ t answer sent r,
    run turn primaryNode [putsOf pwd "one".toList, putsOf "x".toList "two".toList] = some t ∧
    Node.primarySyncSecondary t (below t).reverse [answer, kSyncDone] = some (.finished, sent) ∧
    (run turn secondaryNode [putsOf pwd "one".toList]).bind (fun q' =>
      Node.secondaryRecoverFromPrimary q' sent) = some (.finished, r, [answer]) ∧
    view r bob "x".toList = some "two".toList := by
  have shared : (execute primaryNode [putsOf pwd "one".toList]).map (fun r =>
      decide (deliveries other r.2 = [(putsOf pwd "one".toList).2]) &&
      decide ((turn r.1 (putsOf "x".toList "two".toList)).map (fun t =>
        decide (∀ user ∈ t.cache.updatesCache.keys, HasFolder t user)) = some true) &&
      decide ((run turn r.1 [putsOf "x".toList "two".toList]).map (fun t =>
        decide (t.cache.sequenceId ≤ INT_MAX) &&
        decide (t.replayLoggings.map (fun r => (r.1, r.2.cache.sequenceId)) =
          some (.finished, t.cache.sequenceId)) &&
        decide ((below t).reverse.Pairwise fun p q => ¬ q <+: p) &&
        decide (∀ p ∈ (below t).reverse, ∀ name ∈ p.drop (home t.port).length, SentName name) &&
        decide (∀ p ∈ (below t).reverse, ∀ e ∈ t.fs.lookup p, SizesFit t.port p e) &&
        decide (view t bob "x".toList = some "two".toList)) = some true)) = some true := by
    decide +kernel
  have follower : (run turn secondaryNode [putsOf pwd "one".toList]).map (fun q' =>
      (q'.isPrimary, q'.killed)) = some (false, false) := by decide +kernel
  have folders : (turn primaryNode (putsOf pwd "one".toList)).map (fun t =>
      decide (∀ user ∈ t.cache.updatesCache.keys, HasFolder t user)) = some true := by
    decide +kernel
  obtain ⟨⟨p', forwards⟩, executed, holds⟩ := Option.map_eq_some_iff.mp shared
  obtain ⟨q', handled, state⟩ := Option.map_eq_some_iff.mp follower
  obtain ⟨role, alive⟩ := Prod.mk.inj state
  simp only [Bool.and_eq_true, decide_eq_true_eq] at holds
  obtain ⟨⟨delivered, folders'⟩, holds⟩ := holds
  obtain ⟨t, missed, holds⟩ := Option.map_eq_some_iff.mp holds
  simp only [Bool.and_eq_true, decide_eq_true_eq] at holds
  obtain ⟨⟨⟨⟨⟨bound, replays⟩, ordered⟩, names⟩, fits⟩, value⟩ := holds
  obtain ⟨⟨status, m⟩, replayed, same⟩ := Option.map_eq_some_iff.mp replays
  obtain ⟨rfl, same⟩ := Prod.mk.inj same
  have first : Registered primaryNode (putsOf pwd "one".toList) :=
    registered_of_turn (plain_putsOf (by decide) _).1 ⟨logName_bob, logName_pwd⟩ folders
  have second : Registered p' (putsOf "x".toList "two".toList) :=
    registered_of_turn (plain_putsOf (by decide) _).1 ⟨logName_bob, logName_x⟩ folders'
  have along : Along turn Registered primaryNode [putsOf pwd "one".toList] :=
    ⟨first, fun _ _ => trivial⟩
  have along' : Along turn Registered p' [putsOf "x".toList "two".toList] :=
    ⟨second, fun _ _ => trivial⟩
  have order : [putsOf pwd "one".toList].map Prod.snd = deliveries other forwards := delivered.symm
  have started : Started primaryNode := started_cluster (started_nodeAt 7000) true members
  have started' : Started secondaryNode := started_cluster (started_nodeAt 7001) false members
  have leader : Leader primaryNode other := ⟨rfl, ⟨_, rfl, by decide +kernel⟩, lists_other⟩
  obtain ⟨answer, sent, r, sends, recovers, agrees, -⟩ := rejoins started started'
    fresh_primaryNode follows_nodes leader rfl along executed order handled along' missed
    (CrashSafety.logWhole_of_replayed replayed same bound)
    (listed_of_perm (List.reverse_perm _) ordered) ⟨names, fits⟩ rfl rfl role alive
  refine ⟨t, answer, sent, r, ?_, sends, ?_, ?_⟩
  · have split : [putsOf pwd "one".toList, putsOf "x".toList "two".toList] =
        [putsOf pwd "one".toList] ++ [putsOf "x".toList "two".toList] := rfl
    rw [split, run_append, run_of_execute executed, Option.bind_some, missed]
  · rw [handled, Option.bind_some, recovers]
  · rw [agrees.views bob _ userName_bob, value]

end Rejoining
