import PennCloud.LiveNode

/-!
# Forwarded commands

The primary forwards each write to every other node of its cluster, on a
connection of its own, and every node numbers the commands in the order in
which it reads them. What a command makes of a pair depends on the value of
the pair alone, so that replicas agree on a pair that is written in one order.
-/

namespace Replication

open Text FileTree KvInterface UnorderedMap ChunkFiles KvCache KvStore LogReplay CacheSteps Runs
  ChunkFormat NodeDisk StoreView Acknowledgement LiveNode
open ChunkOverlay (UserName)

/-- The commands a node handles, with everything it forwards. -/
def execute (n : Node) : List Event → Option (Node × List Forward)
  | [] => some (n, [])
  | e :: es => (handleConnect e.1 n e.2).bind fun t =>
    (execute t.node es).map fun r => (r.1, t.forwards ++ r.2)

/-- The commands that go to one address, in the order in which they were sent. -/
def deliveries (address : Address) (forwards : List Forward) : List KvCommand :=
  (forwards.filter fun f => f.1 = address).map Prod.snd

def writesTo (user key : Str) (c : KvCommand) : Bool :=
  decide (c.user = user) && (decide (c.key = key) && (written c).isSome)

/-- The writes to each pair are handled in the order in which they were forwarded. -/
def InOrder (sent handled : List KvCommand) : Prop :=
  ∀ user key, handled.filter (writesTo user key) = sent.filter (writesTo user key)

/-- The cluster list of the node has the other node once. -/
def Lists (n : Node) (address : Address) : Prop :=
  n.secondary.filter (fun node => node = address) = [address] ∧ address.port ≠ n.port

theorem effectOn_other {user key : Str} {c : KvCommand} (h : writesTo user key c = false)
    (value : Str) : effectOn user key value c = value := by
  rw [effectOn]
  split
  · rename_i pair
    rw [writesTo, pair.1, pair.2] at h
    unfold written at h
    cases com : c.com with
    | puts | cput | dele => simp [com] at h
    | gets | all | ckpt | sync | cluster | kill | restart | other => rfl
  · rfl

/-- Only the writes to the pair matter. -/
theorem foldl_effectOn (user key value : Str) (commands : List KvCommand) :
    commands.foldl (effectOn user key) value =
      (commands.filter (writesTo user key)).foldl (effectOn user key) value := by
  induction commands generalizing value with
  | nil => rfl
  | cons c rest ih =>
    cases h : writesTo user key c with
    | true => rw [List.filter_cons_of_pos h, List.foldl_cons, List.foldl_cons, ih]
    | false =>
      rw [List.filter_cons_of_neg (by simp [h]), List.foldl_cons, effectOn_other h, ih]

theorem deliveries_append (address : Address) (a b : List Forward) :
    deliveries address (a ++ b) = deliveries address a ++ deliveries address b := by
  simp [deliveries]

/-- A forwarded command reaches a listed node once. -/
theorem deliveries_forward {n : Node} {address : Address} (lists : Lists n address)
    (c : KvCommand) : deliveries address (Node.forwardToSecondary n c) = [c] := by
  have listed : (n.secondary.filter fun node => node.port ≠ n.port).filter
      (fun node => node = address) = [address] := by
    rw [List.filter_filter, ← lists.1]
    refine List.filter_congr fun node _ => ?_
    by_cases same : node = address
    · simp [same, lists.2]
    · simp [same]
  rw [deliveries, Node.forwardToSecondary, List.filter_map, List.map_map]
  refine (congrArg (List.map fun _ => c) listed).trans ?_
  rfl

section Execute
variable {n m : Node} {S : Folders} {address : Address}

theorem run_of_execute {events : List Event} {forwards : List Forward}
    (h : execute n events = some (m, forwards)) : run turn n events = some m := by
  induction events generalizing n forwards with
  | nil =>
    cases h
    rfl
  | cons e es ih =>
    obtain ⟨t, ht, h⟩ := Option.bind_eq_some_iff.mp h
    obtain ⟨⟨m', later⟩, hr, heq⟩ := Option.map_eq_some_iff.mp h
    cases heq
    exact run_cons_eq_some.mpr ⟨t.node, by rw [turn, ht]; rfl, ih hr⟩

theorem runCommand_forwards (live : Live n S) {c : KvCommand} (plain : Plain c)
    (writes : written c ≠ none) {env : Surroundings} {ret ret' : KvRet} {forwards : List Forward}
    (h : runCommand env n c ret = some (m, ret', forwards)) :
    forwards = Node.forwarded n c := by
  unfold written at writes
  cases com : c.com with
  | puts =>
    obtain ⟨m', done, -⟩ := puts_outcome live com env ret
    rw [done] at h
    cases h
    rfl
  | dele =>
    obtain ⟨m', done, -⟩ := dele_outcome live com env ret
    rw [done] at h
    cases h
    rfl
  | cput =>
    simp only [Plain, com] at plain
    obtain ⟨m', done, -⟩ := cput_outcome live com plain.1 env ret
    rw [done] at h
    cases h
    rfl
  | gets | all | ckpt | sync | cluster | kill | restart | other => simp [com] at writes

theorem checkpointCopy_forwards {it : Iteration Loop} {forwards : List Forward}
    (h : Node.checkpointCopy n it = some (m, forwards)) :
    forwards = [] ∨ forwards = Node.forwardToSecondary n { com := .ckpt } := by
  obtain ⟨primary, -, h⟩ := Option.bind_eq_some_iff.mp h
  obtain ⟨saved, -, h⟩ := Option.map_eq_some_iff.mp h
  cases h
  split
  · exact .inr rfl
  · exact .inl rfl

/-- A write at the primary goes to the listed node, and a checkpoint may follow it. -/
theorem deliveries_turn (live : Live n S) (primary : n.isPrimary = true)
    (lists : Lists n address) {e : Event} (plain : Plain e.2) (writes : written e.2 ≠ none)
    {t : Turn} (h : handleConnect e.1 n e.2 = some t) :
    deliveries address t.forwards = [e.2] ∨
      deliveries address t.forwards = [e.2, { com := .ckpt }] := by
  obtain ⟨r, ret, forwards, done, saves⟩ := handleConnect_some h
  obtain ⟨S', live'⟩ := (quiet_counted live).live
  have sent : deliveries address forwards = [e.2] := by
    rw [runCommand_forwards live' plain writes done, Node.forwarded, if_pos primary]
    exact deliveries_forward (n := { n with lastCheckpointTime := n.lastCheckpointTime + 1 })
      lists e.2
  rcases saves with ⟨-, all⟩ | ⟨copies, copied, all⟩
  · exact .inl (all ▸ sent)
  · have first : turn n e = some t.node := by rw [turn, h]; rfl
    obtain ⟨port, -, secondary⟩ := turn_cluster live plain first
    have listsAfter : Lists r address := by
      obtain ⟨port', -, secondary'⟩ := checkpointCopy_cluster copied
      rw [Lists, ← port', ← secondary', port, secondary]
      exact lists
    rw [all, deliveries_append, sent]
    rcases checkpointCopy_forwards copied with none | ckpt
    · exact .inl (by rw [none]; rfl)
    · exact .inr (by rw [ckpt, deliveries_forward listsAfter]; rfl)

theorem writesTo_ckpt (user key : Str) : writesTo user key { com := .ckpt } = false := by
  simp [writesTo, written]

/-- What reaches a listed node: the writes of the primary, and checkpoints. -/
theorem deliveries_execute {events : List Event} {forwards : List Forward} (live : Live n S)
    (primary : n.isPrimary = true) (lists : Lists n address)
    (plain : ∀ e ∈ events, Plain e.2 ∧ written e.2 ≠ none)
    (h : execute n events = some (m, forwards)) :
    (∀ c ∈ deliveries address forwards, Plain c) ∧
      InOrder (events.map Prod.snd) (deliveries address forwards) := by
  induction events generalizing n S forwards with
  | nil =>
    cases h
    exact ⟨by simp [deliveries], fun _ _ => rfl⟩
  | cons e es ih =>
    obtain ⟨t, ht, h⟩ := Option.bind_eq_some_iff.mp h
    obtain ⟨⟨m', later⟩, hr, heq⟩ := Option.map_eq_some_iff.mp h
    cases heq
    obtain ⟨first, writes⟩ := plain e List.mem_cons_self
    have step : turn n e = some t.node := by rw [turn, ht]; rfl
    obtain ⟨S', -, live', -⟩ := turn_live live first step
    obtain ⟨port, role, secondary⟩ := turn_cluster live first step
    have lists' : Lists t.node address := by
      rw [Lists, port, secondary]
      exact lists
    obtain ⟨plainLater, orderLater⟩ := ih live' (role.trans primary) lists'
      (fun d hd => plain d (List.mem_cons_of_mem e hd)) hr
    have own := deliveries_turn live primary lists first writes ht
    have plainOwn : ∀ c ∈ deliveries address t.forwards, Plain c := by
      intro c hc
      rcases own with alone | saved
      · rw [alone, List.mem_singleton] at hc
        rw [hc]
        exact first
      · rw [saved, List.mem_cons, List.mem_singleton] at hc
        rcases hc with rfl | rfl
        · exact first
        · trivial
    have orderOwn : ∀ user key, (deliveries address t.forwards).filter (writesTo user key) =
        [e.2].filter (writesTo user key) := by
      intro user key
      rcases own with alone | saved
      · rw [alone]
      · rw [saved, List.filter_cons, List.filter_cons, List.filter_cons, writesTo_ckpt]
        rfl
    rw [deliveries_append]
    refine ⟨fun c hc => ?_, fun user key => ?_⟩
    · exact (List.mem_append.mp hc).elim (plainOwn c) (plainLater c)
    · rw [List.filter_append, orderOwn, orderLater, List.map_cons, ← List.filter_append,
        List.singleton_append]

end Execute

/-- Once a secondary has handled everything forwarded to it, and the writes to each pair in
their order, its view is that of the primary. -/
theorem views_converge {p q p' q' : Node} {address : Address} {commands arrivals : List Event}
    {forwards : List Forward} (started : Started p) (started' : Started q)
    (same : ∀ user key, UserName user → view q user key = view p user key)
    (primary : p.isPrimary = true) (lists : Lists p address)
    (plain : ∀ e ∈ commands, Plain e.2 ∧ written e.2 ≠ none)
    (executed : execute p commands = some (p', forwards))
    (delivered : (arrivals.map Prod.snd).Perm (deliveries address forwards))
    (inOrder : InOrder (deliveries address forwards) (arrivals.map Prod.snd))
    (handled : run turn q arrivals = some q') {user : Str} (name : UserName user) (key : Str) :
    view q' user key = view p' user key := by
  obtain ⟨S, live⟩ := live_started started
  obtain ⟨S', live'⟩ := live_started started'
  obtain ⟨plainSent, order⟩ := deliveries_execute live primary lists plain executed
  have plainHandled : ∀ e ∈ arrivals, Plain e.2 := fun e he =>
    plainSent e.2 (delivered.mem_iff.mp (List.mem_map_of_mem he))
  have start : cur q user key = cur p user key := by
    have views := same user key name
    rw [view_eq, view_eq] at views
    split at views
    · rename_i absent
      split at views
      · rename_i absent'
        rw [absent, absent']
      · cases views
    · split at views
      · cases views
      · exact Option.some.inj views
  have writes : (arrivals.map Prod.snd).filter (writesTo user key) =
      (commands.map Prod.snd).filter (writesTo user key) :=
    (inOrder user key).trans (order user key)
  refine view_congr ?_
  rw [run_effect live' plainHandled handled name,
    run_effect live (fun e he => (plain e he).1) (run_of_execute executed) name, start,
    foldl_effectOn, writes, ← foldl_effectOn]

/-! Two nodes -/

def members : List Address :=
  [Address.init "127.0.0.1:7000".toList, Address.init "127.0.0.1:7001".toList]

def other : Address := Address.init "127.0.0.1:7001".toList

def primaryNode : Node := { nodeAt 7000 [bob] with isPrimary := true, secondary := members }
def secondaryNode : Node := { nodeAt 7001 [bob] with isPrimary := false, secondary := members }

def putsOf (key value : Str) : Event :=
  (surroundings, { com := .puts, usr := some bob, key := key, value1 := value })

theorem plain_putsOf {key : Str} (line : OneLine key) (value : Str) :
    Plain (putsOf key value).2 ∧ written (putsOf key value).2 ≠ none :=
  ⟨⟨userName_bob, line⟩, by simp [putsOf, written]⟩

theorem writesTo_putsOf_ne {k key : Str} (apart : k ≠ key) (user value : Str) :
    writesTo user key (putsOf k value).2 = false := by
  simp [putsOf, writesTo, apart]

theorem same_views (user key : Str) (name : UserName user) :
    view secondaryNode user key = view primaryNode user key := by
  rw [secondaryNode, primaryNode, view_nodeAt _ _ _ name, view_nodeAt _ _ _ name]

theorem lists_other : Lists primaryNode other := ⟨by decide +kernel, by decide +kernel⟩

/-- Writes to two keys may overtake one another. -/
theorem views_after_overtaking : ∃ p' q' forwards,
    execute primaryNode [putsOf pwd "one".toList, putsOf "x".toList "two".toList] =
      some (p', forwards) ∧
    run turn secondaryNode [putsOf "x".toList "two".toList, putsOf pwd "one".toList] = some q' ∧
    view q' bob pwd = view p' bob pwd := by
  have sent : (execute primaryNode
      [putsOf pwd "one".toList, putsOf "x".toList "two".toList]).map (fun r =>
        deliveries other r.2) =
      some [(putsOf pwd "one".toList).2, (putsOf "x".toList "two".toList).2] := by decide +kernel
  obtain ⟨⟨p', forwards⟩, executed, delivered⟩ := Option.map_eq_some_iff.mp sent
  have handles : (run turn secondaryNode
      [putsOf "x".toList "two".toList, putsOf pwd "one".toList]).isSome = true := by
    decide +kernel
  obtain ⟨q', handled⟩ := Option.isSome_iff_exists.mp handles
  have plain : ∀ e ∈ [putsOf pwd "one".toList, putsOf "x".toList "two".toList],
      Plain e.2 ∧ written e.2 ≠ none := by
    intro e he
    simp only [List.mem_cons, List.not_mem_nil, or_false] at he
    rcases he with rfl | rfl
    · exact plain_putsOf (by decide) _
    · exact plain_putsOf (by decide) _
  refine ⟨p', q', forwards, executed, handled, views_converge
    (started_cluster (started_nodeAt 7000) true members)
    (started_cluster (started_nodeAt 7001) false members) same_views rfl lists_other plain executed
    ?_ ?_ handled userName_bob pwd⟩
  · rw [delivered]
    exact .swap _ _ []
  · rw [delivered]
    intro user key
    by_cases first : pwd = key
    · have apart : "x".toList ≠ key := by
        rw [← first]
        decide +kernel
      have skip := writesTo_putsOf_ne apart user "two".toList
      simp only [List.map_cons, List.map_nil, List.filter_cons, skip, List.filter_nil]
      rfl
    · have skip := writesTo_putsOf_ne first user "one".toList
      simp only [List.map_cons, List.map_nil, List.filter_cons, skip, List.filter_nil]
      rfl

/-- Two writes to one key that overtake one another leave different values. -/
theorem diverged_after_overtaking :
    ¬ ∀ (p q p' q' : Node) (address : Address) (commands arrivals : List Event)
      (forwards : List Forward), Started p → Started q →
      (∀ user key, UserName user → view q user key = view p user key) → p.isPrimary = true →
      Lists p address → (∀ e ∈ commands, Plain e.2 ∧ written e.2 ≠ none) →
      execute p commands = some (p', forwards) →
      (arrivals.map Prod.snd).Perm (deliveries address forwards) →
      run turn q arrivals = some q' →
      ∀ user key : Str, UserName user → view q' user key = view p' user key := by
  intro claim
  have sent : (execute primaryNode
      [putsOf pwd "one".toList, putsOf pwd "two".toList]).map (fun r =>
        (deliveries other r.2, view r.1 bob pwd)) =
      some ([(putsOf pwd "one".toList).2, (putsOf pwd "two".toList).2], some "two".toList) := by
    decide +kernel
  obtain ⟨⟨p', forwards⟩, executed, sees⟩ := Option.map_eq_some_iff.mp sent
  obtain ⟨delivered, newer⟩ := Prod.mk.inj sees
  have handles : (run turn secondaryNode
      [putsOf pwd "two".toList, putsOf pwd "one".toList]).map (fun q => view q bob pwd) =
      some (some "one".toList) := by decide +kernel
  obtain ⟨q', handled, older⟩ := Option.map_eq_some_iff.mp handles
  have plain : ∀ e ∈ [putsOf pwd "one".toList, putsOf pwd "two".toList],
      Plain e.2 ∧ written e.2 ≠ none := by
    intro e he
    simp only [List.mem_cons, List.not_mem_nil, or_false] at he
    rcases he with rfl | rfl
    · exact plain_putsOf (by decide) _
    · exact plain_putsOf (by decide) _
  have same := claim primaryNode secondaryNode p' q' other _ _ forwards
    (started_cluster (started_nodeAt 7000) true members)
    (started_cluster (started_nodeAt 7001) false members) same_views rfl lists_other plain executed
    (by rw [delivered]; exact .swap _ _ []) handled bob pwd userName_bob
  rw [older, newer] at same
  cases Option.some.inj same

end Replication
