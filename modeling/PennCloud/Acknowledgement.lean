import PennCloud.CacheSteps

/-!
# Acknowledged writes

The reply to a command starts out as FINISHED and is sent by whoever is primary
when the command is done. A killed node that has been told it is primary thus
acknowledges writes it drops.
-/

namespace Acknowledgement

open Text FileTree KvInterface UnorderedMap ChunkFiles KvCache KvStore CacheSteps Runs

abbrev Event := Surroundings × KvCommand

/-- The node after one turn of `handle_connect`. -/
def turn (n : Node) (e : Event) : Option Node := (handleConnect e.1 n e.2).map Turn.node

/-- The pair a command writes and the value it writes there. -/
def written (command : KvCommand) : Option (Str × Str × Str) :=
  match command.com with
  | .puts => some (command.user, command.key, command.value1)
  | .cput => some (command.user, command.key, command.value2)
  | .dele => some (command.user, command.key, [])
  | _ => none

def Holds (n : Node) (w : Str × Str × Str) : Prop :=
  find2 n.cache.updatesCache w.1 w.2.1 = some w.2.2

/-- A write that is answered with FINISHED is in the updates. -/
def AckApplied (n : Node) (e : Event) : Prop :=
  ∀ w t ret, written e.2 = some w → answer e.1 n e.2 = some t → t.reply = some ret →
    ret.status = .finished → Holds t.node w

/-- A write does not reach a killed node that is primary, unless it changes nothing. -/
def NotAtDeadPrimary (n : Node) (e : Event) : Prop :=
  ∀ w, written e.2 = some w → n.killed = true → n.isPrimary = true → Holds n w

theorem holds_putsPair (n : Node) (c : Cache) (user key value : Str) :
    Holds { n with cache := c.putsPair user key value } (user, key, value) :=
  (find2_set2 c.updatesCache user user key key value).trans (if_pos ⟨rfl, rfl⟩)

/-- A logged write that succeeds puts its pair into the updates. -/
theorem holds_logAndPut {n : Node} {entry user key value : Str}
    (h : (n.logAndPut entry user key value).1 = .finished) :
    Holds (n.logAndPut entry user key value).2 (user, key, value) := by
  have logAndPut : n.logAndPut entry user key value =
      if (n.log entry).1 ≠ .finished then n.log entry
      else (.finished, { (n.log entry).2 with
        cache := (n.log entry).2.cache.putsPair user key value }) := rfl
  by_cases done : (n.log entry).1 = .finished
  · rw [logAndPut, if_neg (not_not_intro done)]
    exact holds_putsPair _ _ _ _ _
  · rw [logAndPut, if_pos done] at h
    exact absurd h done

theorem holds_puts {n : Node} {user key value : Str} {seqNum : Nat}
    (h : (n.puts user key value seqNum).1 = .finished) :
    Holds (n.puts user key value seqNum).2 (user, key, value) := by
  cases valid : (n.cache.validateAndUpdateSeqNum seqNum).1 with
  | true =>
    simp only [Node.puts, valid, if_true] at h ⊢
    exact holds_logAndPut h
  | false => simp [Node.puts, valid] at h

theorem holds_dele {n : Node} {user key : Str} {seqNum : Nat}
    (h : (n.dele user key seqNum).1 = .finished) :
    Holds (n.dele user key seqNum).2 (user, key, []) := by
  cases valid : (n.cache.validateAndUpdateSeqNum seqNum).1 with
  | true =>
    simp only [Node.dele, valid, if_true] at h ⊢
    exact holds_logAndPut h
  | false => simp [Node.dele, valid] at h

theorem holds_cputs {n m : Node} {user key prev new : Str} {seqNum : Nat}
    (h : n.cputs user key prev new seqNum = some (.finished, m)) :
    Holds m (user, key, new) := by
  cases valid : (n.cache.validateAndUpdateSeqNum seqNum).1 with
  | false => simp [Node.cputs, valid] at h
  | true =>
    simp only [Node.cputs, valid, if_true] at h
    obtain ⟨r, -, hr⟩ := Option.map_eq_some_iff.mp h
    split at hr
    · rename_i failed
      exact absurd (congrArg Prod.fst hr) failed
    · split at hr
      · cases congrArg Prod.fst hr
      · have holds := holds_logAndPut (congrArg Prod.fst hr)
        rwa [hr] at holds

/-! Commands -/

/-- On a node that is not killed, a write that ends with FINISHED is in the updates. -/
theorem holds_runCommand {env : Surroundings} {n m : Node} {command : KvCommand}
    {ret ret' : KvRet} {forwards : List Forward} {w : Str × Str × Str}
    (writes : written command = some w) (alive : n.killed = false)
    (h : runCommand env n command ret = some (m, ret', forwards))
    (finished : ret'.status = .finished) : Holds m w := by
  unfold written at writes
  unfold runCommand at h
  cases com : command.com with
  | puts =>
    simp only [com, alive, reduceCtorEq, false_and, if_false, Bool.false_eq_true] at h writes
    cases h
    cases writes
    exact holds_puts finished
  | dele =>
    simp only [com, alive, reduceCtorEq, false_and, if_false, Bool.false_eq_true] at h writes
    cases h
    cases writes
    exact holds_dele finished
  | cput =>
    simp only [com, alive, reduceCtorEq, false_and, if_false, Bool.false_eq_true] at h writes
    cases writes
    obtain ⟨p, -, hp⟩ := Option.bind_eq_some_iff.mp h
    obtain ⟨⟨status, m'⟩, hr, heq⟩ := Option.map_eq_some_iff.mp hp
    cases heq
    obtain rfl : status = .finished := finished
    exact holds_cputs hr
  | gets | all | ckpt | sync | cluster | kill | restart | other => simp [com] at writes

/-- A killed node answers a write without looking at it. -/
theorem runCommand_killed {env : Surroundings} {n : Node} {command : KvCommand} {ret : KvRet}
    {w : Str × Str × Str} (writes : written command = some w) (dead : n.killed = true) :
    runCommand env n command ret = some (n, ret, []) := by
  unfold written at writes
  unfold runCommand
  cases com : command.com with
  | puts | dele | cput => simp [dead]
  | gets | all | ckpt | sync | cluster | kill | restart | other => simp [com] at writes

theorem ackApplied_iff (n : Node) (e : Event) : AckApplied n e ↔ NotAtDeadPrimary n e := by
  obtain ⟨env, command⟩ := e
  obtain ⟨m, hm⟩ : ∃ m, m = { n with lastCheckpointTime := n.lastCheckpointTime + 1 } := ⟨_, rfl⟩
  have answers : answer env n command = (runCommand env m command ⟨.finished, [], []⟩).map
      fun r => ⟨r.1, if r.1.isPrimary then some r.2.1 else none, r.2.2⟩ := by rw [hm]; rfl
  constructor
  · intro applied w writes dead primary
    have reply : answer env n command = some ⟨m, some ⟨.finished, [], []⟩, []⟩ := by
      rw [answers, runCommand_killed writes (by rw [hm]; exact dead)]
      simp [hm, primary]
    have holds := applied w _ _ writes reply rfl rfl
    rw [hm] at holds
    exact holds
  · intro guarded w t ret writes ht hret finished
    rw [answers] at ht
    obtain ⟨⟨m', ret', forwards⟩, hr, rfl⟩ := Option.map_eq_some_iff.mp ht
    simp only [Option.ite_none_right_eq_some, Option.some.injEq] at hret
    obtain ⟨primary, rfl⟩ := hret
    cases killed : n.killed with
    | false => exact holds_runCommand writes (by rw [hm]; exact killed) hr finished
    | true =>
      rw [runCommand_killed writes (by rw [hm]; exact killed)] at hr
      cases hr
      rw [hm] at primary ⊢
      exact guarded w writes killed primary

/-- Every acknowledged write of a run was applied exactly when no write of it reaches a
killed node that is primary. -/
theorem acknowledged_iff (n : Node) (events : List Event) :
    Along turn AckApplied n events ↔ Along turn NotAtDeadPrimary n events :=
  along_congr ackApplied_iff

def surroundings : Surroundings := { it := Iteration.stored Loop }

/-- The master names the node primary, kills it, and announces its restart. -/
def announcedRestart : List Event :=
  [(surroundings, { com := .cluster, addrs := ["127.0.0.1:7000".toList] }),
    (surroundings, { com := .kill }),
    (surroundings, { com := .cluster, addrs := ["127.0.0.1:7000".toList] })]

def earlyPuts : Event :=
  (surroundings, { com := .puts, usr := some bob, key := pwd, value1 := "one".toList })

/-- A write that comes between the announcement and the restart is acknowledged and lost. -/
theorem acknowledged_and_dropped :
    ¬ ∀ (n : Node) (events : List Event), Along turn AckApplied n events := by
  intro claim
  have after := claim (smallNode [bob]) (announcedRestart ++ [earlyPuts])
  have outcome : ((run turn (smallNode [bob]) announcedRestart).bind fun n =>
      (answer earlyPuts.1 n earlyPuts.2).map fun t =>
        (t.reply, find2 t.node.cache.updatesCache bob pwd)) =
      some (some ⟨.finished, [], []⟩, none) := by decide +kernel
  obtain ⟨n, hn, ht⟩ := Option.bind_eq_some_iff.mp outcome
  obtain ⟨t, ha, heq⟩ := Option.map_eq_some_iff.mp ht
  obtain ⟨reply, lost⟩ := Prod.mk.inj heq
  have holds := along_after after hn (bob, pwd, "one".toList) t _ rfl ha reply rfl
  rw [Holds, lost] at holds
  cases holds

end Acknowledgement
