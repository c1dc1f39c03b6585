import PennCloud.BackendLists

/-!
# The primary that front ends and backends are told

Front ends are sent to the first backend of a group that is alive. Backends are
told the list of those of their group that are alive, and the first of it is the
primary. Every connection is assumed to succeed here.
-/

namespace PrimaryRouting

open Text UnorderedMap KvInterface FirstMatch Monitor Runs BackendLists

/-- The lists, with every command the master has sent. -/
structure Sender where
  lists : Lists
  sent : List Message

def step (s : Sender) (call : Call) : Option Sender :=
  some ⟨(s.lists.call call).1, s.sent ++ (s.lists.call call).2⟩

/-- The list an address was sent last. -/
def lastTold (sent : List Message) (addr : Address) : Option (List Str) :=
  (sent.reverse.find? fun m => m.1 = addr ∧ m.2.com = .cluster).map fun m => m.2.addrs

section LastTold
variable {sent tail : List Message} {vec : List Address} {addr : Address}

theorem lastTold_quiet (quiet : Quiet tail) : lastTold (sent ++ tail) addr = lastTold sent addr := by
  have none : tail.reverse.find? (fun m => m.1 = addr ∧ m.2.com = .cluster) = none := by
    refine List.find?_eq_none.mpr fun m hm found => ?_
    simp only [Bool.decide_and, Bool.and_eq_true, decide_eq_true_eq] at found
    exact quiet m (List.mem_reverse.mp hm) found.2
  rw [lastTold, List.reverse_append, List.find?_append, none]
  rfl

theorem lastTold_broadcast_mem (told : addr ∈ vec) :
    lastTold (sent ++ broadcastGroupAddr vec) addr = some (vec.map Address.name) := by
  have found : ((broadcastGroupAddr vec).reverse.find? fun m =>
      m.1 = addr ∧ m.2.com = .cluster).map (fun m => m.2.addrs) = some (vec.map Address.name) := by
    cases h : (broadcastGroupAddr vec).reverse.find? fun m => m.1 = addr ∧ m.2.com = .cluster with
    | none =>
      have absent := List.find?_eq_none.mp h (addr, { com := .cluster, addrs := vec.map Address.name })
      refine absurd ?_ (absent (List.mem_reverse.mpr (List.mem_map_of_mem told)))
      simp
    | some m =>
      have mem := List.mem_reverse.mp (List.mem_of_find?_eq_some h)
      obtain ⟨a, -, rfl⟩ := List.mem_map.mp mem
      rfl
  rw [lastTold, List.reverse_append, List.find?_append]
  cases h : (broadcastGroupAddr vec).reverse.find? fun m => m.1 = addr ∧ m.2.com = .cluster with
  | none => rw [h] at found; cases found
  | some m => rw [h] at found; exact found

theorem lastTold_broadcast_not_mem (notTold : addr ∉ vec) :
    lastTold (sent ++ broadcastGroupAddr vec) addr = lastTold sent addr := by
  have none : (broadcastGroupAddr vec).reverse.find? (fun m => m.1 = addr ∧ m.2.com = .cluster) =
      none := by
    refine List.find?_eq_none.mpr fun m hm found => ?_
    obtain ⟨a, ha, rfl⟩ := List.mem_map.mp (List.mem_reverse.mp hm)
    simp only [Bool.decide_and, Bool.and_eq_true, decide_eq_true_eq] at found
    exact notTold (found.1 ▸ ha)
  rw [lastTold, List.reverse_append, List.find?_append, none]
  rfl

end LastTold

/-- The first of a group that is alive. -/
def Lists.head (m : Lists) (group : Nat) : Option Backend :=
  m.aliveBackends.find? fun b => b.groupId = group

/-- The backends keep their addresses and groups, each in one of the two lists, and those that
are alive know who else of their group is. -/
structure Told (s : Sender) : Prop where
  distinct : (s.lists.backends.map fun b => b.addr.name).Nodup
  keys : ((s.lists.aliveBackends ++ s.lists.deadBackends).map Backend.key).Perm
    (s.lists.backends.map Backend.key)
  told : ∀ b ∈ s.lists.aliveBackends,
    lastTold s.sent b.addr = some ((s.lists.getCluster b.addr).map Address.name)

section Groups
variable {m m' : Lists}

/-- Each backend has the group that its address has. -/
theorem groupOf_of_mem (distinct : (m.backends.map fun b => b.addr.name).Nodup)
    {b : Backend} (hb : b.key ∈ m.backends.map Backend.key) :
    m.groupOf b.addr = b.groupId := by
  obtain ⟨c, hc, key⟩ := List.mem_map.mp hb
  have addr : c.addr = b.addr := congrArg Prod.fst key
  have group : c.groupId = b.groupId := congrArg Prod.snd key
  rw [Lists.groupOf, ← addr, ← group]
  cases found : m.backends.find? fun d => d.addr.name = c.addr.name with
  | none => simpa using List.find?_eq_none.mp found c hc
  | some d =>
    have name : d.addr.name = c.addr.name := by simpa using List.find?_some found
    have same := List.inj_on_of_nodup_map distinct (List.mem_of_find?_eq_some found) hc name
    rw [same]

theorem groupOf_eq (m : Lists) (addr : Address) : m.groupOf addr =
    ((m.backends.map Backend.key).find? fun k => k.1.name = addr.name).elim noGroup Prod.snd := by
  rw [Lists.groupOf, List.find?_map]
  change _ = ((m.backends.find? fun b => b.addr.name = addr.name).map Backend.key).elim _ _
  cases m.backends.find? fun b => b.addr.name = addr.name <;> rfl

theorem groupOf_congr (kept : m'.backends.map Backend.key = m.backends.map Backend.key)
    (addr : Address) : m'.groupOf addr = m.groupOf addr := by
  rw [groupOf_eq, groupOf_eq, kept]

theorem groupOf_of_name (distinct : (m.backends.map fun b => b.addr.name).Nodup) {addr : Address}
    {b : Backend} (hb : b.key ∈ m.backends.map Backend.key) (name : b.addr.name = addr.name) :
    m.groupOf addr = b.groupId := by
  rw [← groupOf_of_mem distinct hb, Lists.groupOf, Lists.groupOf, name]

theorem mem_getCluster {addr a : Address} :
    a ∈ m.getCluster addr ↔
      ∃ b ∈ m.aliveBackends, b.groupId = m.groupOf addr ∧ b.addr = a := by
  simp [Lists.getCluster, and_assoc]

end Groups

section Told
variable {s : Sender}

/-- After a change to one group that it is told of, every group is told. -/
theorem told_broadcast {s : Sender} {m' : Lists} {addr : Address} {tail : List Message}
    (told : Told s)
    (keys : ((m'.aliveBackends ++ m'.deadBackends).map Backend.key).Perm
      (m'.backends.map Backend.key))
    (kept : m'.backends.map Backend.key = s.lists.backends.map Backend.key)
    (others : ∀ group, group ≠ m'.groupOf addr →
      m'.aliveBackends.filter (fun b => b.groupId = group) =
        s.lists.aliveBackends.filter fun b => b.groupId = group) (quiet : Quiet tail) :
    Told ⟨m', s.sent ++ (broadcastGroupAddr (m'.getCluster addr) ++ tail)⟩ := by
  have distinct : (m'.backends.map fun b => b.addr.name).Nodup := by
    rw [names_kept kept]
    exact told.distinct
  have own : ∀ b ∈ m'.aliveBackends, m'.groupOf b.addr = b.groupId := fun b hb =>
    groupOf_of_mem distinct (keys.mem_iff.mp (List.mem_map_of_mem (List.mem_append_left _ hb)))
  refine ⟨distinct, keys, fun b hb => ?_⟩
  rw [← List.append_assoc, lastTold_quiet quiet]
  by_cases same : b.groupId = m'.groupOf addr
  · have cluster : m'.getCluster b.addr = m'.getCluster addr := by
      simp only [Lists.getCluster, own b hb, same]
    rw [cluster, lastTold_broadcast_mem (mem_getCluster.mpr ⟨b, hb, same, rfl⟩)]
  · have notTold : b.addr ∉ m'.getCluster addr := by
      intro member
      obtain ⟨c, hc, group, addrs⟩ := mem_getCluster.mp member
      exact same (by rw [← own b hb, ← addrs, own c hc, group])
    have old : b ∈ s.lists.aliveBackends := by
      have mem : b ∈ m'.aliveBackends.filter fun d => d.groupId = b.groupId :=
        List.mem_filter.mpr ⟨hb, by simp⟩
      rw [others _ same] at mem
      exact (List.mem_filter.mp mem).1
    have cluster : m'.getCluster b.addr = s.lists.getCluster b.addr := by
      simp only [Lists.getCluster, ← groupOf_congr kept, own b hb, others _ same]
    rw [lastTold_broadcast_not_mem notTold, told.told b old, cluster]

theorem filter_eraseP_of_find? {l : List Backend} {p q : Backend → Bool} {b : Backend}
    (found : l.find? p = some b) (other : q b = false) : (l.eraseP p).filter q = l.filter q := by
  obtain ⟨matched, before, after, rfl, unmatched⟩ := List.find?_eq_some_iff_append.mp found
  rw [List.eraseP_append_right _ fun a ha => by simpa using unmatched a ha,
    List.eraseP_cons_of_pos matched]
  simp [other]

theorem told_call (told : Told s) (call : Call) :
    Told ⟨(s.lists.call call).1, s.sent ++ (s.lists.call call).2⟩ := by
  have moved := moved_call s.lists call
  generalize s.lists.call call = r at moved ⊢
  have distinct : (r.1.backends.map fun b => b.addr.name).Nodup := by
    rw [names_kept moved.keys]
    exact told.distinct
  cases moved with
  | still alive dead backends groupSize =>
    refine ⟨distinct, ?_, fun b hb => ?_⟩
    · rw [List.map_append, alive, dead, backends, ← List.map_append]
      exact told.keys
    · rw [List.append_nil, told.told b (alive ▸ hb)]
      simp only [Lists.getCluster, groupOf_congr backends, alive]
  | joined found key same alive dead backends groupSize sent quiet =>
    rename_i m' b b' addr rest messages tail
    have old : b.key ∈ s.lists.backends.map Backend.key :=
      told.keys.mem_iff.mp (List.mem_map_of_mem (List.mem_append_right _
        (found.mem_iff.mpr List.mem_cons_self)))
    have keys : ((m'.aliveBackends ++ m'.deadBackends).map Backend.key).Perm
        (m'.backends.map Backend.key) := by
      rw [alive, dead, backends]
      refine List.Perm.trans ?_ told.keys
      rw [List.append_assoc, List.map_append, @List.map_append _ _ _ s.lists.aliveBackends]
      refine List.Perm.append_left _ ?_
      rw [List.singleton_append, List.map_cons, key, ← List.map_cons]
      exact (found.map Backend.key).symm
    have group : b'.groupId = m'.groupOf addr := by
      rw [groupOf_of_name distinct (backends ▸ old) same]
      exact congrArg Prod.snd key
    subst sent
    refine told_broadcast told keys backends (fun g other => ?_) quiet
    rw [alive, List.filter_append]
    have out : [b'].filter (fun b => b.groupId = g) = [] := by
      simpa [group] using Ne.symm other
    rw [out, List.append_nil]
  | left p found key same alive dead backends groupSize sent quiet =>
    rename_i m' b b' addr messages tail
    have old : b.key ∈ s.lists.backends.map Backend.key :=
      told.keys.mem_iff.mp (List.mem_map_of_mem (List.mem_append_left _
        (List.mem_of_find?_eq_some found)))
    have keys : ((m'.aliveBackends ++ m'.deadBackends).map Backend.key).Perm
        (m'.backends.map Backend.key) := by
      rw [alive, dead, backends]
      refine List.Perm.trans ?_ told.keys
      have split := ((perm_of_find? found).append_right s.lists.deadBackends).map Backend.key
      refine List.Perm.trans ?_ split.symm
      rw [← List.append_assoc, List.map_append, List.map_singleton, key]
      exact List.perm_append_singleton _ _
    have group : b.groupId = m'.groupOf addr :=
      (groupOf_of_name distinct (backends ▸ old) same).symm
    subst sent
    refine told_broadcast told keys backends (fun g other => ?_) quiet
    rw [alive, filter_eraseP_of_find? found]
    simpa [group] using Ne.symm other

theorem told_run {it : Iteration GroupLoop} {text : Str}
    (distinct : ((initializeBackend it text).backends.map fun b => b.addr.name).Nodup)
    {calls : List Call} {s : Sender}
    (h : run step ⟨initializeBackend it text, []⟩ calls = some s) : Told s := by
  refine run_invariant (P := Told) (fun t call t' told ht => ?_)
    ⟨distinct, List.Perm.refl _, fun b hb => ?_⟩ h
  · cases ht
    exact told_call told call
  · cases hb

theorem find?_eraseP {l : List Backend} {p q : Backend → Bool} {b d : Backend}
    (found : l.find? p = some d) (head : l.find? q = some b) (other : b ≠ d) :
    (l.eraseP p).find? q = some b := by
  obtain ⟨matched, before, after, rfl, unmatched⟩ := List.find?_eq_some_iff_append.mp found
  rw [List.eraseP_append_right _ fun a ha => by simpa using unmatched a ha,
    List.eraseP_cons_of_pos matched]
  rw [List.find?_append] at head ⊢
  cases first : before.find? q with
  | some c => rwa [first] at head
  | none =>
    rw [first, Option.none_or, List.find?_cons] at head
    split at head
    · exact absurd (Option.some.inj head).symm other
    · exact head

theorem names_alive (told : Told s) : (s.lists.aliveBackends.map fun b => b.addr.name).Nodup := by
  have all := (told.keys.map fun k : Address × Nat => k.1.name).nodup_iff.mpr
    (by simpa only [List.map_map, Function.comp_def, Backend.key] using told.distinct)
  rw [List.map_append, List.map_append, List.map_map, List.nodup_append] at all
  exact all.1

/-- The head of a group stays until it is no longer alive. -/
theorem head_stays (told : Told s) (call : Call) {group : Nat} {b : Backend}
    (head : Lists.head s.lists group = some b)
    (stays : ∃ c ∈ (s.lists.call call).1.aliveBackends, c.addr = b.addr) :
    Lists.head (s.lists.call call).1 group = some b := by
  have moved := moved_call s.lists call
  generalize s.lists.call call = r at moved stays ⊢
  cases moved with
  | still alive dead backends groupSize =>
    rw [Lists.head, alive]
    exact head
  | joined found key same alive dead backends groupSize sent quiet =>
    rw [Lists.head] at head
    rw [Lists.head, alive, List.find?_append, head]
    rfl
  | left p found key same alive dead backends groupSize sent quiet =>
    rename_i m' d d' addr messages tail
    obtain ⟨c, hc, addrs⟩ := stays
    rw [alive] at hc
    rw [Lists.head, alive]
    refine find?_eraseP found head ?_
    rintro rfl
    have split := (perm_of_find? found).map fun b => b.addr.name
    exact unmatched_of_nodup (split.nodup_iff.mp (names_alive told)) c hc (congrArg _ addrs)

end Told

/-- In every state the master gets to, each backend that is alive was last sent the list of
those of its group that are, the first of them is the primary of every user of the group, and
it stays the first until it is no longer alive. -/
theorem told_same_primary (it : Iteration GroupLoop) (text : Str)
    (distinct : ((initializeBackend it text).backends.map fun b => b.addr.name).Nodup)
    (calls : List Call) (s : Sender)
    (h : run step ⟨initializeBackend it text, []⟩ calls = some s) :
    (∀ b ∈ s.lists.aliveBackends,
      lastTold s.sent b.addr = some ((s.lists.getCluster b.addr).map Address.name) ∧
      ∀ usr, s.lists.getGroupId usr = b.groupId →
        ∃ c, s.lists.getPrimary usr = some c ∧ (s.lists.getCluster b.addr).head? = some c.addr) ∧
    ∀ call group b, Lists.head s.lists group = some b →
      (∃ c ∈ (s.lists.call call).1.aliveBackends, c.addr = b.addr) →
      Lists.head (s.lists.call call).1 group = some b := by
  have told := told_run distinct h
  refine ⟨fun b hb => ⟨told.told b hb, fun usr group => ?_⟩,
    fun call group b head stays => head_stays told call head stays⟩
  have own : s.lists.groupOf b.addr = b.groupId := groupOf_of_mem told.distinct
    (told.keys.mem_iff.mp (List.mem_map_of_mem (List.mem_append_left _ hb)))
  rw [Lists.getPrimary, Lists.getCluster, own, ← group]
  cases found : s.lists.aliveBackends.find? fun b => b.groupId = s.lists.getGroupId usr with
  | none =>
    have absent := List.find?_eq_none.mp found b hb
    simp [group] at absent
  | some c =>
    refine ⟨c, rfl, ?_⟩
    rw [List.head?_map, List.head?_filter, found]
    rfl

/-- Two backends of one group register, and the first is killed. -/
def twoBackends : Str := "1,127.0.0.1:7000\n1,127.0.0.1:7001".toList

def killed : List Call :=
  [.setBackendFd (Address.init "127.0.0.1:7000".toList) 1,
    .setBackendFd (Address.init "127.0.0.1:7001".toList) 2,
    .killBackend (Address.init "127.0.0.1:7000".toList)]

theorem told_after_kill : ∃ s,
    run step ⟨initializeBackend (Iteration.stored GroupLoop) twoBackends, []⟩ killed = some s ∧
      (s.lists.aliveBackends.map fun b => b.addr.name) = ["127.0.0.1:7001".toList] ∧
      ∀ b ∈ s.lists.aliveBackends,
        lastTold s.sent b.addr = some ((s.lists.getCluster b.addr).map Address.name) := by
  refine ⟨_, rfl, by decide +kernel, fun b hb => ?_⟩
  exact ((told_same_primary (Iteration.stored GroupLoop) twoBackends (by decide +kernel) killed _
    rfl).1 b hb).1

end PrimaryRouting
