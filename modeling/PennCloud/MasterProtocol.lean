import PennCloud.PrimaryRouting
import PennCloud.Roles

/-!
# The master and the backends it commands

The master keeps its lists as connections open and close and as the
administrator kills and restarts backends. It sends each command on a connection
of its own, so commands may arrive in any order. A backend runs at a port, may
crash, and may be started again there.
-/

namespace MasterProtocol

open Text FileTree KvInterface UnorderedMap FirstMatch Monitor KvCache KvStore Runs BackendLists
open PrimaryRouting (mem_getCluster groupOf_congr groupOf_of_mem find?_eraseP)
open Roles (roleOf roleAfter)
open Counters (recover)

/-- `my_addr`. -/
def myAddr (port : Nat) : Address := Address.init ("127.0.0.1:".toList ++ toDecimal port)

/-- A running backend, with its connection to the master once it has registered. -/
structure Process where
  fd : Option Nat
  node : Node

/-- A command on its way, with the number of the operation that sent it. -/
structure Flight where
  op : Nat
  port : Nat
  command : KvCommand
  deriving DecidableEq

structure System where
  lists : Lists
  opened : List Nat
  processes : UMap Nat Process
  flights : List Flight
  ops : Nat

/-- The commands that find a running backend to connect to. -/
def System.sends (s : System) (messages : List Message) : List Flight :=
  (messages.filter fun m => (s.processes.lookup m.1.port).isSome).map fun m =>
    ⟨s.ops, m.1.port, m.2⟩

def System.call (s : System) (call : Call) : System :=
  { s with
    lists := (s.lists.call call).1
    flights := s.flights ++ s.sends (s.lists.call call).2
    ops := s.ops + 1 }

/-- A process ends, and what was on its way to it is lost. -/
def System.ended (s : System) (port : Nat) : System :=
  { s with
    processes := s.processes.erase port
    flights := s.flights.filter fun m => m.port ≠ port }

def System.became (s : System) (port : Nat) (p : Process) (node : Node) : System :=
  { s with processes := s.processes.insert port { p with node := node } }

inductive Event where
  | start (port : Nat) (fs : Tree)
  | register (port fd : Nat)
  | initialise (port : Nat) (env : Surroundings)
  | crash (port : Nat)
  | close (fd : Nat)
  | kill (addr : Str)
  | restart (addr : Str)
  | deliver (m : Flight) (env : Surroundings)
  | serve (port : Nat) (env : Surroundings) (c : KvCommand)

/-- One event. A process registers once, on a connection that is closed once the process has
ended. A command that fails ends the process. -/
def step (s : System) : Event → Option System
  | .start port fs =>
    if (s.processes.lookup port).isSome then none
    else some { s with processes := s.processes.insert port ⟨none, Node.boot port fs⟩ }
  | .register port fd =>
    (s.processes.lookup port).bind fun p =>
      if p.fd ≠ none ∨ fd ∈ s.opened then none
      else some { s.call (.setBackendFd (myAddr port) fd) with
        opened := fd :: s.opened
        processes := s.processes.insert port { p with fd := some fd } }
  | .initialise port env =>
    (s.processes.lookup port).bind fun p =>
      if p.node.initialized then
        some (match recover env p.node with
          | none => s.ended port
          | some node => s.became port p node)
      else none
  | .crash port => if (s.processes.lookup port).isSome then some (s.ended port) else none
  | .close fd =>
    if fd ∈ s.opened ∧ ∀ e ∈ s.processes.entries, e.2.fd ≠ some fd then
      some { s.call (.deleteBackendFd fd) with opened := s.opened.filter (· ≠ fd) }
    else none
  | .kill addr => some (s.call (.killBackend (Address.init addr)))
  | .restart addr => some (s.call (.restartBackend (Address.init addr)))
  | .deliver m env =>
    (s.processes.lookup m.port).bind fun p =>
      if m ∈ s.flights then
        some (match handleConnect env p.node m.command with
          | none => s.ended m.port
          | some turn => { s.became m.port p turn.node with flights := s.flights.erase m })
      else none
  | .serve port env c =>
    (s.processes.lookup port).bind fun p =>
      if c.com = .cluster ∨ c.com = .kill ∨ c.com = .restart then none
      else some (match handleConnect env p.node c with
        | none => s.ended port
        | some turn => s.became port p turn.node)

/-- The master that has read its configuration. -/
def started (it : Iteration GroupLoop) (text : Str) : System :=
  ⟨initializeBackend it text, [], ∅, [], 0⟩

/-! Addresses -/

theorem name_init (name : Str) : (Address.init name).name = name := by
  unfold Address.init
  split <;> rfl

theorem atoi_toDecimal (n : Nat) : atoi (toDecimal n) = n := by
  have skip : (toDecimal n).dropWhile isSpace = toDecimal n := by
    obtain ⟨c, cs, hc⟩ := List.exists_cons_of_ne_nil (toDecimal_ne_nil n)
    have digit : c.isDigit = true := isDigit_of_mem_toDecimal (n := n) (by rw [hc]; simp)
    rw [hc, List.dropWhile_cons_of_neg (by simp [isDigit_not_space digit])]
  rw [atoi, skip, takeWhile_digits_toDecimal, digitsValue_toDecimal]

theorem port_myAddr (port : Nat) : (myAddr port).port = port := by
  have colon : ':' ∉ "127.0.0.1".toList := by decide +kernel
  have spelled : "127.0.0.1:".toList ++ toDecimal port =
      "127.0.0.1".toList ++ ':' :: toDecimal port := by
    have same : "127.0.0.1:".toList = "127.0.0.1".toList ++ [':'] := by decide +kernel
    rw [same, List.append_assoc]
    rfl
  rw [myAddr, spelled, Address.init, if_pos (by simp), getLine_append colon]
  exact atoi_toDecimal port

theorem myAddr_injective : Function.Injective myAddr := by
  intro i j same
  rw [← port_myAddr i, same, port_myAddr]

theorem init_name_myAddr (port : Nat) : Address.init (myAddr port).name = myAddr port := by
  rw [myAddr, name_init]

/-! What an operation does -/

/-- An operation of the master, in the cases it has. -/
inductive Called (m m' : Lists) : Call → List Message → Prop where
  | unknown {addr : Address} {fd : Int}
      (absent : ∀ b ∈ m.deadBackends, b.addr.name ≠ addr.name)
      (alive : m'.aliveBackends = m.aliveBackends) (dead : m'.deadBackends = m.deadBackends) :
      Called m m' (.setBackendFd addr fd) []
  | notListed {addr : Address} (alive : m'.aliveBackends = m.aliveBackends)
      (dead : m'.deadBackends = m.deadBackends) : Called m m' (.killBackend addr) []
  | notKilled {addr : Address} (alive : m'.aliveBackends = m.aliveBackends)
      (dead : m'.deadBackends = m.deadBackends) : Called m m' (.restartBackend addr) []
  | registered {addr : Address} {fd : Int} {b : Backend} {rest : List Backend}
      (found : m.deadBackends.Perm (b :: rest)) (same : b.addr.name = addr.name)
      (alive : m'.aliveBackends = m.aliveBackends ++ [{ b with fd := fd, state := .alive }])
      (dead : m'.deadBackends = rest) :
      Called m m' (.setBackendFd addr fd) (broadcastGroupAddr (m'.getCluster addr))
  | restarted {addr : Address} {b : Backend} {rest : List Backend}
      (found : m.deadBackends.Perm (b :: rest)) (same : b.addr.name = addr.name)
      (state : b.state = .dead)
      (alive : m'.aliveBackends = m.aliveBackends ++ [{ b with state := .alive }])
      (dead : m'.deadBackends = rest) :
      Called m m' (.restartBackend addr)
        (broadcastGroupAddr (m'.getCluster addr) ++ [(addr, { com := .restart })])
  | killed {addr : Address} {b : Backend}
      (found : m.aliveBackends.find? (fun b => b.addr.name = addr.name) = some b)
      (alive : m'.aliveBackends = m.aliveBackends.eraseP fun b => b.addr.name = addr.name)
      (dead : m'.deadBackends = m.deadBackends ++ [{ b with state := .dead }]) :
      Called m m' (.killBackend addr)
        (broadcastGroupAddr (m'.getCluster addr) ++ [(addr, { com := .kill })])
  | closed {fd : Int} {b : Backend}
      (found : m.aliveBackends.find? (fun b => b.fd = fd) = some b)
      (alive : m'.aliveBackends = m.aliveBackends.eraseP fun b => b.fd = fd)
      (dead : m'.deadBackends = m.deadBackends ++ [{ b with fd := -1, state := .crash }]) :
      Called m m' (.deleteBackendFd fd) (broadcastGroupAddr (m'.getCluster b.addr))
  | lost {fd : Int} (alive : m'.aliveBackends = m.aliveBackends)
      (dead : m'.deadBackends = modifyFirst (fun b => b.fd = fd)
        (fun b => { b with fd := -1, state := .crash }) m.deadBackends) :
      Called m m' (.deleteBackendFd fd) []

theorem called_call (m : Lists) (call : Call) :
    Called m (m.call call).1 call (m.call call).2 := by
  cases call with
  | setBackendFd addr fd =>
    show Called m (m.setBackendFd addr fd).1 _ (m.setBackendFd addr fd).2
    rw [Lists.setBackendFd]
    cases found : m.deadBackends.find? fun b => b.addr.name = addr.name with
    | none => exact .unknown (fun b hb => by simpa using List.find?_eq_none.mp found b hb) rfl rfl
    | some b =>
      exact .registered (perm_of_find? found) (by simpa using List.find?_some found) rfl rfl
  | deleteBackendFd fd =>
    show Called m (m.deleteBackendFd fd).1 _ (m.deleteBackendFd fd).2
    rw [Lists.deleteBackendFd]
    cases found : m.aliveBackends.find? fun b => b.fd = fd with
    | none => exact .lost rfl rfl
    | some b => exact .closed found rfl rfl
  | killBackend addr =>
    show Called m (m.killBackend addr).1 _ (m.killBackend addr).2
    rw [Lists.killBackend]
    cases found : m.aliveBackends.find? fun b => b.addr.name = addr.name with
    | none => exact .notListed rfl rfl
    | some b => exact .killed found rfl rfl
  | restartBackend addr =>
    show Called m (m.restartBackend addr).1 _ (m.restartBackend addr).2
    rw [Lists.restartBackend]
    cases found : m.deadBackends.find? fun b => b.addr.name = addr.name ∧ b.state = .dead with
    | none => exact .notKilled rfl rfl
    | some b =>
      have matched := List.find?_some found
      simp only [Bool.decide_and, Bool.and_eq_true, decide_eq_true_eq] at matched
      exact .restarted (perm_of_find? found) matched.1 matched.2 rfl rfl

/-! The records -/

/-- Every record is of a backend of the configuration. Those that have a connection were
registered by the process at their port, and the process, while it runs, is on that connection. -/
structure Recorded (m : Lists) (processes : UMap Nat Process) : Prop where
  distinct : (m.backends.map fun b => b.addr.name).Nodup
  keys : ((m.aliveBackends ++ m.deadBackends).map Backend.key).Perm (m.backends.map Backend.key)
  addrs : ∀ b ∈ m.aliveBackends ++ m.deadBackends, b.addr = Address.init b.addr.name
  opened : ∀ b ∈ m.aliveBackends ++ m.deadBackends, b.fd ≠ -1 → b.addr = myAddr b.addr.port
  alive : ∀ b ∈ m.aliveBackends, b.fd ≠ -1
  killed : ∀ b ∈ m.deadBackends, b.state = .dead → b.fd ≠ -1
  connected : ∀ i p, processes.lookup i = some p →
    ∀ b ∈ m.aliveBackends ++ m.deadBackends, b.addr = myAddr i →
      b.fd = p.fd.elim (-1) fun fd => (fd : Int)

section Recorded
variable {m m' : Lists} {processes processes' : UMap Nat Process}

theorem Recorded.names (recorded : Recorded m processes) :
    ((m.aliveBackends ++ m.deadBackends).map fun b => b.addr.name).Nodup := by
  have names := (recorded.keys.map fun k : Address × Nat => k.1.name).nodup_iff.mpr
    (by simpa only [List.map_map, Function.comp_def, Backend.key] using recorded.distinct)
  simpa only [List.map_map, Function.comp_def, Backend.key] using names

/-- Two records of one name are one. -/
theorem Recorded.unique (recorded : Recorded m processes) {b c : Backend}
    (hb : b ∈ m.aliveBackends ++ m.deadBackends) (hc : c ∈ m.aliveBackends ++ m.deadBackends)
    (same : b.addr.name = c.addr.name) : b = c :=
  List.inj_on_of_nodup_map recorded.names hb hc same

theorem Recorded.addr_alive (recorded : Recorded m processes) {b : Backend}
    (hb : b ∈ m.aliveBackends) : b.addr = myAddr b.addr.port :=
  recorded.opened b (List.mem_append_left _ hb) (recorded.alive b hb)

/-- The records keep a connection, or a process joins, or the connection of one that has ended
is closed. -/
theorem Recorded.changed (recorded : Recorded m processes)
    (backends : m'.backends.map Backend.key = m.backends.map Backend.key)
    (keys : ((m'.aliveBackends ++ m'.deadBackends).map Backend.key).Perm
      ((m.aliveBackends ++ m.deadBackends).map Backend.key))
    (alive : ∀ b ∈ m'.aliveBackends, b.fd ≠ -1)
    (killed : ∀ b ∈ m'.deadBackends, b.state = .dead → b.fd ≠ -1)
    (opened : ∀ b ∈ m'.aliveBackends ++ m'.deadBackends, b.fd ≠ -1 → b.addr = myAddr b.addr.port)
    (connected : ∀ i p, processes'.lookup i = some p →
      ∀ b ∈ m'.aliveBackends ++ m'.deadBackends, b.addr = myAddr i →
        b.fd = p.fd.elim (-1) fun fd => (fd : Int)) : Recorded m' processes' := by
  refine ⟨?_, ?_, fun b hb => ?_, opened, alive, killed, connected⟩
  · rw [names_kept backends]
    exact recorded.distinct
  · rw [backends]
    exact keys.trans recorded.keys
  · obtain ⟨a, ha, key⟩ := List.mem_map.mp (keys.mem_iff.mp (List.mem_map_of_mem hb))
    have addr : a.addr = b.addr := congrArg Prod.fst key
    rw [← addr]
    exact recorded.addrs a ha

/-- The lists stay, except for the list of all backends, which keeps its backends. -/
theorem Recorded.unchanged (recorded : Recorded m processes)
    (backends : m'.backends.map Backend.key = m.backends.map Backend.key)
    (alive : m'.aliveBackends = m.aliveBackends) (dead : m'.deadBackends = m.deadBackends)
    (connected : ∀ i p, processes'.lookup i = some p →
      ∀ b ∈ m.aliveBackends ++ m.deadBackends, b.addr = myAddr i →
        b.fd = p.fd.elim (-1) fun fd => (fd : Int)) : Recorded m' processes' := by
  have keys : ((m'.aliveBackends ++ m'.deadBackends).map Backend.key).Perm
      ((m.aliveBackends ++ m.deadBackends).map Backend.key) := by rw [alive, dead]
  rw [← alive, ← dead] at connected
  refine recorded.changed backends keys (fun b hb => ?_) (fun b hb => ?_) (fun b hb => ?_) connected
  · exact recorded.alive b (alive ▸ hb)
  · exact recorded.killed b (dead ▸ hb)
  · rw [alive, dead] at hb
    exact recorded.opened b hb

/-- A backend of the dead joins the others, with a connection that is its process's. -/
theorem recorded_joins (recorded : Recorded m processes) {b c : Backend} {rest : List Backend}
    (backends : m'.backends.map Backend.key = m.backends.map Backend.key)
    (found : m.deadBackends.Perm (b :: rest)) (key : c.key = b.key)
    (alive : m'.aliveBackends = m.aliveBackends ++ [c]) (dead : m'.deadBackends = rest)
    (fd : c.fd ≠ -1) (opened : c.addr = myAddr c.addr.port)
    (others : ∀ i p, processes'.lookup i = some p → myAddr i = c.addr ∨
      ∃ q, processes.lookup i = some q ∧ q.fd = p.fd)
    (own : ∀ i p, processes'.lookup i = some p → c.addr = myAddr i →
      c.fd = p.fd.elim (-1) fun fd => (fd : Int)) : Recorded m' processes' := by
  have addr : c.addr = b.addr := congrArg Prod.fst key
  have split : (m'.aliveBackends ++ m'.deadBackends).Perm
      (c :: (m.aliveBackends ++ rest)) := by
    rw [alive, dead, List.append_assoc]
    exact List.perm_middle
  have all : (m.aliveBackends ++ m.deadBackends).Perm (b :: (m.aliveBackends ++ rest)) :=
    (found.append_left _).trans List.perm_middle
  have old : ∀ d ∈ m.aliveBackends ++ rest, d ∈ m.aliveBackends ++ m.deadBackends := fun d hd =>
    all.mem_iff.mpr (List.mem_cons_of_mem b hd)
  have apart := unmatched_of_nodup ((all.map fun b => b.addr.name).nodup_iff.mp recorded.names)
  refine recorded.changed backends ?_ (fun d hd => ?_) (fun d hd state => ?_)
    (fun d hd connection => ?_) fun i p hp d hd own' => ?_
  · refine (split.map Backend.key).trans (List.Perm.trans ?_ (all.map Backend.key).symm)
    rw [List.map_cons, List.map_cons, key]
  · rw [alive] at hd
    rcases List.mem_append.mp hd with before | new
    · exact recorded.alive d before
    · rw [List.mem_singleton.mp new]
      exact fd
  · rw [dead] at hd
    exact recorded.killed d (found.mem_iff.mpr (List.mem_cons_of_mem b hd)) state
  · rcases List.mem_cons.mp (split.mem_iff.mp hd) with rfl | before
    · exact opened
    · exact recorded.opened d (old d before) connection
  · rcases List.mem_cons.mp (split.mem_iff.mp hd) with rfl | before
    · exact own i p hp own'
    · rcases others i p hp with same | ⟨q, hq, kept⟩
      · exact absurd (by rw [own', same, addr]) (apart d before)
      · rw [← kept]
        exact recorded.connected i q hq d (old d before) own'

/-- A backend that is alive leaves the others. -/
theorem recorded_leaves (recorded : Recorded m processes) {b c : Backend} {q : Backend → Bool}
    (backends : m'.backends.map Backend.key = m.backends.map Backend.key)
    (found : m.aliveBackends.find? q = some b) (key : c.key = b.key)
    (alive : m'.aliveBackends = m.aliveBackends.eraseP q)
    (dead : m'.deadBackends = m.deadBackends ++ [c]) (killed : c.state = .dead → c.fd ≠ -1)
    (own : ∀ i p, processes.lookup i = some p → c.addr = myAddr i →
      c.fd = p.fd.elim (-1) fun fd => (fd : Int)) : Recorded m' processes := by
  have addr : c.addr = b.addr := congrArg Prod.fst key
  have first := perm_of_find? found
  have all : (m.aliveBackends ++ m.deadBackends).Perm
      (b :: (m.aliveBackends.eraseP q ++ m.deadBackends)) := first.append_right _
  have split : (m'.aliveBackends ++ m'.deadBackends).Perm
      (c :: (m.aliveBackends.eraseP q ++ m.deadBackends)) := by
    rw [alive, dead, ← List.append_assoc]
    exact List.perm_append_singleton _ _
  have old : ∀ d ∈ m.aliveBackends.eraseP q ++ m.deadBackends,
      d ∈ m.aliveBackends ++ m.deadBackends := fun d hd =>
    all.mem_iff.mpr (List.mem_cons_of_mem b hd)
  refine recorded.changed backends ?_ (fun d hd => ?_) (fun d hd state => ?_)
    (fun d hd connection => ?_) fun i p hp d hd own' => ?_
  · refine (split.map Backend.key).trans (List.Perm.trans ?_ (all.map Backend.key).symm)
    rw [List.map_cons, List.map_cons, key]
  · rw [alive] at hd
    exact recorded.alive d (List.mem_of_mem_eraseP hd)
  · rw [dead] at hd
    rcases List.mem_append.mp hd with before | new
    · exact recorded.killed d before state
    · rw [List.mem_singleton.mp new] at state ⊢
      exact killed state
  · rcases List.mem_cons.mp (split.mem_iff.mp hd) with rfl | before
    · rw [addr]
      exact recorded.addr_alive (List.mem_of_find?_eq_some found)
    · exact recorded.opened d (old d before) connection
  · rcases List.mem_cons.mp (split.mem_iff.mp hd) with rfl | before
    · exact own i p hp own'
    · exact recorded.connected i p hp d (old d before) own'

end Recorded

/-! The messages of an operation -/

/-- The backend at the port is listed as alive. -/
def Alive (m : Lists) (port : Nat) : Prop := ∃ b ∈ m.aliveBackends, b.addr = myAddr port

/-- It is the first of its group that is. -/
def Heads (m : Lists) (port : Nat) : Prop :=
  ∃ b, PrimaryRouting.Lists.head m (m.groupOf (myAddr port)) = some b ∧ b.addr = myAddr port

/-- The addresses of a call were read from their names. -/
def Spelled : Call → Prop
  | .setBackendFd addr _ | .killBackend addr | .restartBackend addr =>
    addr = Address.init addr.name
  | .deleteBackendFd _ => True

/-- What is sent, to whom, and what it says of the lists. -/
structure Sent (m m' : Lists) (call : Call) (messages : List Message) : Prop where
  com : ∀ x ∈ messages, x.2.com = .cluster ∨ x.2 = { com := .kill } ∨ x.2 = { com := .restart }
  receiver : ∀ x ∈ messages, x.1 = myAddr x.1.port
  listed : ∀ x ∈ messages, Alive m' x.1.port ∨ x.2.com = .kill ∧ Alive m x.1.port
  promotes : ∀ x ∈ messages, x.2.com = .cluster → Roles.Names x.1.port x.2 → Heads m' x.1.port
  kills : ∀ x ∈ messages, x.2.com = .kill → Alive m x.1.port ∧ ¬ Alive m' x.1.port
  alive : ∀ i, Alive m' i → Alive m i ∨ (myAddr i, { com := .restart }) ∈ messages ∨
    ∃ fd, call = .setBackendFd (myAddr i) fd
  heads : ∀ i, Heads m i → Heads m' i ∨ (myAddr i, { com := .kill }) ∈ messages ∨
    ∃ fd, call = .deleteBackendFd fd ∧ ∃ b ∈ m.aliveBackends, b.addr = myAddr i ∧ b.fd = fd
  nodup : messages.Nodup

section Messages
variable {m m' : Lists} {processes processes' : UMap Nat Process} {call : Call}
  {messages : List Message}

theorem mem_broadcast {addr : Address} (recorded : Recorded m processes) {x : Message}
    (hx : x ∈ broadcastGroupAddr (m.getCluster addr)) :
    x.2.com = .cluster ∧ x.1 = myAddr x.1.port ∧ Alive m x.1.port ∧
      (Roles.Names x.1.port x.2 → Heads m x.1.port) := by
  obtain ⟨a, ha, rfl⟩ := List.mem_map.mp hx
  obtain ⟨d, hd, group, rfl⟩ := mem_getCluster.mp ha
  have own := recorded.addr_alive hd
  refine ⟨rfl, own, ⟨d, hd, own⟩, fun names => ?_⟩
  have key : d.key ∈ m.backends.map Backend.key :=
    recorded.keys.mem_iff.mp (List.mem_map_of_mem (List.mem_append_left _ hd))
  have ofPort : m.groupOf (myAddr d.addr.port) = m.groupOf addr := by
    rw [← own, groupOf_of_mem recorded.distinct key, group]
  simp only [Roles.Names, Lists.getCluster, List.head?_map, List.head?_filter] at names
  cases head : m.aliveBackends.find? fun b => b.groupId = m.groupOf addr with
  | none => simp [head] at names
  | some b =>
    simp only [head, Option.map_some, Option.some.injEq] at names
    have hb := List.mem_of_find?_eq_some head
    rw [← recorded.addrs b (List.mem_append_left _ hb)] at names
    refine ⟨b, ?_, ?_⟩
    · show PrimaryRouting.Lists.head m (m.groupOf (myAddr d.addr.port)) = some b
      rw [ofPort]
      exact head
    · show b.addr = myAddr d.addr.port
      rw [← names]
      exact recorded.addr_alive hb

theorem nodup_broadcast (recorded : Recorded m processes) (addr : Address) :
    (broadcastGroupAddr (m.getCluster addr)).Nodup := by
  have names := recorded.names
  rw [List.map_append, List.nodup_append] at names
  have addrs : (m.aliveBackends.map Backend.addr).Nodup :=
    List.Nodup.of_map Address.name (by rw [List.map_map]; exact names.1)
  refine List.Nodup.map (fun a b same => congrArg Prod.fst same) ?_
  exact addrs.sublist ((List.filter_sublist).map Backend.addr)

theorem heads_unique {i j : Nat} (group : m.groupOf (myAddr i) = m.groupOf (myAddr j))
    (first : Heads m i) (second : Heads m j) : i = j := by
  obtain ⟨b, headB, addrB⟩ := first
  obtain ⟨c, headC, addrC⟩ := second
  rw [← group, headB] at headC
  obtain rfl := Option.some.inj headC
  exact myAddr_injective (addrB.symm.trans addrC)

/-- A head that is not the one who leaves stays the head. -/
theorem heads_leaves (groups : ∀ a, m'.groupOf a = m.groupOf a) {q : Backend → Bool} {b : Backend}
    (found : m.aliveBackends.find? q = some b) (alive : m'.aliveBackends = m.aliveBackends.eraseP q)
    {i : Nat} (heads : Heads m i) : Heads m' i ∨ b.addr = myAddr i := by
  obtain ⟨d, head, own⟩ := heads
  by_cases same : d = b
  · exact .inr (same ▸ own)
  · refine .inl ⟨d, ?_, own⟩
    rw [PrimaryRouting.Lists.head, alive, groups]
    exact find?_eraseP found head same

theorem heads_joins (groups : ∀ a, m'.groupOf a = m.groupOf a) {tail : List Backend}
    (alive : m'.aliveBackends = m.aliveBackends ++ tail) {i : Nat} (heads : Heads m i) :
    Heads m' i := by
  obtain ⟨d, head, own⟩ := heads
  refine ⟨d, ?_, own⟩
  rw [PrimaryRouting.Lists.head] at head
  rw [PrimaryRouting.Lists.head, alive, groups, List.find?_append, head]
  rfl

theorem sent_nothing (groups : ∀ a, m'.groupOf a = m.groupOf a)
    (alive : m'.aliveBackends = m.aliveBackends) : Sent m m' call [] where
  com := by simp
  receiver := by simp
  listed := by simp
  promotes := by simp
  kills := by simp
  alive := fun i ⟨b, hb, own⟩ => .inl ⟨b, alive ▸ hb, own⟩
  heads := fun i heads => .inl
    (heads_joins groups (alive.trans (List.append_nil _).symm) heads)
  nodup := List.nodup_nil

/-- A broadcast and one more command. -/
theorem sent_broadcast (recorded' : Recorded m' processes') (addr : Address)
    (tail : List Message) (one : tail = [] ∨ ∃ x, tail = [x] ∧ x.2.com ≠ .cluster)
    (com : ∀ x ∈ tail, x.2 = { com := .kill } ∨ x.2 = { com := .restart })
    (receiver : ∀ x ∈ tail, x.1 = myAddr x.1.port)
    (listed : ∀ x ∈ tail, Alive m' x.1.port ∨ x.2.com = .kill ∧ Alive m x.1.port)
    (kills : ∀ x ∈ tail, x.2.com = .kill → Alive m x.1.port ∧ ¬ Alive m' x.1.port)
    (alive : ∀ i, Alive m' i → Alive m i ∨ (myAddr i, { com := .restart }) ∈ tail ∨
      ∃ fd, call = .setBackendFd (myAddr i) fd)
    (heads : ∀ i, Heads m i → Heads m' i ∨ (myAddr i, { com := .kill }) ∈ tail ∨
      ∃ fd, call = .deleteBackendFd fd ∧ ∃ b ∈ m.aliveBackends, b.addr = myAddr i ∧ b.fd = fd) :
    Sent m m' call (broadcastGroupAddr (m'.getCluster addr) ++ tail) where
  com := fun x hx => by
    rcases List.mem_append.mp hx with told | extra
    · exact .inl (mem_broadcast recorded' told).1
    · exact .inr (com x extra)
  receiver := fun x hx => by
    rcases List.mem_append.mp hx with told | extra
    · exact (mem_broadcast recorded' told).2.1
    · exact receiver x extra
  listed := fun x hx => by
    rcases List.mem_append.mp hx with told | extra
    · exact .inl (mem_broadcast recorded' told).2.2.1
    · exact listed x extra
  promotes := fun x hx cluster names => by
    rcases List.mem_append.mp hx with told | extra
    · exact (mem_broadcast recorded' told).2.2.2 names
    · rcases com x extra with same | same <;> rw [same] at cluster <;> cases cluster
  kills := fun x hx kill => by
    rcases List.mem_append.mp hx with told | extra
    · rw [(mem_broadcast recorded' told).1] at kill
      cases kill
    · exact kills x extra kill
  alive := fun i h => (alive i h).imp id (.imp (List.mem_append_right _) id)
  heads := fun i h => (heads i h).imp id (.imp (List.mem_append_right _) id)
  nodup := by
    have broadcast := nodup_broadcast recorded' addr
    rcases one with rfl | ⟨x, rfl, other⟩
    · rwa [List.append_nil]
    · refine List.nodup_append.mpr ⟨broadcast, List.nodup_singleton x, fun a ha b hb same => ?_⟩
      rw [List.mem_singleton.mp hb] at same
      exact other (same ▸ (mem_broadcast recorded' ha).1)

theorem sent_call (recorded : Recorded m processes) (recorded' : Recorded m' processes')
    (groups : ∀ a, m'.groupOf a = m.groupOf a) (spelled : Spelled call)
    (called : Called m m' call messages) : Sent m m' call messages := by
  have spelt : ∀ {b : Backend} {addr : Address}, b ∈ m.aliveBackends ++ m.deadBackends →
      addr = Address.init addr.name → b.addr.name = addr.name → b.addr = addr := by
    intro b addr hb spelled same
    rw [recorded.addrs b hb, same, ← spelled]
  cases called with
  | unknown absent alive dead => exact sent_nothing groups alive
  | notListed alive dead => exact sent_nothing groups alive
  | notKilled alive dead => exact sent_nothing groups alive
  | lost alive dead => exact sent_nothing groups alive
  | @registered addr fd b rest found same alive dead =>
    have addrB := spelt (List.mem_append_right _ (found.mem_iff.mpr List.mem_cons_self)) spelled same
    have joins : ∀ i, Alive m' i → Alive m i ∨ (myAddr i, { com := .restart }) ∈ ([] : List Message) ∨
        ∃ g, Call.setBackendFd addr fd = .setBackendFd (myAddr i) g := by
      rintro i ⟨d, hd, own⟩
      rw [alive] at hd
      rcases List.mem_append.mp hd with old | new
      · exact .inl ⟨d, old, own⟩
      · rw [List.mem_singleton.mp new] at own
        exact .inr (.inr ⟨fd, by rw [← own, addrB]⟩)
    have sent := sent_broadcast recorded' addr [] (.inl rfl) (by simp) (by simp) (by simp)
      (by simp) joins fun i heads => .inl (heads_joins groups alive heads)
    rwa [List.append_nil] at sent
  | @restarted addr b rest found same state alive dead =>
    have hb := found.mem_iff.mpr List.mem_cons_self
    have addrB := spelt (List.mem_append_right _ hb) spelled same
    have own : addr = myAddr addr.port := by
      rw [← addrB]
      exact recorded.opened b (List.mem_append_right _ hb) (recorded.killed b hb state)
    have listed : Alive m' addr.port := by
      refine ⟨{ b with state := .alive }, ?_, addrB.trans own⟩
      rw [alive]
      exact List.mem_append_right _ (List.mem_singleton_self _)
    refine sent_broadcast recorded' addr _ (.inr ⟨_, rfl, by simp⟩) (by simp) (by simpa using own)
      (by simpa using listed) (by simp) (fun i joined => ?_)
      fun i heads => .inl (heads_joins groups alive heads)
    obtain ⟨d, hd, ofPort⟩ := joined
    rw [alive] at hd
    rcases List.mem_append.mp hd with old | new
    · exact .inl ⟨d, old, ofPort⟩
    · rw [List.mem_singleton.mp new] at ofPort
      have port : addr = myAddr i := addrB.symm.trans ofPort
      exact .inr (.inl (by rw [port]; exact List.mem_singleton_self _))
  | @killed addr b found alive dead =>
    have hb := List.mem_of_find?_eq_some found
    have addrB := spelt (List.mem_append_left _ hb) spelled (by simpa using List.find?_some found)
    have own : addr = myAddr addr.port := by
      rw [← addrB]
      exact recorded.addr_alive hb
    have listed : Alive m addr.port := ⟨b, hb, addrB.trans own⟩
    have gone : ¬ Alive m' addr.port := by
      rintro ⟨d, hd, ofPort⟩
      rw [alive] at hd
      have names := recorded.names
      rw [List.map_append, List.nodup_append] at names
      have apart := unmatched_of_nodup
        (((perm_of_find? found).map fun b => b.addr.name).nodup_iff.mp names.1)
      exact apart d hd (by rw [ofPort, ← own, addrB])
    refine sent_broadcast recorded' addr _ (.inr ⟨_, rfl, by simp⟩) (by simp) (by simpa using own)
      (by simpa using .inr listed) (by simpa using ⟨listed, gone⟩) (fun i stays => ?_)
      fun i heads => ?_
    · obtain ⟨d, hd, ofPort⟩ := stays
      rw [alive] at hd
      exact .inl ⟨d, List.mem_of_mem_eraseP hd, ofPort⟩
    · refine (heads_leaves groups found alive heads).imp id fun ofPort => .inl ?_
      have port : addr = myAddr i := addrB.symm.trans ofPort
      rw [port]
      exact List.mem_singleton_self _
  | @closed fd b found alive dead =>
    have hb := List.mem_of_find?_eq_some found
    have leaves : ∀ i, Heads m i → Heads m' i ∨
        (myAddr i, { com := .kill }) ∈ ([] : List Message) ∨ ∃ g,
          Call.deleteBackendFd fd = .deleteBackendFd g ∧
            ∃ b ∈ m.aliveBackends, b.addr = myAddr i ∧ b.fd = g := by
      intro i heads
      refine (heads_leaves groups found alive heads).imp id fun ofPort => .inr ?_
      exact ⟨fd, rfl, b, hb, ofPort, by simpa using List.find?_some found⟩
    have sent := sent_broadcast recorded' b.addr [] (.inl rfl) (by simp) (by simp) (by simp)
      (by simp) (fun i ⟨d, hd, own⟩ => .inl ⟨d, List.mem_of_mem_eraseP (alive ▸ hd), own⟩) leaves
    rwa [List.append_nil] at sent

end Messages

/-! The records along a step -/

section Steps
variable {m : Lists} {processes processes' : UMap Nat Process}

theorem lookup_insert (processes : UMap Nat Process) (i j : Nat) (p : Process) :
    (processes.insert i p).lookup j = if j = i then some p else processes.lookup j := by
  split
  · rename_i same
    subst same
    exact AList.lookup_insert processes
  · rename_i other
    exact AList.lookup_insert_ne other

theorem lookup_erase (processes : UMap Nat Process) (i j : Nat) :
    (processes.erase i).lookup j = if j = i then none else processes.lookup j := by
  split
  · rename_i same
    subst same
    exact AList.lookup_erase _ processes
  · rename_i other
    exact AList.lookup_erase_ne other

theorem Recorded.of_fds (recorded : Recorded m processes)
    (fds : ∀ i p, processes'.lookup i = some p →
      ∃ q, processes.lookup i = some q ∧ q.fd = p.fd) : Recorded m processes' := by
  obtain ⟨distinct, keys, addrs, opened, alive, killed, connected⟩ := recorded
  refine ⟨distinct, keys, addrs, opened, alive, killed, fun i p hp b hb own => ?_⟩
  obtain ⟨q, hq, same⟩ := fds i p hp
  rw [← same]
  exact connected i q hq b hb own

theorem recorded_became (recorded : Recorded m processes) {i : Nat} {p : Process}
    (runs : processes.lookup i = some p) (node : Node) :
    Recorded m (processes.insert i { p with node := node }) := by
  refine recorded.of_fds fun j q hq => ?_
  rw [lookup_insert] at hq
  split at hq
  · rename_i same
    cases hq
    exact ⟨p, same ▸ runs, rfl⟩
  · exact ⟨q, hq, rfl⟩

theorem recorded_ended (recorded : Recorded m processes) (i : Nat) :
    Recorded m (processes.erase i) := by
  refine recorded.of_fds fun j q hq => ?_
  rw [lookup_erase] at hq
  split at hq
  · cases hq
  · exact ⟨q, hq, rfl⟩

/-- A process is started once no connection of its backend is on record. -/
theorem recorded_started (recorded : Recorded m processes) {i : Nat}
    (closed : ∀ b ∈ m.aliveBackends ++ m.deadBackends, b.addr = myAddr i → b.fd = -1)
    (node : Node) : Recorded m (processes.insert i ⟨none, node⟩) := by
  obtain ⟨distinct, keys, addrs, opened, alive, killed, connected⟩ := recorded
  refine ⟨distinct, keys, addrs, opened, alive, killed, fun j p hp b hb own => ?_⟩
  rw [lookup_insert] at hp
  split at hp
  · rename_i same
    cases hp
    exact closed b hb (same ▸ own)
  · exact connected j p hp b hb own

theorem recorded_kill (recorded : Recorded m processes) (addr : Address) :
    Recorded (m.killBackend addr).1 processes := by
  have backends := (moved_killBackend m addr).keys
  have called := called_call m (.killBackend addr)
  change Called m (m.killBackend addr).1 _ (m.killBackend addr).2 at called
  generalize (m.killBackend addr).1 = m' at called backends ⊢
  generalize (m.killBackend addr).2 = messages at called
  cases called with
  | notListed alive dead =>
    exact recorded.unchanged backends alive dead fun i p hp b hb own =>
      recorded.connected i p hp b hb own
  | @killed _ b found alive dead =>
    have hb := List.mem_of_find?_eq_some found
    exact recorded_leaves recorded (c := { b with state := .dead }) backends found rfl alive dead
      (fun _ => recorded.alive b hb)
      fun i p hp own => recorded.connected i p hp b (List.mem_append_left _ hb) own

theorem recorded_restart (recorded : Recorded m processes) (addr : Address) :
    Recorded (m.restartBackend addr).1 processes := by
  have backends := (moved_restartBackend m addr).keys
  have called := called_call m (.restartBackend addr)
  change Called m (m.restartBackend addr).1 _ (m.restartBackend addr).2 at called
  generalize (m.restartBackend addr).1 = m' at called backends ⊢
  generalize (m.restartBackend addr).2 = messages at called
  cases called with
  | notKilled alive dead =>
    exact recorded.unchanged backends alive dead fun i p hp b hb own =>
      recorded.connected i p hp b hb own
  | @restarted _ b rest found same state alive dead =>
    have hb : b ∈ m.aliveBackends ++ m.deadBackends :=
      List.mem_append_right _ (found.mem_iff.mpr List.mem_cons_self)
    have fd := recorded.killed b (found.mem_iff.mpr List.mem_cons_self) state
    exact recorded_joins recorded (c := { b with state := .alive }) backends found rfl alive dead fd
      (recorded.opened b hb fd)
      (fun i p hp => .inr ⟨p, hp, rfl⟩) fun i p hp own => recorded.connected i p hp b hb own

/-- The process at the port registers on a new connection. -/
theorem recorded_register (recorded : Recorded m processes) {i : Nat} {p : Process}
    (runs : processes.lookup i = some p) (waits : p.fd = none) (fd : Nat) :
    Recorded (m.setBackendFd (myAddr i) fd).1 (processes.insert i { p with fd := some fd }) := by
  have backends := (moved_setBackendFd m (myAddr i) fd).keys
  have called := called_call m (.setBackendFd (myAddr i) fd)
  change Called m (m.setBackendFd (myAddr i) fd).1 _ (m.setBackendFd (myAddr i) fd).2 at called
  generalize (m.setBackendFd (myAddr i) fd).1 = m' at called backends ⊢
  generalize (m.setBackendFd (myAddr i) fd).2 = messages at called
  -- The record of a backend whose process has not registered has no connection.
  have noConnection : ∀ b ∈ m.aliveBackends ++ m.deadBackends, b.addr = myAddr i → b.fd = -1 := by
    intro b hb own
    rw [recorded.connected i p runs b hb own, waits]
    rfl
  have others : ∀ j q, (processes.insert i { p with fd := some fd }).lookup j = some q →
      j = i ∧ q.fd = some fd ∨ ∃ r, processes.lookup j = some r ∧ r.fd = q.fd := by
    intro j q hq
    rw [lookup_insert] at hq
    split at hq
    · rename_i same
      cases hq
      exact .inl ⟨same, rfl⟩
    · exact .inr ⟨q, hq, rfl⟩
  cases called with
  | unknown absent alive dead =>
    refine recorded.unchanged backends alive dead fun j q hq b hb own => ?_
    rcases others j q hq with ⟨rfl, -⟩ | ⟨r, hr, same⟩
    · rcases List.mem_append.mp hb with listed | out
      · exact absurd (noConnection b hb own) (recorded.alive b listed)
      · exact absurd (congrArg Address.name own) (absent b out)
    · rw [← same]
      exact recorded.connected j r hr b hb own
  | @registered _ _ b rest found same alive dead =>
    have hb : b ∈ m.aliveBackends ++ m.deadBackends :=
      List.mem_append_right _ (found.mem_iff.mpr List.mem_cons_self)
    have addrB : b.addr = myAddr i := by
      rw [recorded.addrs b hb, same, init_name_myAddr]
    refine recorded_joins recorded (c := { b with fd := fd, state := .alive }) backends found rfl
      alive dead (by simp) ?_ (fun j q hq => ?_)
      fun j q hq own => ?_
    · show b.addr = myAddr b.addr.port
      rw [addrB, port_myAddr]
    · rcases others j q hq with ⟨rfl, -⟩ | old
      · exact .inl addrB.symm
      · exact .inr old
    · have port : j = i := myAddr_injective (own.symm.trans addrB)
      subst port
      rw [lookup_insert, if_pos rfl] at hq
      cases hq
      rfl

/-- A record on a connection that no process is on is of a backend that does not run. -/
theorem Recorded.notRunning (recorded : Recorded m processes) {fd : Nat}
    (ended : ∀ i p, processes.lookup i = some p → p.fd ≠ some fd) {b : Backend}
    (hb : b ∈ m.aliveBackends ++ m.deadBackends) (hangs : b.fd = fd) {i : Nat} {p : Process}
    (hp : processes.lookup i = some p) : b.addr ≠ myAddr i := by
  intro addr
  have connected := recorded.connected i p hp b hb addr
  rw [hangs] at connected
  cases hfd : p.fd with
  | none => rw [hfd] at connected; simp at connected
  | some g =>
    rw [hfd] at connected
    have same : (fd : Int) = g := connected
    obtain rfl : fd = g := by omega
    exact ended i p hp hfd

/-- The connection of a process that has ended is closed. -/
theorem recorded_close (recorded : Recorded m processes) {fd : Nat}
    (ended : ∀ i p, processes.lookup i = some p → p.fd ≠ some fd) :
    Recorded (m.deleteBackendFd fd).1 processes := by
  have backends := (moved_deleteBackendFd m fd).keys
  have called := called_call m (.deleteBackendFd fd)
  change Called m (m.deleteBackendFd fd).1 _ (m.deleteBackendFd fd).2 at called
  generalize (m.deleteBackendFd fd).1 = m' at called backends ⊢
  generalize (m.deleteBackendFd fd).2 = messages at called
  cases called with
  | @closed _ b found alive dead =>
    have hb := List.mem_of_find?_eq_some found
    refine recorded_leaves recorded (c := { b with fd := -1, state := .crash }) backends found rfl
      alive dead (by simp) fun i p hp own => ?_
    exact absurd own (recorded.notRunning ended (List.mem_append_left _ hb)
      (by simpa using List.find?_some found) hp)
  | lost alive dead =>
    refine recorded.changed backends ?_ ?_ (fun b hb state => ?_) (fun b hb connection => ?_)
      fun i p hp b hb own => ?_
    · rw [alive, dead, List.map_append, List.map_append,
        map_key_modifyFirst _ (f := fun b => { b with fd := -1, state := .crash }) fun _ => rfl]
    · rw [alive]
      exact recorded.alive
    · rw [dead] at hb
      rcases mem_modifyFirst hb with old | ⟨a, -, -, rfl⟩
      · exact recorded.killed b old state
      · cases state
    · rw [alive, dead] at hb
      rcases List.mem_append.mp hb with listed | out
      · exact recorded.addr_alive listed
      · rcases mem_modifyFirst out with old | ⟨a, -, -, rfl⟩
        · exact recorded.opened b (List.mem_append_right _ old) connection
        · exact absurd rfl connection
    · rw [alive, dead] at hb
      rcases List.mem_append.mp hb with listed | out
      · exact recorded.connected i p hp b (List.mem_append_left _ listed) own
      · rcases mem_modifyFirst out with old | ⟨a, ha, hangs, rfl⟩
        · exact recorded.connected i p hp b (List.mem_append_right _ old) own
        · exact absurd own (recorded.notRunning ended (List.mem_append_right _ ha)
            (by simpa using hangs) hp)

end Steps

end MasterProtocol
