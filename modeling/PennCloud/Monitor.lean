import PennCloud.FirstMatch
import PennCloud.KvInterface

/-!
# The master's lists of backends

`monitor.h`: every backend is kept in the list of all backends, and once more
among those that are alive or those that are not. An operation of the master
gives the lists after it and the commands it sends, in order.
-/

namespace Monitor

open Text UnorderedMap KvInterface FirstMatch

/-- `Backend_State`. -/
inductive BackendState where
  | alive
  | dead
  | crash
  deriving DecidableEq, Repr

structure Backend where
  state : BackendState
  fd : Int
  groupId : Nat
  addr : Address
  deriving DecidableEq, Repr

structure Lists where
  backends : List Backend
  aliveBackends : List Backend
  deadBackends : List Backend
  groupSize : Nat

abbrev Message := Address × KvCommand

/-- The group id of an unknown address, `-1` in 32 bits. -/
def noGroup : Nat := 4294967295

/-- A `char` taken to 32 bits keeps its sign. -/
def charBits (c : Char) : UInt32 :=
  if c.toNat < 128 then UInt32.ofNat c.toNat else UInt32.ofNat (4294967040 + c.toNat)

/-- `hashh` with the prime of a seed. -/
def hashh (data : Str) (prime : UInt32) : UInt32 :=
  data.foldl (fun ret c =>
    let added := (ret + charBits c * prime) * 3266489917
    (added ^^^ (added >>> 15)) * 668265263) 2654435761

/-- The group of a user. Seed 3 picks the prime. -/
def Lists.getGroupId (m : Lists) (usr : Str) : Nat := (hashh usr 3643).toNat % m.groupSize

/-- The group of an address. -/
def Lists.groupOf (m : Lists) (addr : Address) : Nat :=
  match m.backends.find? fun b => b.addr.name = addr.name with
  | some b => b.groupId
  | none => noGroup

def Lists.getCluster (m : Lists) (addr : Address) : List Address :=
  (m.aliveBackends.filter fun b => b.groupId = m.groupOf addr).map Backend.addr

/-- `broadcast_group_addr`: every address of the list is sent the list. -/
def broadcastGroupAddr (vec : List Address) : List Message :=
  vec.map fun addr => (addr, { com := .cluster, addrs := vec.map Address.name })

def Lists.getPrimary (m : Lists) (usr : Str) : Option Backend :=
  m.aliveBackends.find? fun b => b.groupId = m.getGroupId usr

def Lists.killBackend (m : Lists) (addr : Address) : Lists × List Message :=
  let backends := modifyFirst (fun b => b.addr.name = addr.name ∧ b.state = .alive)
    (fun b => { b with state := .dead }) m.backends
  match m.aliveBackends.find? fun b => b.addr.name = addr.name with
  | some b =>
    let m' := { m with
      backends := backends
      aliveBackends := m.aliveBackends.eraseP fun b => b.addr.name = addr.name
      deadBackends := m.deadBackends ++ [{ b with state := .dead }] }
    (m', broadcastGroupAddr (m'.getCluster addr) ++ [(addr, { com := .kill })])
  | none => ({ m with backends := backends }, [])

def Lists.restartBackend (m : Lists) (addr : Address) : Lists × List Message :=
  let backends := modifyFirst (fun b => b.addr.name = addr.name ∧ b.state = .dead)
    (fun b => { b with state := .alive }) m.backends
  match m.deadBackends.find? fun b => b.addr.name = addr.name ∧ b.state = .dead with
  | some b =>
    let m' := { m with
      backends := backends
      aliveBackends := m.aliveBackends ++ [{ b with state := .alive }]
      deadBackends :=
        m.deadBackends.eraseP fun b => b.addr.name = addr.name ∧ b.state = .dead }
    (m', broadcastGroupAddr (m'.getCluster addr) ++ [(addr, { com := .restart })])
  | none => ({ m with backends := backends }, [])

def Lists.deleteBackendFd (m : Lists) (fd : Int) : Lists × List Message :=
  let crashed (b : Backend) : Backend := { b with fd := -1, state := .crash }
  let backends := modifyFirst (fun b => b.fd = fd) crashed m.backends
  match m.aliveBackends.find? fun b => b.fd = fd with
  | some b =>
    let m' := { m with
      backends := backends
      aliveBackends := m.aliveBackends.eraseP fun b => b.fd = fd
      deadBackends := m.deadBackends ++ [crashed b] }
    (m', broadcastGroupAddr (m'.getCluster b.addr))
  | none =>
    ({ m with
      backends := backends
      deadBackends := modifyFirst (fun b => b.fd = fd) crashed m.deadBackends }, [])

def Lists.setBackendFd (m : Lists) (addr : Address) (fd : Int) : Lists × List Message :=
  let connected (b : Backend) : Backend := { b with fd := fd, state := .alive }
  let backends := modifyFirst (fun b => b.addr.name = addr.name) connected m.backends
  match m.deadBackends.find? fun b => b.addr.name = addr.name with
  | some b =>
    let m' := { m with
      backends := backends
      aliveBackends := m.aliveBackends ++ [connected b]
      deadBackends := m.deadBackends.eraseP fun b => b.addr.name = addr.name }
    (m', broadcastGroupAddr (m'.getCluster addr))
  | none => ({ m with backends := backends }, [])

/-! The configuration -/

/-- `std::set::insert` on addresses, which are ordered by name. -/
def insertAddress (addr : Address) : List Address → List Address
  | [] => [addr]
  | a :: rest =>
    if addr.name = a.name then a :: rest
    else if addr.name < a.name then addr :: a :: rest
    else a :: insertAddress addr rest

/-- One line of the configuration file: the group before the comma, the address after it. -/
def addGroupLine (groups : UMap Str (List Address)) (line : Str) : UMap Str (List Address) :=
  if ',' ∈ line then
    let index := (getLine ',' line).1
    groups.insert index
      (insertAddress (Address.init (getLine ',' line).2) (at' groups index []))
  else groups

/-- The one loop over a map in the monitor. -/
inductive GroupLoop where
  | addrGroup
  deriving DecidableEq, Repr

/-- `initialize_backend`, given the configuration file. -/
def initializeBackend (it : Iteration GroupLoop) (text : Str) : Lists :=
  let groups := it.pairs .addrGroup ((split text '\n').foldl addGroupLine ∅)
  let backends := (groups.zipIdx).flatMap fun g =>
    g.1.2.map fun addr => ⟨.crash, -1, g.2, addr⟩
  ⟨backends, [], backends, groups.length⟩

/-! What an operation does to the lists -/

/-- A call of the monitor. -/
inductive Call where
  | setBackendFd (addr : Address) (fd : Int)
  | deleteBackendFd (fd : Int)
  | killBackend (addr : Address)
  | restartBackend (addr : Address)

def Lists.call (m : Lists) : Call → Lists × List Message
  | .setBackendFd addr fd => m.setBackendFd addr fd
  | .deleteBackendFd fd => m.deleteBackendFd fd
  | .killBackend addr => m.killBackend addr
  | .restartBackend addr => m.restartBackend addr

/-- What never changes of a backend. -/
def Backend.key (b : Backend) : Address × Nat := (b.addr, b.groupId)

/-- The commands of an operation that does not kill and is not a restart. -/
def Quiet (messages : List Message) : Prop := ∀ message ∈ messages, message.2.com ≠ .cluster

/-- How the list of backends that are alive changes: not at all, or one backend joins at its
end, or one leaves it. The cluster of the backend is then told. -/
inductive Moved (m : Lists) : Lists × List Message → Prop where
  | still {m' : Lists} (alive : m'.aliveBackends = m.aliveBackends)
      (dead : m'.deadBackends.map Backend.key = m.deadBackends.map Backend.key)
      (backends : m'.backends.map Backend.key = m.backends.map Backend.key)
      (groupSize : m'.groupSize = m.groupSize) : Moved m (m', [])
  | joined {m' : Lists} {b c : Backend} {addr : Address} {rest : List Backend}
      {messages tail : List Message} (found : m.deadBackends.Perm (b :: rest)) (key : c.key = b.key)
      (same : b.addr.name = addr.name)
      (alive : m'.aliveBackends = m.aliveBackends ++ [c]) (dead : m'.deadBackends = rest)
      (backends : m'.backends.map Backend.key = m.backends.map Backend.key)
      (groupSize : m'.groupSize = m.groupSize)
      (sent : messages = broadcastGroupAddr (m'.getCluster addr) ++ tail) (quiet : Quiet tail) :
      Moved m (m', messages)
  | left {m' : Lists} {b c : Backend} {addr : Address} {messages tail : List Message}
      (p : Backend → Bool) (found : m.aliveBackends.find? p = some b) (key : c.key = b.key) (same : b.addr.name = addr.name)
      (alive : m'.aliveBackends = m.aliveBackends.eraseP p)
      (dead : m'.deadBackends = m.deadBackends ++ [c])
      (backends : m'.backends.map Backend.key = m.backends.map Backend.key)
      (groupSize : m'.groupSize = m.groupSize)
      (sent : messages = broadcastGroupAddr (m'.getCluster addr) ++ tail) (quiet : Quiet tail) :
      Moved m (m', messages)

theorem map_key_modifyFirst (p : Backend → Bool) {f : Backend → Backend}
    (kept : ∀ b, (f b).key = b.key) (l : List Backend) :
    (modifyFirst p f l).map Backend.key = l.map Backend.key :=
  map_modifyFirst kept l

theorem quiet_nil : Quiet [] := by simp [Quiet]

/-- No operation changes which backends there are. -/
theorem Moved.keys {m : Lists} {r : Lists × List Message} (moved : Moved m r) :
    r.1.backends.map Backend.key = m.backends.map Backend.key := by
  cases moved with
  | still alive dead backends groupSize => exact backends
  | joined found key same alive dead backends groupSize sent quiet => exact backends
  | left p found key same alive dead backends groupSize sent quiet => exact backends

theorem moved_setBackendFd (m : Lists) (addr : Address) (fd : Int) :
    Moved m (m.setBackendFd addr fd) := by
  have backends := fun p => map_key_modifyFirst p
    (f := fun b => { b with fd := fd, state := .alive }) (fun _ => rfl) m.backends
  rw [Lists.setBackendFd]
  cases found : m.deadBackends.find? fun b => b.addr.name = addr.name with
  | none => exact .still rfl rfl (backends _) rfl
  | some b =>
    have name : b.addr.name = addr.name := by simpa using List.find?_some found
    exact .joined (perm_of_find? found) (c := { b with fd := fd, state := .alive }) rfl name rfl
      rfl (backends _) rfl (List.append_nil _).symm quiet_nil

theorem moved_deleteBackendFd (m : Lists) (fd : Int) : Moved m (m.deleteBackendFd fd) := by
  have kept := fun p => map_key_modifyFirst p
    (f := fun b => { b with fd := -1, state := .crash }) (fun _ => rfl)
  rw [Lists.deleteBackendFd]
  cases found : m.aliveBackends.find? fun b => b.fd = fd with
  | none => exact .still rfl (kept _ _) (kept _ _) rfl
  | some b =>
    exact .left _ found (c := { b with fd := -1, state := .crash }) rfl rfl rfl rfl (kept _ _) rfl
      (List.append_nil _).symm quiet_nil

theorem moved_killBackend (m : Lists) (addr : Address) : Moved m (m.killBackend addr) := by
  have backends := fun p => map_key_modifyFirst p
    (f := fun b => { b with state := .dead }) (fun _ => rfl) m.backends
  rw [Lists.killBackend]
  cases found : m.aliveBackends.find? fun b => b.addr.name = addr.name with
  | none => exact .still rfl rfl (backends _) rfl
  | some b =>
    have name : b.addr.name = addr.name := by simpa using List.find?_some found
    exact .left _ found (c := { b with state := .dead }) rfl name rfl rfl (backends _) rfl
      rfl (by simp [Quiet])

theorem moved_restartBackend (m : Lists) (addr : Address) : Moved m (m.restartBackend addr) := by
  have backends := fun p => map_key_modifyFirst p
    (f := fun b => { b with state := .alive }) (fun _ => rfl) m.backends
  rw [Lists.restartBackend]
  cases found : m.deadBackends.find? fun b => b.addr.name = addr.name ∧ b.state = .dead with
  | none => exact .still rfl rfl (backends _) rfl
  | some b =>
    have matched := List.find?_some found
    have name : b.addr.name = addr.name := by
      simp only [Bool.decide_and, Bool.and_eq_true, decide_eq_true_eq] at matched
      exact matched.1
    exact .joined (perm_of_find? found) (c := { b with state := .alive }) rfl name rfl rfl
      (backends _) rfl rfl (by simp [Quiet])

theorem moved_call (m : Lists) (call : Call) : Moved m (m.call call) := by
  cases call with
  | setBackendFd addr fd => exact moved_setBackendFd m addr fd
  | deleteBackendFd fd => exact moved_deleteBackendFd m fd
  | killBackend addr => exact moved_killBackend m addr
  | restartBackend addr => exact moved_restartBackend m addr

end Monitor
