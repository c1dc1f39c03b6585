import PennCloud.MasterProtocol
import PennCloud.Succession

/-!
# The acting primary of a cluster

CLUSTER makes the backend that it names first the primary and KILL ends that.
The survivors of a killed primary are told before it is, so two backends may act
as the primary at once. They do not where a new primary is told after the kills
of the others have been handled.
-/

namespace ActingPrimary

open Text FileTree KvInterface UnorderedMap Monitor KvCache KvStore Runs
  MasterProtocol Succession
open PrimaryRouting (groupOf_congr)
open Roles (roleOf roleAfter)
open Counters (recover)

/-- The process takes writes as the primary. -/
def Acting (p : Process) : Prop := p.node.isPrimary = true ∧ p.node.killed = false

instance (p : Process) : Decidable (Acting p) := inferInstanceAs (Decidable (_ ∧ _))

/-- No two backends of a cluster act as the primary. -/
def OneActing (s : System) : Prop :=
  ∀ i j p q, s.processes.lookup i = some p → s.processes.lookup j = some q →
    s.lists.groupOf (myAddr i) = s.lists.groupOf (myAddr j) → Acting p → Acting q → i = j

/-- The command makes its receiver the primary. -/
def Promotes (m : Flight) : Prop := m.command.com = .cluster ∧ Roles.Names m.port m.command

instance (m : Flight) : Decidable (Promotes m) := inferInstanceAs (Decidable (_ ∧ _))

/-- The second command waits for the first: KILL for what the same backend was sent before it,
RESTART for an earlier KILL, and a CLUSTER that makes a primary for the kills of the others in the
cluster up to the operation that sent it. -/
def Precedes (lists : Lists) (e f : Flight) : Prop :=
  (e.port = f.port ∧ e.op < f.op ∧
    (f.command.com = .kill ∧ (Promotes e ∨ e.command.com = .restart) ∨
      f.command.com = .restart ∧ e.command.com = .kill)) ∨
  (Promotes f ∧ e.command.com = .kill ∧ e.op ≤ f.op ∧ e.port ≠ f.port ∧
    lists.groupOf (myAddr e.port) = lists.groupOf (myAddr f.port))

instance (lists : Lists) (e f : Flight) : Decidable (Precedes lists e f) :=
  inferInstanceAs (Decidable (_ ∨ _))

/-- A backend is started again once the master has seen its last connection closed, and no
command overtakes one that it waits for. -/
def Condition (s : System) : Event → Prop
  | .start port _ =>
    ∀ b ∈ s.lists.aliveBackends ++ s.lists.deadBackends, b.addr = myAddr port → b.fd = -1
  | .deliver m _ => ∀ e ∈ s.flights, ¬ Precedes s.lists e m
  | _ => True

instance (s : System) : DecidablePred (Condition s)
  | .start port _ => inferInstanceAs (Decidable (∀ b ∈ s.lists.aliveBackends ++
      s.lists.deadBackends, b.addr = myAddr port → b.fd = -1))
  | .deliver m _ => inferInstanceAs (Decidable (∀ e ∈ s.flights, ¬ Precedes s.lists e m))
  | .register _ _ | .initialise _ _ | .crash _ | .close _ | .kill _ | .restart _ | .serve _ _ _ =>
    isTrue trivial

/-- The commands in flight to each backend: every KILL will find it alive, and a backend that is
listed as alive will be, once it has handled them. -/
structure Orderly (s : System) : Prop where
  ports : ∀ i p, s.processes.lookup i = some p → p.node.port = i
  running : ∀ m ∈ s.flights, (s.processes.lookup m.port).isSome
  numbers : ∀ m ∈ s.flights, m.op < s.ops
  com : ∀ m ∈ s.flights, m.command.com = .cluster ∨ m.command = { com := .kill } ∨
    m.command = { com := .restart }
  nodup : s.flights.Nodup
  waiting : ∀ i p, s.processes.lookup i = some p → p.fd = none →
    p.node.isPrimary = false ∧ p.node.killed = false ∧ ∀ m ∈ s.flights, m.port ≠ i
  effective : ∀ i p, s.processes.lookup i = some p → p.node.killed = true →
    ∀ m ∈ s.flights, m.port = i → m.command.com = .kill →
      ∃ e ∈ s.flights, e.port = i ∧ e.command.com = .restart ∧ e.op < m.op
  between : ∀ m ∈ s.flights, ∀ f ∈ s.flights, m.port = f.port → m.command.com = .kill →
    f.command.com = .kill → m.op < f.op →
      ∃ e ∈ s.flights, e.port = m.port ∧ e.command.com = .restart ∧ m.op < e.op ∧ e.op < f.op
  restarted : ∀ i p, Alive s.lists i → s.processes.lookup i = some p →
    (p.node.killed = true → ∃ e ∈ s.flights, e.port = i ∧ e.command.com = .restart) ∧
    ∀ m ∈ s.flights, m.port = i → m.command.com = .kill →
      ∃ e ∈ s.flights, e.port = i ∧ e.command.com = .restart ∧ m.op < e.op

/-- Two backends of one cluster. -/
def Rival (lists : Lists) (i j : Nat) : Prop :=
  i ≠ j ∧ lists.groupOf (myAddr i) = lists.groupOf (myAddr j)

/-- The office of the primary: each backend that is the primary was made so by the command with
the number that `since` gives. -/
def office (s : System) (since : Nat → Nat) : Office Nat where
  now := s.ops
  head := Heads s.lists
  offer i t := ∃ m ∈ s.flights, m.port = i ∧ m.op = t ∧ Promotes m
  dismissal i v := ∃ m ∈ s.flights, m.port = i ∧ m.op = v ∧ m.command.com = .kill
  holds i t := t = since i ∧ ∃ p, s.processes.lookup i = some p ∧ p.node.isPrimary = true

/-- What holds of the master, the backends and the commands between them. -/
structure Governed (s : System) : Prop where
  recorded : Recorded s.lists s.processes
  orderly : Orderly s
  lawful : ∃ since, Lawful (Rival s.lists) (office s since)

theorem oneActing_of_governed {s : System} (governed : Governed s) : OneActing s := by
  obtain ⟨since, lawful⟩ := governed.lawful
  intro i j p q hp hq group first second
  by_contra other
  have symm : ∀ x y, Rival s.lists x y → Rival s.lists y x := fun _ _ h => ⟨h.1.symm, h.2.symm⟩
  exact lawful.one_holder symm ⟨other, group⟩ ⟨rfl, p, hp, first.1⟩ ⟨rfl, q, hq, second.1⟩

section Calls
variable {s s' : System} {call : Call} {messages : List Message}

theorem mem_sends {f : Flight} : f ∈ s.sends messages ↔ ∃ x ∈ messages,
    (s.processes.lookup x.1.port).isSome ∧ f = ⟨s.ops, x.1.port, x.2⟩ := by
  simp only [System.sends, List.mem_map, List.mem_filter, and_assoc, eq_comm]

/-- An operation of the master, after which the same processes run. -/
structure Calls (s s' : System) (call : Call) (messages : List Message) : Prop where
  sent : Sent s.lists s'.lists call messages
  flights : s'.flights = s.flights ++ s.sends messages
  ops : s'.ops = s.ops + 1
  processes : ∀ i p', s'.processes.lookup i = some p' →
    ∃ p, s.processes.lookup i = some p ∧ p.node = p'.node ∧ (p'.fd = none → p.fd = none)
  running : ∀ i, (s.processes.lookup i).isSome → (s'.processes.lookup i).isSome
  registers : ∀ i fd, call = .setBackendFd (myAddr i) fd → ∀ p, s.processes.lookup i = some p →
    p.fd = none
  groups : ∀ a, s'.lists.groupOf a = s.lists.groupOf a

theorem Calls.mem_flights (calls : Calls s s' call messages) {f : Flight} (h : f ∈ s'.flights) :
    f ∈ s.flights ∨ f.op = s.ops ∧ (s.processes.lookup f.port).isSome ∧
      ∃ x ∈ messages, x.1.port = f.port ∧ x.2 = f.command := by
  rw [calls.flights] at h
  rcases List.mem_append.mp h with old | new
  · exact .inl old
  · obtain ⟨x, hx, runs, rfl⟩ := mem_sends.mp new
    exact .inr ⟨rfl, runs, x, hx, rfl, rfl⟩

theorem Calls.old (calls : Calls s s' call messages) {f : Flight} (h : f ∈ s.flights) :
    f ∈ s'.flights := by
  rw [calls.flights]
  exact List.mem_append_left _ h

/-- A KILL goes to a backend that is listed, and then no longer is. -/
theorem Calls.kill (calls : Calls s s' call messages) {f : Flight} {x : Message}
    (hx : x ∈ messages) (goes : x.1.port = f.port) (command : x.2 = f.command)
    (kill : f.command.com = .kill) : Alive s.lists f.port ∧ ¬ Alive s'.lists f.port := by
  rw [← goes]
  exact calls.sent.kills x hx (command ▸ kill)

/-- A backend that is listed as alive has registered. -/
theorem registered_of_alive {m : Lists} {processes : UMap Nat Process} {i : Nat} {p : Process}
    (recorded : Recorded m processes) (hp : processes.lookup i = some p) (alive : Alive m i) :
    p.fd ≠ none := by
  obtain ⟨b, hb, own⟩ := alive
  intro waits
  have fd := recorded.connected i p hp b (List.mem_append_left _ hb) own
  rw [waits] at fd
  exact recorded.alive b hb fd

theorem Calls.nodup (calls : Calls s s' call messages) (orderly : Orderly s) :
    s'.flights.Nodup := by
  rw [calls.flights]
  refine List.nodup_append.mpr ⟨orderly.nodup, ?_, fun a ha b hb same => ?_⟩
  · refine List.Nodup.map_on (fun x hx y hy same => ?_) (calls.sent.nodup.filter _)
    simp only [Flight.mk.injEq, true_and] at same
    have receiverX := calls.sent.receiver x (List.mem_of_mem_filter hx)
    have receiverY := calls.sent.receiver y (List.mem_of_mem_filter hy)
    refine Prod.ext ?_ same.2
    rw [receiverX, receiverY, same.1]
  · obtain ⟨x, -, -, rfl⟩ := mem_sends.mp hb
    have old := orderly.numbers a ha
    rw [same] at old
    exact Nat.lt_irrefl _ old

theorem Calls.waiting (calls : Calls s s' call messages) (orderly : Orderly s)
    (recorded : Recorded s.lists s.processes) (recorded' : Recorded s'.lists s'.processes)
    {i : Nat} {p : Process} (hp : s'.processes.lookup i = some p) (waits : p.fd = none) :
    p.node.isPrimary = false ∧ p.node.killed = false ∧ ∀ m ∈ s'.flights, m.port ≠ i := by
  obtain ⟨q, old, node, kept⟩ := calls.processes i p hp
  obtain ⟨primary, killed, none⟩ := orderly.waiting i q old (kept waits)
  refine ⟨node ▸ primary, node ▸ killed, fun f hf port => ?_⟩
  rcases calls.mem_flights hf with before | ⟨-, -, x, hx, goes, -⟩
  · exact none f before port
  · rcases calls.sent.listed x hx with listed | ⟨-, listed⟩ <;> rw [goes, port] at listed
    · exact registered_of_alive recorded' hp listed waits
    · exact registered_of_alive recorded old listed (kept waits)

theorem Calls.effective (calls : Calls s s' call messages) (orderly : Orderly s) {i : Nat}
    {p : Process} (hp : s'.processes.lookup i = some p) (killed : p.node.killed = true)
    {f : Flight} (hf : f ∈ s'.flights) (port : f.port = i) (kill : f.command.com = .kill) :
    ∃ e ∈ s'.flights, e.port = i ∧ e.command.com = .restart ∧ e.op < f.op := by
  obtain ⟨q, old, node, -⟩ := calls.processes i p hp
  rw [← node] at killed
  rcases calls.mem_flights hf with before | ⟨new, -, x, hx, goes, command⟩
  · obtain ⟨e, he, rest⟩ := orderly.effective i q old killed f before port kill
    exact ⟨e, calls.old he, rest⟩
  · obtain ⟨listed, -⟩ := calls.kill hx goes command kill
    rw [port] at listed
    obtain ⟨e, he, own, restart⟩ := (orderly.restarted i q listed old).1 killed
    refine ⟨e, calls.old he, own, restart, ?_⟩
    rw [new]
    exact orderly.numbers e he

theorem Calls.between (calls : Calls s s' call messages) (orderly : Orderly s) {m f : Flight}
    (hm : m ∈ s'.flights) (hf : f ∈ s'.flights) (port : m.port = f.port)
    (first : m.command.com = .kill) (second : f.command.com = .kill) (later : m.op < f.op) :
    ∃ e ∈ s'.flights, e.port = m.port ∧ e.command.com = .restart ∧ m.op < e.op ∧ e.op < f.op := by
  have old : m ∈ s.flights := by
    rcases calls.mem_flights hm with before | ⟨new, -⟩
    · exact before
    · rcases calls.mem_flights hf with beforeF | ⟨newF, -⟩
      · have past := orderly.numbers f beforeF
        omega
      · omega
  rcases calls.mem_flights hf with before | ⟨new, runs, x, hx, goes, command⟩
  · obtain ⟨e, he, rest⟩ := orderly.between m old f before port first second later
    exact ⟨e, calls.old he, rest⟩
  · obtain ⟨listed, -⟩ := calls.kill hx goes command second
    obtain ⟨p, hp⟩ := Option.isSome_iff_exists.mp runs
    obtain ⟨e, he, own, restart, after⟩ :=
      (orderly.restarted f.port p listed hp).2 m old port first
    refine ⟨e, calls.old he, own.trans port.symm, restart, after, ?_⟩
    rw [new]
    exact orderly.numbers e he

theorem Calls.restarted (calls : Calls s s' call messages) (orderly : Orderly s) {i : Nat}
    {p : Process} (alive : Alive s'.lists i) (hp : s'.processes.lookup i = some p) :
    (p.node.killed = true → ∃ e ∈ s'.flights, e.port = i ∧ e.command.com = .restart) ∧
    ∀ m ∈ s'.flights, m.port = i → m.command.com = .kill →
      ∃ e ∈ s'.flights, e.port = i ∧ e.command.com = .restart ∧ m.op < e.op := by
  obtain ⟨q, old, node, -⟩ := calls.processes i p hp
  -- A KILL that was just sent went to a backend that is no longer listed.
  have noKill : ∀ f ∈ s'.flights, f.port = i → f.command.com = .kill → f ∈ s.flights := by
    intro f hf port kill
    rcases calls.mem_flights hf with before | ⟨-, -, x, hx, goes, command⟩
    · exact before
    · obtain ⟨-, gone⟩ := calls.kill hx goes command kill
      rw [port] at gone
      exact absurd alive gone
  rcases calls.sent.alive i alive with listed | restarts | ⟨fd, registers⟩
  · obtain ⟨restart, after⟩ := orderly.restarted i q listed old
    refine ⟨fun killed => ?_, fun f hf port kill => ?_⟩
    · obtain ⟨e, he, rest⟩ := restart (node ▸ killed)
      exact ⟨e, calls.old he, rest⟩
    · obtain ⟨e, he, rest⟩ := after f (noKill f hf port kill) port kill
      exact ⟨e, calls.old he, rest⟩
  · have new : (⟨s.ops, i, { com := .restart }⟩ : Flight) ∈ s'.flights := by
      rw [calls.flights]
      refine List.mem_append_right _ (mem_sends.mpr ⟨_, restarts, ?_, ?_⟩)
      · rw [port_myAddr, old]
        rfl
      · rw [port_myAddr]
    refine ⟨fun _ => ⟨_, new, rfl, rfl⟩, fun f hf port kill => ⟨_, new, rfl, rfl, ?_⟩⟩
    exact orderly.numbers f (noKill f hf port kill)
  · obtain ⟨-, alive', none⟩ := orderly.waiting i q old (calls.registers i fd registers q old)
    rw [node] at alive'
    refine ⟨fun killed => ?_, fun f hf port kill => ?_⟩
    · rw [alive'] at killed
      cases killed
    · exact absurd port (none f (noKill f hf port kill))

theorem orderly_call (orderly : Orderly s) (recorded : Recorded s.lists s.processes)
    (recorded' : Recorded s'.lists s'.processes) (calls : Calls s s' call messages) :
    Orderly s' := by
  refine ⟨fun i p hp => ?_, fun f hf => ?_, fun f hf => ?_, fun f hf => ?_,
    calls.nodup orderly, fun i p hp waits => calls.waiting orderly recorded recorded' hp waits,
    fun i p hp killed f hf port kill => calls.effective orderly hp killed hf port kill,
    fun m hm f hf port first second later =>
      calls.between orderly hm hf port first second later,
    fun i p alive hp => calls.restarted orderly alive hp⟩
  · obtain ⟨q, old, node, -⟩ := calls.processes i p hp
    rw [← node]
    exact orderly.ports i q old
  · rcases calls.mem_flights hf with old | ⟨-, runs, -⟩
    · exact calls.running _ (orderly.running f old)
    · exact calls.running _ runs
  · rw [calls.ops]
    rcases calls.mem_flights hf with old | ⟨new, -⟩
    · exact Nat.lt_succ_of_lt (orderly.numbers f old)
    · rw [new]
      exact Nat.lt_succ_self _
  · rcases calls.mem_flights hf with old | ⟨-, -, x, hx, -, command⟩
    · exact orderly.com f old
    · rw [← command]
      exact calls.sent.com x hx

theorem Calls.rival (calls : Calls s s' call messages) : Rival s'.lists = Rival s.lists := by
  funext i j
  rw [Rival, Rival, calls.groups, calls.groups]

theorem lawful_call {since : Nat → Nat} (orderly : Orderly s)
    (lawful : Lawful (Rival s.lists) (office s since)) (calls : Calls s s' call messages)
    (closed : ∀ i fd, call = .deleteBackendFd fd →
      (∃ b ∈ s.lists.aliveBackends, b.addr = myAddr i ∧ b.fd = fd) →
        s.processes.lookup i = none) :
    Lawful (Rival s'.lists) (office s' since) := by
  have running : ∀ i t, (office s' since).Claim i t → (s.processes.lookup i).isSome := by
    rintro i t (⟨m, hm, rfl, -⟩ | ⟨-, p, hp, -⟩)
    · rcases calls.mem_flights hm with old | ⟨-, runs, -⟩
      · exact orderly.running m old
      · exact runs
    · obtain ⟨q, old, -⟩ := calls.processes i p hp
      rw [old]
      rfl
  rw [calls.rival]
  refine lawful_chosen lawful ⟨calls.ops, fun i t holds => ?_, fun i t offer => ?_,
    fun i v dismissal => ?_, fun i v dismissal => ?_, fun i t claim heads => ?_,
    fun i j rivals first second => ?_⟩
  · obtain ⟨since, p, hp, primary⟩ := holds
    obtain ⟨q, old, node, -⟩ := calls.processes i p hp
    exact ⟨since, q, old, node ▸ primary⟩
  · obtain ⟨m, hm, port, op, promotes⟩ := offer
    rcases calls.mem_flights hm with old | ⟨new, -, x, hx, goes, command⟩
    · exact .inl ⟨m, old, port, op, promotes⟩
    · refine .inr ⟨op.symm.trans new, ?_⟩
      have heads := calls.sent.promotes x hx (command ▸ promotes.1)
        (by rw [goes, command]; exact promotes.2)
      rw [goes, port] at heads
      exact heads
  · obtain ⟨m, hm, port, op, kill⟩ := dismissal
    rcases calls.mem_flights hm with old | ⟨new, -⟩
    · exact .inl ⟨m, old, port, op, kill⟩
    · exact .inr (op.symm.trans new)
  · obtain ⟨m, hm, rest⟩ := dismissal
    exact ⟨m, calls.old hm, rest⟩
  · rcases calls.sent.heads i heads with stays | killed | ⟨fd, closes, record⟩
    · exact .inl stays
    · refine .inr ⟨⟨s.ops, i, { com := .kill }⟩, ?_, rfl, rfl, rfl⟩
      rw [calls.flights]
      refine List.mem_append_right _ (mem_sends.mpr ⟨_, killed, ?_, ?_⟩)
      · rw [port_myAddr]
        exact running i t claim
      · rw [port_myAddr]
    · have runs := running i t claim
      rw [closed i fd closes record] at runs
      cases runs
  · refine rivals.1 (heads_unique ?_ first second)
    rw [calls.groups, calls.groups]
    exact rivals.2

end Calls

section Operations
variable {s : System}

theorem governed_call {s' : System} {call : Call} {messages : List Message}
    (governed : Governed s) (recorded' : Recorded s'.lists s'.processes)
    (calls : Calls s s' call messages)
    (closed : ∀ i fd, call = .deleteBackendFd fd →
      (∃ b ∈ s.lists.aliveBackends, b.addr = myAddr i ∧ b.fd = fd) →
        s.processes.lookup i = none) : Governed s' := by
  obtain ⟨since, lawful⟩ := governed.lawful
  exact ⟨recorded', orderly_call governed.orderly governed.recorded recorded' calls,
    since, lawful_call governed.orderly lawful calls closed⟩

/-- The processes stay as they are. -/
theorem calls_call (recorded : Recorded s.lists s.processes) (call : Call)
    (recorded' : Recorded (s.lists.call call).1 s.processes) (spelled : Spelled call)
    (other : ∀ addr fd, call ≠ .setBackendFd addr fd) (opened : List Nat) :
    Calls s { s.call call with opened := opened } call (s.lists.call call).2 := by
  have groups := groupOf_congr (moved_call s.lists call).keys
  exact ⟨sent_call recorded recorded' groups spelled (called_call s.lists call), rfl, rfl,
    fun i p hp => ⟨p, hp, rfl, id⟩, fun i runs => runs,
    fun i fd registers => absurd registers (other _ fd), groups⟩

theorem governed_kill (governed : Governed s) (addr : Str) :
    Governed (s.call (.killBackend (Address.init addr))) := by
  have recorded' := recorded_kill governed.recorded (Address.init addr)
  have calls := calls_call governed.recorded (.killBackend (Address.init addr)) recorded'
    (congrArg Address.init (name_init addr).symm) (by simp) s.opened
  exact governed_call governed recorded' calls (by simp)

theorem governed_restart (governed : Governed s) (addr : Str) :
    Governed (s.call (.restartBackend (Address.init addr))) := by
  have recorded' := recorded_restart governed.recorded (Address.init addr)
  have calls := calls_call governed.recorded (.restartBackend (Address.init addr)) recorded'
    (congrArg Address.init (name_init addr).symm) (by simp) s.opened
  exact governed_call governed recorded' calls (by simp)

theorem governed_close (governed : Governed s) {fd : Nat}
    (ended : ∀ i p, s.processes.lookup i = some p → p.fd ≠ some fd) (opened : List Nat) :
    Governed { s.call (.deleteBackendFd fd) with opened := opened } := by
  have recorded' := recorded_close governed.recorded ended
  have calls := calls_call governed.recorded (.deleteBackendFd fd) recorded' trivial
    (by simp) opened
  refine governed_call governed recorded' calls ?_
  rintro i g same ⟨b, hb, own, hangs⟩
  cases same
  by_contra runs
  obtain ⟨p, hp⟩ := Option.ne_none_iff_exists'.mp runs
  exact governed.recorded.notRunning ended (List.mem_append_left _ hb) hangs hp own

theorem governed_register (governed : Governed s) {i fd : Nat} {p : Process}
    (runs : s.processes.lookup i = some p) (waits : p.fd = none) (opened : List Nat) :
    Governed { s.call (.setBackendFd (myAddr i) fd) with
      opened := opened
      processes := s.processes.insert i { p with fd := some fd } } := by
  have recorded' := recorded_register governed.recorded runs waits fd
  have groups := groupOf_congr (moved_call s.lists (.setBackendFd (myAddr i) fd)).keys
  have calls : Calls s { s.call (.setBackendFd (myAddr i) fd) with
      opened := opened
      processes := s.processes.insert i { p with fd := some fd } } (.setBackendFd (myAddr i) fd)
      (s.lists.call (.setBackendFd (myAddr i) fd)).2 := by
    refine ⟨sent_call governed.recorded recorded' groups (init_name_myAddr i).symm
      (called_call s.lists _), rfl, rfl, fun j q hq => ?_, fun j runs' => ?_,
      fun j g registers q hq => ?_, groups⟩
    · rw [lookup_insert] at hq
      split at hq
      · rename_i same
        cases hq
        exact ⟨p, same ▸ runs, rfl, by simp⟩
      · exact ⟨q, hq, rfl, id⟩
    · rw [lookup_insert]
      split
      · rfl
      · exact runs'
    · obtain rfl : i = j := myAddr_injective (by injection registers)
      rw [runs] at hq
      cases hq
      exact waits
  exact governed_call governed recorded' calls (by simp)

/-- A process is started whose backend has no connection on record. -/
theorem governed_start (governed : Governed s) {i : Nat} (free : s.processes.lookup i = none)
    (closed : ∀ b ∈ s.lists.aliveBackends ++ s.lists.deadBackends, b.addr = myAddr i → b.fd = -1)
    (fs : Tree) :
    Governed { s with processes := s.processes.insert i ⟨none, Node.boot i fs⟩ } := by
  obtain ⟨recorded, orderly, since, lawful⟩ := governed
  have old : ∀ j p, (s.processes.insert i ⟨none, Node.boot i fs⟩).lookup j = some p →
      j = i ∧ p = ⟨none, Node.boot i fs⟩ ∨ s.processes.lookup j = some p := by
    intro j p hp
    rw [lookup_insert] at hp
    split at hp
    · rename_i same
      exact .inl ⟨same, (Option.some.inj hp).symm⟩
    · exact .inr hp
  have nothing : ∀ m ∈ s.flights, m.port ≠ i := by
    intro m hm same
    have runs := orderly.running m hm
    rw [same, free] at runs
    cases runs
  refine ⟨recorded_started recorded closed _, ⟨fun j p hp => ?_, fun m hm => ?_,
    orderly.numbers, orderly.com, orderly.nodup, fun j p hp waits => ?_,
    fun j p hp killed => ?_, orderly.between, fun j p alive hp => ?_⟩, since, ?_⟩
  · rcases old j p hp with ⟨rfl, rfl⟩ | before
    · rfl
    · exact orderly.ports j p before
  · show ((s.processes.insert i _).lookup m.port).isSome
    rw [lookup_insert, if_neg (nothing m hm)]
    exact orderly.running m hm
  · rcases old j p hp with ⟨rfl, rfl⟩ | before
    · exact ⟨rfl, rfl, nothing⟩
    · exact orderly.waiting j p before waits
  · rcases old j p hp with ⟨rfl, rfl⟩ | before
    · cases killed
    · exact orderly.effective j p before killed
  · rcases old j p hp with ⟨rfl, rfl⟩ | before
    · obtain ⟨b, hb, own⟩ := alive
      exact absurd (closed b (List.mem_append_left _ hb) own) (recorded.alive b hb)
    · exact orderly.restarted j p alive before
  · have holds : ∀ j t, (office { s with
        processes := s.processes.insert i ⟨none, Node.boot i fs⟩ } since).holds j t →
        (office s since).holds j t := by
      rintro j t ⟨same, p, hp, primary⟩
      rcases old j p hp with ⟨rfl, rfl⟩ | before
      · cases primary
      · exact ⟨same, p, before, primary⟩
    exact lawful_arrived lawful ⟨rfl, fun j => id, fun j t => Or.imp id (holds j t),
      fun j v => id, fun j t v _ _ => id, fun j k t v _ now before => absurd (holds j t now) before⟩

/-- A process ends. -/
theorem governed_ended (governed : Governed s) (i : Nat) : Governed (s.ended i) := by
  obtain ⟨recorded, orderly, since, lawful⟩ := governed
  have old : ∀ j p, (s.processes.erase i).lookup j = some p →
      j ≠ i ∧ s.processes.lookup j = some p := by
    intro j p hp
    rw [lookup_erase] at hp
    split at hp
    · cases hp
    · rename_i other
      exact ⟨other, hp⟩
  have mem : ∀ m, m ∈ (s.ended i).flights ↔ m ∈ s.flights ∧ m.port ≠ i := by
    intro m
    simp [System.ended]
  refine ⟨recorded_ended recorded i, ⟨fun j p hp => orderly.ports j p (old j p hp).2,
    fun m hm => ?_, fun m hm => orderly.numbers m ((mem m).mp hm).1,
    fun m hm => orderly.com m ((mem m).mp hm).1, orderly.nodup.filter _, fun j p hp waits => ?_,
    fun j p hp killed m hm port kill => ?_, fun m hm f hf port first second later => ?_,
    fun j p alive hp => ?_⟩, since, ?_⟩
  · obtain ⟨before, other⟩ := (mem m).mp hm
    show ((s.processes.erase i).lookup m.port).isSome
    rw [lookup_erase, if_neg other]
    exact orderly.running m before
  · obtain ⟨primary, killed, none⟩ := orderly.waiting j p (old j p hp).2 waits
    exact ⟨primary, killed, fun m hm => none m ((mem m).mp hm).1⟩
  · obtain ⟨other, before⟩ := old j p hp
    obtain ⟨e, he, own, rest⟩ := orderly.effective j p before killed m ((mem m).mp hm).1 port kill
    exact ⟨e, (mem e).mpr ⟨he, own ▸ other⟩, own, rest⟩
  · obtain ⟨before, other⟩ := (mem m).mp hm
    obtain ⟨e, he, own, rest⟩ :=
      orderly.between m before f ((mem f).mp hf).1 port first second later
    exact ⟨e, (mem e).mpr ⟨he, own ▸ other⟩, own, rest⟩
  · obtain ⟨other, before⟩ := old j p hp
    obtain ⟨restart, after⟩ := orderly.restarted j p alive before
    refine ⟨fun killed => ?_, fun m hm port kill => ?_⟩
    · obtain ⟨e, he, own, rest⟩ := restart killed
      exact ⟨e, (mem e).mpr ⟨he, own ▸ other⟩, own, rest⟩
    · obtain ⟨e, he, own, rest⟩ := after m ((mem m).mp hm).1 port kill
      exact ⟨e, (mem e).mpr ⟨he, own ▸ other⟩, own, rest⟩
  · have offer : ∀ j t, (office (s.ended i) since).offer j t →
        j ≠ i ∧ (office s since).offer j t := by
      rintro j t ⟨m, hm, rfl, rest⟩
      obtain ⟨before, other⟩ := (mem m).mp hm
      exact ⟨other, m, before, rfl, rest⟩
    have holds : ∀ j t, (office (s.ended i) since).holds j t →
        j ≠ i ∧ (office s since).holds j t := by
      rintro j t ⟨same, p, hp, primary⟩
      obtain ⟨other, before⟩ := old j p hp
      exact ⟨other, same, p, before, primary⟩
    refine lawful_arrived lawful ⟨rfl, fun j => id, fun j t claim => ?_, ?_, ?_,
      fun j k t v _ now before => absurd (holds j t now).2 before⟩
    · exact claim.imp (fun h => (offer j t h).2) fun h => (holds j t h).2
    · rintro j v ⟨m, hm, rest⟩
      exact ⟨m, ((mem m).mp hm).1, rest⟩
    · rintro j t v claim - ⟨m, hm, port, rest⟩
      have other : j ≠ i := claim.elim (fun h => (offer j t h).1) fun h => (holds j t h).1
      exact ⟨m, (mem m).mpr ⟨hm, port ▸ other⟩, port, rest⟩

/-! Commands -/

/-- A backend has handled a command: its flags have changed, and some of what was in flight to it
may be gone. -/
theorem orderly_handled (orderly : Orderly s) {i : Nat} {p : Process}
    (runs : s.processes.lookup i = some p) {node : Node} {flights : List Flight}
    (port : node.port = i) (sub : ∀ f ∈ flights, f ∈ s.flights) (nodup : flights.Nodup)
    (others : ∀ f ∈ s.flights, f.port ≠ i → f ∈ flights)
    (waits : p.fd = none → node.isPrimary = false ∧ node.killed = false)
    (effective : node.killed = true → ∀ f ∈ flights, f.port = i → f.command.com = .kill →
      ∃ e ∈ flights, e.port = i ∧ e.command.com = .restart ∧ e.op < f.op)
    (between : ∀ m ∈ flights, ∀ f ∈ flights, m.port = i → f.port = i → m.command.com = .kill →
      f.command.com = .kill → m.op < f.op →
        ∃ e ∈ flights, e.port = i ∧ e.command.com = .restart ∧ m.op < e.op ∧ e.op < f.op)
    (restarted : Alive s.lists i →
      (node.killed = true → ∃ e ∈ flights, e.port = i ∧ e.command.com = .restart) ∧
      ∀ m ∈ flights, m.port = i → m.command.com = .kill →
        ∃ e ∈ flights, e.port = i ∧ e.command.com = .restart ∧ m.op < e.op) :
    Orderly { s.became i p node with flights := flights } := by
  have old : ∀ j q, (s.processes.insert i { p with node := node }).lookup j = some q →
      j = i ∧ q = { p with node := node } ∨ j ≠ i ∧ s.processes.lookup j = some q := by
    intro j q hq
    rw [lookup_insert] at hq
    split at hq
    · rename_i same
      exact .inl ⟨same, (Option.some.inj hq).symm⟩
    · rename_i other
      exact .inr ⟨other, hq⟩
  refine ⟨fun j q hq => ?_, fun m hm => ?_, fun m hm => orderly.numbers m (sub m hm),
    fun m hm => orderly.com m (sub m hm), nodup, fun j q hq waits' => ?_,
    fun j q hq killed f hf own kill => ?_, fun m hm f hf same first second later => ?_,
    fun j q alive hq => ?_⟩
  · rcases old j q hq with ⟨rfl, rfl⟩ | ⟨-, before⟩
    · exact port
    · exact orderly.ports j q before
  · show ((s.processes.insert i _).lookup m.port).isSome
    rw [lookup_insert]
    split
    · rfl
    · exact orderly.running m (sub m hm)
  · rcases old j q hq with ⟨rfl, rfl⟩ | ⟨-, before⟩
    · obtain ⟨-, -, none⟩ := orderly.waiting j p runs waits'
      obtain ⟨primary, killed⟩ := waits waits'
      exact ⟨primary, killed, fun m hm => none m (sub m hm)⟩
    · obtain ⟨primary, killed, none⟩ := orderly.waiting j q before waits'
      exact ⟨primary, killed, fun m hm => none m (sub m hm)⟩
  · rcases old j q hq with ⟨rfl, rfl⟩ | ⟨other, before⟩
    · exact effective killed f hf own kill
    · obtain ⟨e, he, ownE, rest⟩ := orderly.effective j q before killed f (sub f hf) own kill
      exact ⟨e, others e he (ownE ▸ other), ownE, rest⟩
  · by_cases own : m.port = i
    · obtain ⟨e, he, ownE, rest⟩ :=
        between m hm f hf own (same.symm.trans own) first second later
      exact ⟨e, he, ownE.trans own.symm, rest⟩
    · obtain ⟨e, he, ownE, rest⟩ :=
        orderly.between m (sub m hm) f (sub f hf) same first second later
      exact ⟨e, others e he (ownE ▸ own), ownE, rest⟩
  · rcases old j q hq with ⟨rfl, rfl⟩ | ⟨other, before⟩
    · exact restarted alive
    · obtain ⟨restart, after⟩ := orderly.restarted j q alive before
      refine ⟨fun killed => ?_, fun m hm own kill => ?_⟩
      · obtain ⟨e, he, ownE, rest⟩ := restart killed
        exact ⟨e, others e he (ownE ▸ other), ownE, rest⟩
      · obtain ⟨e, he, ownE, rest⟩ := after m (sub m hm) own kill
        exact ⟨e, others e he (ownE ▸ other), ownE, rest⟩

/-- A backend keeps its flags. -/
theorem governed_became (governed : Governed s) {i : Nat} {p : Process}
    (runs : s.processes.lookup i = some p) {node : Node} (role : roleOf node = roleOf p.node) :
    Governed (s.became i p node) := by
  obtain ⟨recorded, orderly, since, lawful⟩ := governed
  simp only [roleOf, Prod.mk.injEq] at role
  obtain ⟨port, primary, killed⟩ := role
  have orderly' : Orderly { s.became i p node with flights := s.flights } := by
    refine orderly_handled orderly runs (port.trans (orderly.ports i p runs)) (fun f => id)
      orderly.nodup (fun f hf _ => hf) (fun waits => ?_) (fun now => ?_)
      (fun m hm f hf own own' => ?_) fun alive => ?_
    · rw [primary, killed]
      obtain ⟨primary, killed, -⟩ := orderly.waiting i p runs waits
      exact ⟨primary, killed⟩
    · exact orderly.effective i p runs (killed ▸ now)
    · rw [← own]
      exact orderly.between m hm f hf (own.trans own'.symm)
    · rw [killed]
      exact orderly.restarted i p alive runs
  have holds : ∀ j t, (office (s.became i p node) since).holds j t →
      (office s since).holds j t := by
    rintro j t ⟨same, q, hq, now⟩
    simp only [System.became, lookup_insert] at hq
    split at hq
    · rename_i own
      cases hq
      exact ⟨same, p, own ▸ runs, primary ▸ now⟩
    · exact ⟨same, q, hq, now⟩
  exact ⟨recorded_became recorded runs node, orderly', since, lawful_arrived lawful
    ⟨rfl, fun j => id, fun j t => Or.imp id (holds j t), fun j v => id, fun j t v _ _ => id,
      fun j k t v _ now before => absurd (holds j t now) before⟩⟩

section Deliver
variable {m : Flight} {p : Process} {node : Node}

/-- A backend with a command in flight to it has registered. -/
theorem Orderly.registered (orderly : Orderly s) (runs : s.processes.lookup m.port = some p)
    (hm : m ∈ s.flights) : p.fd ≠ none := by
  intro waits
  obtain ⟨-, -, none⟩ := orderly.waiting m.port p runs waits
  exact none m hm rfl

theorem Orderly.mem_erase (orderly : Orderly s) {f : Flight} :
    f ∈ s.flights.erase m ↔ f ≠ m ∧ f ∈ s.flights := orderly.nodup.mem_erase_iff

/-- Commands other than the one that is handled stay. -/
theorem Orderly.stays (orderly : Orderly s) {f : Flight} (hf : f ∈ s.flights)
    (other : f.command.com ≠ m.command.com) : f ∈ s.flights.erase m :=
  orderly.mem_erase.mpr ⟨fun same => other (by rw [same]), hf⟩

theorem holds_became {since since' : Nat → Nat} {flights : List Flight} {j t : Nat}
    (others : ∀ i, i ≠ m.port → since' i = since i)
    (holds : (office { s.became m.port p node with flights := flights } since').holds j t) :
    j = m.port ∧ t = since' j ∧ node.isPrimary = true ∨ j ≠ m.port ∧ (office s since).holds j t := by
  obtain ⟨same, q, hq, primary⟩ := holds
  simp only [System.became, lookup_insert] at hq
  split at hq
  · rename_i own
    cases hq
    exact .inl ⟨own, same, primary⟩
  · rename_i other
    exact .inr ⟨other, same.trans (others j other), q, hq, primary⟩

/-- CLUSTER is handled. -/
theorem governed_cluster (governed : Governed s) (runs : s.processes.lookup m.port = some p)
    (hm : m ∈ s.flights) (first : ∀ e ∈ s.flights, ¬ Precedes s.lists e m)
    (com : m.command.com = .cluster) (role : roleOf node = roleAfter p.node m.command) :
    Governed { s.became m.port p node with flights := s.flights.erase m } := by
  obtain ⟨recorded, orderly, since, lawful⟩ := governed
  have ofPort := orderly.ports m.port p runs
  simp only [roleOf, roleAfter, com, Prod.mk.injEq, ofPort] at role
  obtain ⟨port, primary, killed⟩ := role
  have sub : ∀ f ∈ s.flights.erase m, f ∈ s.flights := fun f => List.mem_of_mem_erase
  have kills : ∀ f ∈ s.flights, f.command.com = .kill → f ∈ s.flights.erase m := fun f hf kill =>
    orderly.stays hf (by rw [kill, com]; simp)
  have restarts : ∀ f ∈ s.flights, f.command.com = .restart → f ∈ s.flights.erase m :=
    fun f hf restart => orderly.stays hf (by rw [restart, com]; simp)
  have orderly' := orderly_handled orderly runs port sub (orderly.nodup.erase m)
    (fun f hf other => orderly.mem_erase.mpr ⟨fun same => other (by rw [same]), hf⟩)
    (fun waits => absurd waits (orderly.registered runs hm))
    (fun now f hf own kill => by
      obtain ⟨e, he, ownE, restart, rest⟩ :=
        orderly.effective m.port p runs (killed ▸ now) f (sub f hf) own kill
      exact ⟨e, restarts e he restart, ownE, restart, rest⟩)
    (fun a ha b hb own own' kill kill' later => by
      obtain ⟨e, he, ownE, restart, rest⟩ := orderly.between a (sub a ha) b (sub b hb)
        (own.trans own'.symm) kill kill' later
      exact ⟨e, restarts e he restart, ownE.trans own, restart, rest⟩)
    fun alive => by
      obtain ⟨restart, after⟩ := orderly.restarted m.port p alive runs
      refine ⟨fun now => ?_, fun f hf own kill => ?_⟩
      · obtain ⟨e, he, ownE, rest⟩ := restart (killed ▸ now)
        exact ⟨e, restarts e he rest, ownE, rest⟩
      · obtain ⟨e, he, ownE, restart, rest⟩ := after f (sub f hf) own kill
        exact ⟨e, restarts e he restart, ownE, restart, rest⟩
  refine ⟨recorded_became recorded runs node, orderly',
    fun i => if i = m.port ∧ Promotes m then m.op else since i, ?_⟩
  have holds : ∀ j t, (office { s.became m.port p node with flights := s.flights.erase m }
      fun i => if i = m.port ∧ Promotes m then m.op else since i).holds j t →
      j = m.port ∧ t = m.op ∧ Promotes m ∨ (office s since).holds j t := by
    intro j t now
    rcases @holds_became _ _ _ _ since _ _ _ _ (fun i other => if_neg fun h => other h.1) now with
      ⟨own, at', nowPrimary⟩ | ⟨-, old⟩
    · by_cases promotes : Promotes m
      · rw [if_pos ⟨own, promotes⟩] at at'
        exact .inl ⟨own, at', promotes⟩
      · rw [if_neg fun h => promotes h.2] at at'
        have notNamed : ¬ Roles.Names m.port m.command := fun names => promotes ⟨com, names⟩
        rw [primary, decide_eq_false notNamed, Bool.or_false] at nowPrimary
        exact .inr ⟨at', p, own ▸ runs, nowPrimary⟩
    · exact .inr old
  refine lawful_arrived lawful ⟨rfl, fun j => id, fun j t claim => ?_, ?_, ?_,
    fun j k t v rivals now before dismissal => ?_⟩
  · rcases claim with ⟨f, hf, rest⟩ | now
    · exact .inl ⟨f, sub f hf, rest⟩
    · rcases holds j t now with ⟨rfl, rfl, promotes⟩ | old
      · exact .inl ⟨m, hm, rfl, rfl, promotes⟩
      · exact .inr old
  · rintro j v ⟨f, hf, rest⟩
    exact ⟨f, sub f hf, rest⟩
  · rintro j t v - - ⟨f, hf, own, op, kill⟩
    exact ⟨f, kills f hf kill, own, op, kill⟩
  · rcases holds j t now with ⟨rfl, rfl, promotes⟩ | old
    · obtain ⟨f, hf, rfl, rfl, kill⟩ := dismissal
      by_contra early
      exact first f hf (.inr ⟨promotes, kill, by omega, rivals.1.symm, rivals.2.symm⟩)
    · exact absurd old before

/-- KILL is handled, by a backend that is alive. -/
theorem governed_killed (governed : Governed s) (runs : s.processes.lookup m.port = some p)
    (hm : m ∈ s.flights) (first : ∀ e ∈ s.flights, ¬ Precedes s.lists e m)
    (com : m.command.com = .kill) (role : roleOf node = roleAfter p.node m.command) :
    Governed { s.became m.port p node with flights := s.flights.erase m } := by
  obtain ⟨recorded, orderly, since, lawful⟩ := governed
  have ofPort := orderly.ports m.port p runs
  have sub : ∀ f ∈ s.flights.erase m, f ∈ s.flights := fun f => List.mem_of_mem_erase
  have restarts : ∀ f ∈ s.flights, f.command.com = .restart → f ∈ s.flights.erase m :=
    fun f hf restart => orderly.stays hf (by rw [restart, com]; simp)
  have noRestart : ∀ e ∈ s.flights, e.port = m.port → e.command.com = .restart →
      ¬ e.op < m.op := fun e he own restart early =>
    first e he (.inl ⟨own, early, .inl ⟨com, .inr restart⟩⟩)
  have alive : p.node.killed = false := by
    by_contra killed
    obtain ⟨e, he, own, restart, early⟩ :=
      orderly.effective m.port p runs (by simpa using killed) m hm rfl com
    exact noRestart e he own restart early
  simp only [roleOf, roleAfter, com, alive, Bool.and_false, Prod.mk.injEq, ofPort] at role
  obtain ⟨port, primary, killed⟩ := role
  -- The other kills of the backend come after a restart that is still to come.
  have later : ∀ f ∈ s.flights.erase m, f.port = m.port → f.command.com = .kill →
      ∃ e ∈ s.flights.erase m, e.port = m.port ∧ e.command.com = .restart ∧ e.op < f.op := by
    intro f hf own kill
    obtain ⟨other, hf⟩ := orderly.mem_erase.mp hf
    rcases Nat.lt_trichotomy f.op m.op with early | same | late
    · obtain ⟨e, he, ownE, restart, -, early⟩ :=
        orderly.between f hf m hm own kill com early
      exact absurd early (noRestart e he (ownE.trans own) restart)
    · have commandF := ((orderly.com f hf).resolve_left (by rw [kill]; simp)).resolve_right
        (fun h => by rw [h] at kill; cases kill)
      have commandM := ((orderly.com m hm).resolve_left (by rw [com]; simp)).resolve_right
        (fun h => by rw [h] at com; cases com)
      refine absurd ?_ other
      cases f
      cases m
      simp_all
    · obtain ⟨e, he, ownE, restart, -, early⟩ :=
        orderly.between m hm f hf own.symm com kill late
      exact ⟨e, restarts e he restart, ownE, restart, early⟩
  have orderly' := orderly_handled orderly runs port sub (orderly.nodup.erase m)
    (fun f hf other => orderly.mem_erase.mpr ⟨fun same => other (by rw [same]), hf⟩)
    (fun waits => absurd waits (orderly.registered runs hm)) (fun _ => later)
    (fun a ha b hb own own' kill kill' order => by
      obtain ⟨e, he, ownE, restart, rest⟩ := orderly.between a (sub a ha) b (sub b hb)
        (own.trans own'.symm) kill kill' order
      exact ⟨e, restarts e he restart, ownE.trans own, restart, rest⟩)
    fun listed => by
      obtain ⟨-, after⟩ := orderly.restarted m.port p listed runs
      refine ⟨fun _ => ?_, fun f hf own kill => ?_⟩
      · obtain ⟨e, he, ownE, restart, -⟩ := after m hm rfl com
        exact ⟨e, restarts e he restart, ownE, restart⟩
      · obtain ⟨e, he, ownE, restart, rest⟩ := after f (sub f hf) own kill
        exact ⟨e, restarts e he restart, ownE, restart, rest⟩
  have holds : ∀ j t, (office { s.became m.port p node with flights := s.flights.erase m }
      since).holds j t → j ≠ m.port ∧ (office s since).holds j t := by
    intro j t now
    rcases holds_became (fun _ _ => rfl) now with ⟨-, -, still⟩ | old
    · rw [primary] at still
      cases still
    · exact old
  refine ⟨recorded_became recorded runs node, orderly', since, lawful_arrived lawful
    ⟨rfl, fun j => id, fun j t claim => ?_, ?_, ?_,
      fun j k t v _ now before => absurd (holds j t now).2 before⟩⟩
  · rcases claim with ⟨f, hf, rest⟩ | now
    · exact .inl ⟨f, sub f hf, rest⟩
    · exact .inr (holds j t now).2
  · rintro j v ⟨f, hf, rest⟩
    exact ⟨f, sub f hf, rest⟩
  · rintro j t v claim order ⟨f, hf, own, op, kill⟩
    refine ⟨f, orderly.mem_erase.mpr ⟨?_, hf⟩, own, op, kill⟩
    rintro rfl
    rcases claim with ⟨e, he, ownE, opE, promotes⟩ | now
    · exact first e (sub e he)
        (.inl ⟨ownE.trans own.symm, by omega, .inl ⟨com, .inl promotes⟩⟩)
    · exact (holds j t now).1 own.symm

/-- RESTART is handled. -/
theorem governed_restarted (governed : Governed s) (runs : s.processes.lookup m.port = some p)
    (hm : m ∈ s.flights) (first : ∀ e ∈ s.flights, ¬ Precedes s.lists e m)
    (com : m.command.com = .restart) (role : roleOf node = roleAfter p.node m.command) :
    Governed { s.became m.port p node with flights := s.flights.erase m } := by
  obtain ⟨recorded, orderly, since, lawful⟩ := governed
  have ofPort := orderly.ports m.port p runs
  simp only [roleOf, roleAfter, com, Prod.mk.injEq, ofPort] at role
  obtain ⟨port, primary, killed⟩ := role
  have sub : ∀ f ∈ s.flights.erase m, f ∈ s.flights := fun f => List.mem_of_mem_erase
  have kills : ∀ f ∈ s.flights, f.command.com = .kill → f ∈ s.flights.erase m := fun f hf kill =>
    orderly.stays hf (by rw [kill, com]; simp)
  -- No earlier KILL of the backend is in flight, so none waits for this restart.
  have noKill : ∀ f ∈ s.flights, f.port = m.port → f.command.com = .kill → ¬ f.op < m.op :=
    fun f hf own kill early => first f hf (.inl ⟨own, early, .inr ⟨com, kill⟩⟩)
  have orderly' := orderly_handled orderly runs port sub (orderly.nodup.erase m)
    (fun f hf other => orderly.mem_erase.mpr ⟨fun same => other (by rw [same]), hf⟩)
    (fun waits => absurd waits (orderly.registered runs hm))
    (fun now => by rw [killed] at now; cases now)
    (fun a ha b hb own own' kill kill' later => by
      obtain ⟨e, he, ownE, restart, afterA, beforeB⟩ := orderly.between a (sub a ha) b (sub b hb)
        (own.trans own'.symm) kill kill' later
      refine ⟨e, orderly.mem_erase.mpr ⟨?_, he⟩, ownE.trans own, restart, afterA, beforeB⟩
      rintro rfl
      exact noKill a (sub a ha) own kill afterA)
    fun listed => by
      obtain ⟨-, after⟩ := orderly.restarted m.port p listed runs
      refine ⟨fun now => ?_, fun f hf own kill => ?_⟩
      · rw [killed] at now
        cases now
      · obtain ⟨e, he, ownE, restart, afterF⟩ := after f (sub f hf) own kill
        refine ⟨e, orderly.mem_erase.mpr ⟨?_, he⟩, ownE, restart, afterF⟩
        rintro rfl
        exact noKill f (sub f hf) own kill afterF
  have holds : ∀ j t, (office { s.became m.port p node with flights := s.flights.erase m }
      since).holds j t → (office s since).holds j t := by
    intro j t now
    rcases holds_became (fun _ _ => rfl) now with ⟨own, at', still⟩ | ⟨-, old⟩
    · exact ⟨at', p, own ▸ runs, primary ▸ still⟩
    · exact old
  refine ⟨recorded_became recorded runs node, orderly', since, lawful_arrived lawful
    ⟨rfl, fun j => id, fun j t claim => ?_, ?_, ?_,
      fun j k t v _ now before => absurd (holds j t now) before⟩⟩
  · rcases claim with ⟨f, hf, rest⟩ | now
    · exact .inl ⟨f, sub f hf, rest⟩
    · exact .inr (holds j t now)
  · rintro j v ⟨f, hf, rest⟩
    exact ⟨f, sub f hf, rest⟩
  · rintro j t v - - ⟨f, hf, own, op, kill⟩
    exact ⟨f, kills f hf kill, own, op, kill⟩

theorem governed_delivered (governed : Governed s) (runs : s.processes.lookup m.port = some p)
    (hm : m ∈ s.flights) (first : ∀ e ∈ s.flights, ¬ Precedes s.lists e m)
    (role : roleOf node = roleAfter p.node m.command) :
    Governed { s.became m.port p node with flights := s.flights.erase m } := by
  rcases governed.orderly.com m hm with com | command | command
  · exact governed_cluster governed runs hm first com role
  · exact governed_killed governed runs hm first (by rw [command]) role
  · exact governed_restarted governed runs hm first (by rw [command]) role

end Deliver

end Operations

/-! Runs -/

theorem governed_step {s s' : System} {e : Event} (governed : Governed s)
    (condition : Condition s e) (h : step s e = some s') : Governed s' := by
  cases e with
  | start port fs =>
    simp only [step] at h
    split at h
    · cases h
    · rename_i free
      cases h
      exact governed_start governed (by simpa using free) condition fs
  | register port fd =>
    obtain ⟨p, runs, h⟩ := Option.bind_eq_some_iff.mp h
    split at h
    · cases h
    · rename_i fresh
      cases h
      exact governed_register governed runs (by simpa using (not_or.mp fresh).1) _
  | initialise port env =>
    obtain ⟨p, runs, h⟩ := Option.bind_eq_some_iff.mp h
    split at h
    · cases h
      cases loaded : recover env p.node with
      | none => exact governed_ended governed port
      | some node => exact governed_became governed runs (Roles.role_recover loaded)
    · cases h
  | crash port =>
    simp only [step] at h
    split at h
    · cases h
      exact governed_ended governed port
    · cases h
  | close fd =>
    simp only [step] at h
    split at h
    · rename_i ended
      cases h
      refine governed_close governed (fun i p hp => ?_) _
      exact ended.2 ⟨i, p⟩ (AList.mem_lookup_iff.mp hp)
    · cases h
  | kill addr =>
    cases h
    exact governed_kill governed addr
  | restart addr =>
    cases h
    exact governed_restart governed addr
  | deliver m env =>
    obtain ⟨p, runs, h⟩ := Option.bind_eq_some_iff.mp h
    split at h
    · rename_i hm
      cases h
      cases handled : handleConnect env p.node m.command with
      | none => exact governed_ended governed m.port
      | some turn =>
        exact governed_delivered governed runs hm condition (Roles.role_handleConnect handled)
    · cases h
  | serve port env c =>
    obtain ⟨p, runs, h⟩ := Option.bind_eq_some_iff.mp h
    split at h
    · cases h
    · rename_i other
      cases h
      cases handled : handleConnect env p.node c with
      | none => exact governed_ended governed port
      | some turn =>
        refine governed_became governed runs ((Roles.role_handleConnect handled).trans ?_)
        simp only [not_or] at other
        cases com : c.com <;> simp_all [roleAfter]

theorem mem_insertAddress {addr a : Address} {l : List Address} (h : a ∈ insertAddress addr l) :
    a = addr ∨ a ∈ l := by
  induction l with
  | nil => exact .inl (List.mem_singleton.mp h)
  | cons b l ih =>
    rw [insertAddress] at h
    split at h
    · exact .inr h
    · split at h
      · exact List.mem_cons.mp h
      · rcases List.mem_cons.mp h with rfl | later
        · exact .inr List.mem_cons_self
        · exact (ih later).imp id (List.mem_cons_of_mem b)

/-- The addresses of the configuration are read from its lines. -/
theorem addr_initializeBackend {it : Iteration GroupLoop} {text : Str} {b : Backend}
    (hb : b ∈ (initializeBackend it text).backends) : b.addr = Address.init b.addr.name := by
  have lines : ∀ (l : List Str) (groups : UMap Str (List Address)),
      (∀ k v, groups.lookup k = some v → ∀ a ∈ v, a = Address.init a.name) →
      ∀ k v, (l.foldl addGroupLine groups).lookup k = some v → ∀ a ∈ v, a = Address.init a.name := by
    intro l
    induction l with
    | nil => exact fun groups h => h
    | cons line l ih =>
      intro groups h
      refine ih _ fun k v hv a ha => ?_
      rw [addGroupLine] at hv
      split at hv
      · by_cases same : k = (getLine ',' line).1
        · subst same
          rw [AList.lookup_insert] at hv
          cases hv
          rcases mem_insertAddress ha with rfl | old
          · rw [name_init]
          · cases before : groups.lookup (getLine ',' line).1 with
            | none =>
              rw [at', before] at old
              cases old
            | some w =>
              rw [at', before] at old
              exact h _ w before a old
        · rw [AList.lookup_insert_ne same] at hv
          exact h k v hv a ha
      · exact h k v hv a ha
  simp only [initializeBackend, List.mem_flatMap, List.mem_map] at hb
  obtain ⟨g, hg, addr, haddr, rfl⟩ := hb
  have mem : (g.1.1, g.1.2) ∈ it.pairs .addrGroup ((split text '\n').foldl addGroupLine ∅) :=
    List.fst_mem_of_mem_zipIdx hg
  exact lines _ ∅ (fun k v hv => by cases hv) _ _ ((it.mem_pairs _ _).mp mem) addr haddr

theorem governed_started {it : Iteration GroupLoop} {text : Str}
    (distinct : ((initializeBackend it text).backends.map fun b => b.addr.name).Nodup) :
    Governed (started it text) := by
  have dead : ∀ b ∈ (initializeBackend it text).deadBackends,
      b.state = .crash ∧ b.fd = -1 ∧ b.addr = Address.init b.addr.name := fun b hb =>
    have all : b ∈ (initializeBackend it text).backends := hb
    ⟨(BackendLists.initialised all).1, (BackendLists.initialised all).2, addr_initializeBackend all⟩
  have noProcess : ∀ i p, (started it text).processes.lookup i ≠ some p := by
    intro i p hp
    cases hp
  have noFlight : ∀ m, m ∉ (started it text).flights := fun m => List.not_mem_nil
  refine ⟨⟨distinct, List.Perm.refl _, fun b hb => (dead b hb).2.2,
    fun b hb open' => absurd (dead b hb).2.1 open', fun b hb => absurd hb List.not_mem_nil,
    fun b hb state => ?_, fun i p hp => absurd hp (noProcess i p)⟩,
    ⟨fun i p hp => absurd hp (noProcess i p), fun m hm => absurd hm (noFlight m),
      fun m hm => absurd hm (noFlight m), fun m hm => absurd hm (noFlight m), List.nodup_nil,
      fun i p hp => absurd hp (noProcess i p), fun i p hp => absurd hp (noProcess i p),
      fun m hm => absurd hm (noFlight m), fun i p alive hp => absurd hp (noProcess i p)⟩,
    fun _ => 0, ?_⟩
  · rw [(dead b hb).1] at state
    cases state
  · have claims : ∀ i t, ¬ (office (started it text) fun _ => 0).Claim i t := by
      rintro i t (⟨m, hm, -⟩ | ⟨-, p, hp, -⟩)
      · cases hm
      · cases hp
    have dismissals : ∀ i v, ¬ (office (started it text) fun _ => 0).dismissal i v := by
      rintro i v ⟨m, hm, -⟩
      cases hm
    exact ⟨fun i t claim => absurd claim (claims i t), fun i v sent => absurd sent (dismissals i v),
      fun i t claim => absurd claim (claims i t),
      fun i j t u _ claim => absurd claim (claims i t),
      fun i j t v _ _ sent => absurd sent (dismissals j v)⟩

/-- In every state of a run with this condition, at most one backend of each cluster acts as the
primary. -/
theorem one_acting (it : Iteration GroupLoop) (text : Str)
    (distinct : ((initializeBackend it text).backends.map fun b => b.addr.name).Nodup)
    (events : List Event) (s : System) (h : run step (started it text) events = some s)
    (along : Along step Condition (started it text) events) : OneActing s := by
  have preserved : ∀ t e t', Governed t → Condition t e → step t e = some t' → Governed t' :=
    fun t e t' governed condition stepped => governed_step governed condition stepped
  exact oneActing_of_governed
    (run_invariant_along preserved (governed_started distinct) along h)

/-! Two backends of one cluster -/

def envr : Surroundings := { it := Iteration.stored ChunkFiles.Loop }

/-- A CLUSTER command that lists the backends at the ports. -/
def cluster (op port : Nat) (ports : List Nat) : Flight :=
  ⟨op, port, { com := .cluster, addrs := ports.map fun port => (myAddr port).name }⟩

/-- Both register, the first becomes the primary, and it is killed. -/
def firstKilled : List Event :=
  [.start 7000 ∅, .start 7001 ∅, .register 7000 1, .register 7001 2,
    .deliver (cluster 0 7000 [7000]) envr, .kill (myAddr 7000).name]

/-- The kill is handled in its turn, and before the survivor is told. -/
def succession : List Event :=
  firstKilled ++ [.deliver (cluster 1 7000 [7000, 7001]) envr,
    .deliver ⟨2, 7000, { com := .kill }⟩ envr, .deliver (cluster 2 7001 [7001]) envr]

/-- The survivor takes over, and acts alone. -/
theorem one_acting_succession : ∃ s,
    run step (started (Iteration.stored GroupLoop) PrimaryRouting.twoBackends) succession = some s ∧
      (s.processes.lookup 7001).any (fun p => decide (Acting p)) = true ∧ OneActing s := by
  have outcome : (run step (started (Iteration.stored GroupLoop) PrimaryRouting.twoBackends)
      succession).map (fun s => (s.processes.lookup 7001).any fun p => decide (Acting p)) =
        some true := by decide +kernel
  obtain ⟨s, ran, acts⟩ := Option.map_eq_some_iff.mp outcome
  exact ⟨s, ran, acts, one_acting (Iteration.stored GroupLoop) PrimaryRouting.twoBackends
    (by decide +kernel) succession s ran (by decide +kernel)⟩

/-- The survivor is told before the kill is handled. -/
theorem two_acting : ¬ ∀ (it : Iteration GroupLoop) (text : Str),
    ((initializeBackend it text).backends.map fun b => b.addr.name).Nodup →
      ∀ (events : List Event) (s : System), run step (started it text) events = some s →
        OneActing s := by
  intro claim
  have outcome : (run step (started (Iteration.stored GroupLoop) PrimaryRouting.twoBackends)
      (firstKilled ++ [.deliver (cluster 2 7001 [7001]) envr])).map (fun s =>
        (s.processes.lookup 7000).any (fun p => decide (Acting p)) &&
        (s.processes.lookup 7001).any (fun p => decide (Acting p)) &&
        decide (s.lists.groupOf (myAddr 7000) = s.lists.groupOf (myAddr 7001))) =
          some true := by decide +kernel
  obtain ⟨s, ran, both⟩ := Option.map_eq_some_iff.mp outcome
  simp only [Bool.and_eq_true, decide_eq_true_eq, Option.any_eq_true] at both
  obtain ⟨⟨⟨p, hp, first⟩, q, hq, second⟩, group⟩ := both
  have same := claim _ _ (by decide +kernel) _ s ran 7000 7001 p q hp hq group first second
  omega

end ActingPrimary
