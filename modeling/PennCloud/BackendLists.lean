import PennCloud.Monitor
import PennCloud.Runs

/-!
# The two copies of a backend

A backend is changed in the list of all backends and, separately, in the list
it is found in. A connection that registers while its backend is still listed
as alive changes the first copy only.
-/

namespace BackendLists

open Text UnorderedMap KvInterface FirstMatch Monitor Runs

/-- Every backend is in one of the two lists, as it is in the list of all, and it is in the
list of those that are alive just if its state says so. -/
structure Consistent (m : Lists) : Prop where
  split : (m.aliveBackends ++ m.deadBackends).Perm m.backends
  alive : ∀ b ∈ m.aliveBackends, b.state = .alive
  dead : ∀ b ∈ m.deadBackends, b.state ≠ .alive

instance (m : Lists) : Decidable (Consistent m) :=
  decidable_of_iff ((m.aliveBackends ++ m.deadBackends).Perm m.backends ∧
      (∀ b ∈ m.aliveBackends, b.state = .alive) ∧ ∀ b ∈ m.deadBackends, b.state ≠ .alive)
    ⟨fun ⟨split, alive, dead⟩ => ⟨split, alive, dead⟩,
      fun h => ⟨h.split, h.alive, h.dead⟩⟩

/-- The master with its connections: those that have not registered yet, and those that
have. -/
structure Master where
  lists : Lists
  waiting : List Nat
  registered : List Nat

inductive Event where
  | connect (fd : Nat)
  | register (addr : Address) (fd : Nat)
  | close (fd : Nat)
  | kill (addr : Address)
  | restart (addr : Address)

/-- One event. A connection registers once, while it is open, and is closed once. -/
def step (w : Master) : Event → Option Master
  | .connect fd =>
    if fd ∈ w.waiting ∨ fd ∈ w.registered then none
    else some { w with waiting := fd :: w.waiting }
  | .register addr fd =>
    if fd ∈ w.waiting then
      some ⟨(w.lists.setBackendFd addr fd).1, w.waiting.filter (· ≠ fd), fd :: w.registered⟩
    else none
  | .close fd =>
    if fd ∈ w.waiting ∨ fd ∈ w.registered then
      some ⟨(w.lists.deleteBackendFd fd).1, w.waiting.filter (· ≠ fd),
        w.registered.filter (· ≠ fd)⟩
    else none
  | .kill addr => some { w with lists := (w.lists.killBackend addr).1 }
  | .restart addr => some { w with lists := (w.lists.restartBackend addr).1 }

/-- A backend registers only once it is not listed as alive. -/
def NotListed (w : Master) : Event → Prop
  | .register addr fd => fd ∈ w.waiting → ∀ b ∈ w.lists.aliveBackends, b.addr.name ≠ addr.name
  | _ => True

instance (w : Master) : DecidablePred (NotListed w)
  | .register addr fd => inferInstanceAs
      (Decidable (fd ∈ w.waiting → ∀ b ∈ w.lists.aliveBackends, b.addr.name ≠ addr.name))
  | .connect _ | .close _ | .kill _ | .restart _ => isTrue trivial

/-- The lists after the event are consistent. -/
def StaysConsistent (w : Master) (e : Event) : Prop :=
  ∀ w', step w e = some w' → Consistent w'.lists

/-- Distinct backends, on distinct open connections. -/
structure Tracked (w : Master) : Prop where
  consistent : Consistent w.lists
  distinct : (w.lists.backends.map fun b => b.addr.name).Nodup
  opened : ∀ b ∈ w.lists.backends, b.fd = -1 ∨ ∃ fd ∈ w.registered, b.fd = (fd : Nat)
  fds : ∀ b ∈ w.lists.backends, ∀ c ∈ w.lists.backends, b.fd = c.fd → b.fd ≠ -1 →
    b.addr.name = c.addr.name
  apart : ∀ fd ∈ w.waiting, fd ∉ w.registered

section Lists
variable {m : Lists}

theorem distinct_rest {backends rest : List Backend} {b : Backend}
    (distinct : (backends.map fun b => b.addr.name).Nodup) (split : backends.Perm (b :: rest)) :
    ∀ d ∈ rest, d.addr.name ≠ b.addr.name :=
  unmatched_of_nodup ((split.map _).nodup_iff.mp distinct)

theorem names_kept {l l' : List Backend} (h : l'.map Backend.key = l.map Backend.key) :
    l'.map (fun b => b.addr.name) = l.map fun b => b.addr.name := by
  have names := congrArg (List.map fun k : Address × Nat => k.1.name) h
  simpa only [List.map_map, Function.comp_def, Backend.key] using names

/-- A backend leaves the list of those that are alive. -/
theorem consistent_leaves (h : Consistent m) {p q : Backend → Bool} {f : Backend → Backend}
    {b : Backend} (found : m.aliveBackends.find? p = some b) (matched : q b = true)
    (others : ∀ d ∈ m.aliveBackends.eraseP p ++ m.deadBackends, q d = false)
    (gone : (f b).state ≠ .alive) :
    Consistent { m with
      backends := modifyFirst q f m.backends
      aliveBackends := m.aliveBackends.eraseP p
      deadBackends := m.deadBackends ++ [f b] } := by
  have all : m.backends.Perm (b :: (m.aliveBackends.eraseP p ++ m.deadBackends)) :=
    h.split.symm.trans ((perm_of_find? found).append_right _)
  have changed := perm_modifyFirst f all matched others
  refine ⟨?_, fun d hd => h.alive d (List.mem_of_mem_eraseP hd), fun d hd => ?_⟩
  · rw [← List.append_assoc]
    exact (List.perm_append_singleton _ _).trans changed.symm
  · rcases List.mem_append.mp hd with old | new
    · exact h.dead d old
    · rwa [List.mem_singleton.mp new]

/-- A backend joins the list of those that are alive. -/
theorem consistent_joins (h : Consistent m) {p q : Backend → Bool} {f : Backend → Backend}
    {b : Backend} (found : m.deadBackends.find? p = some b) (matched : q b = true)
    (others : ∀ d ∈ m.aliveBackends ++ m.deadBackends.eraseP p, q d = false)
    (back : (f b).state = .alive) :
    Consistent { m with
      backends := modifyFirst q f m.backends
      aliveBackends := m.aliveBackends ++ [f b]
      deadBackends := m.deadBackends.eraseP p } := by
  have all : m.backends.Perm (b :: (m.aliveBackends ++ m.deadBackends.eraseP p)) := by
    refine h.split.symm.trans (((perm_of_find? found).append_left _).trans ?_)
    exact List.perm_middle
  have changed := perm_modifyFirst f all matched others
  refine ⟨?_, fun d hd => ?_, fun d hd => h.dead d (List.mem_of_mem_eraseP hd)⟩
  · refine List.Perm.trans ?_ changed.symm
    rw [List.append_assoc]
    exact List.perm_middle
  · rcases List.mem_append.mp hd with old | new
    · exact h.alive d old
    · rwa [List.mem_singleton.mp new]

theorem find?_none {l : List Backend} {p : Backend → Bool} (h : l.find? p = none) :
    ∀ b ∈ l, p b = false := by
  intro b hb
  simpa using List.find?_eq_none.mp h b hb

theorem consistent_kill (h : Consistent m) (distinct : (m.backends.map fun b => b.addr.name).Nodup)
    (addr : Address) : Consistent (m.killBackend addr).1 := by
  rw [Lists.killBackend]
  cases found : m.aliveBackends.find? fun b => b.addr.name = addr.name with
  | some b =>
    have name : b.addr.name = addr.name := by simpa using List.find?_some found
    have alive := h.alive b (List.mem_of_find?_eq_some found)
    have all : m.backends.Perm (b :: (m.aliveBackends.eraseP (fun b => b.addr.name = addr.name) ++
        m.deadBackends)) := h.split.symm.trans ((perm_of_find? found).append_right _)
    refine consistent_leaves h found (by simp [name, alive]) (fun d hd => ?_) (by simp)
    have other := distinct_rest distinct all d hd
    rw [name] at other
    simp [other]
  | none =>
    have absent : ∀ b ∈ m.backends, decide (b.addr.name = addr.name ∧ b.state = .alive) = false := by
      intro b hb
      rcases List.mem_append.mp (h.split.mem_iff.mpr hb) with inAlive | inDead
      · have other := find?_none found b inAlive
        simp only [decide_eq_false_iff_not] at other
        simp [other]
      · simp [h.dead b inDead]
    rw [modifyFirst_none absent]
    exact h

theorem consistent_restart (h : Consistent m)
    (distinct : (m.backends.map fun b => b.addr.name).Nodup) (addr : Address) :
    Consistent (m.restartBackend addr).1 := by
  rw [Lists.restartBackend]
  cases found : m.deadBackends.find? fun b => b.addr.name = addr.name ∧ b.state = .dead with
  | some b =>
    have matched : b.addr.name = addr.name ∧ b.state = .dead := by
      simpa using List.find?_some found
    have all : m.backends.Perm (b :: (m.aliveBackends ++
        m.deadBackends.eraseP fun b => b.addr.name = addr.name ∧ b.state = .dead)) :=
      h.split.symm.trans (((perm_of_find? found).append_left _).trans List.perm_middle)
    refine consistent_joins h found (by simp [matched]) (fun d hd => ?_) rfl
    have other := distinct_rest distinct all d hd
    rw [matched.1] at other
    simp [other]
  | none =>
    have absent : ∀ b ∈ m.backends, decide (b.addr.name = addr.name ∧ b.state = .dead) = false := by
      intro b hb
      rcases List.mem_append.mp (h.split.mem_iff.mpr hb) with inAlive | inDead
      · simp [h.alive b inAlive]
      · exact find?_none found b inDead
    rw [modifyFirst_none absent]
    exact h

theorem consistent_set (h : Consistent m) (distinct : (m.backends.map fun b => b.addr.name).Nodup)
    {addr : Address} (notListed : ∀ b ∈ m.aliveBackends, b.addr.name ≠ addr.name) (fd : Int) :
    Consistent (m.setBackendFd addr fd).1 := by
  rw [Lists.setBackendFd]
  cases found : m.deadBackends.find? fun b => b.addr.name = addr.name with
  | some b =>
    have name : b.addr.name = addr.name := by simpa using List.find?_some found
    have all : m.backends.Perm (b :: (m.aliveBackends ++
        m.deadBackends.eraseP fun b => b.addr.name = addr.name)) :=
      h.split.symm.trans (((perm_of_find? found).append_left _).trans List.perm_middle)
    refine consistent_joins h found (by simp [name]) (fun d hd => ?_) rfl
    have other := distinct_rest distinct all d hd
    rw [name] at other
    simp [other]
  | none =>
    have absent : ∀ b ∈ m.backends, decide (b.addr.name = addr.name) = false := by
      intro b hb
      rcases List.mem_append.mp (h.split.mem_iff.mpr hb) with inAlive | inDead
      · simp [notListed b inAlive]
      · exact find?_none found b inDead
    rw [modifyFirst_none absent]
    exact h

theorem consistent_delete (h : Consistent m)
    (distinct : (m.backends.map fun b => b.addr.name).Nodup) {fd : Int}
    (unique : ∀ b ∈ m.backends, ∀ c ∈ m.backends, b.fd = fd → c.fd = fd →
      b.addr.name = c.addr.name) : Consistent (m.deleteBackendFd fd).1 := by
  have others : ∀ {b : Backend} {rest : List Backend}, m.backends.Perm (b :: rest) → b.fd = fd →
      ∀ d ∈ rest, decide (d.fd = fd) = false := by
    intro b rest all own d hd
    by_contra same
    simp only [Bool.not_eq_false, decide_eq_true_eq] at same
    exact distinct_rest distinct all d hd
      (unique d (all.mem_iff.mpr (List.mem_cons_of_mem b hd)) b
        (all.mem_iff.mpr List.mem_cons_self) same own)
  rw [Lists.deleteBackendFd]
  cases found : m.aliveBackends.find? fun b => b.fd = fd with
  | some b =>
    have own : b.fd = fd := by simpa using List.find?_some found
    have all : m.backends.Perm (b :: (m.aliveBackends.eraseP (fun b => b.fd = fd) ++
        m.deadBackends)) := h.split.symm.trans ((perm_of_find? found).append_right _)
    exact consistent_leaves h found (by simp [own]) (others all own)
      (f := fun b => { b with fd := -1, state := .crash }) (by simp)
  | none =>
    have notAlive := find?_none found
    cases found' : m.deadBackends.find? fun b => b.fd = fd with
    | some b =>
      have own : b.fd = fd := by simpa using List.find?_some found'
      have deadSplit := perm_of_find? found'
      have all : m.backends.Perm (b :: (m.aliveBackends ++
          m.deadBackends.eraseP fun b => b.fd = fd)) :=
        h.split.symm.trans ((deadSplit.append_left _).trans List.perm_middle)
      have rest := others all own
      have backends := perm_modifyFirst (fun b => { b with fd := -1, state := .crash }) all
        (by simp [own]) rest
      have dead := perm_modifyFirst (fun b => { b with fd := -1, state := .crash }) deadSplit
        (by simp [own]) fun d hd => rest d (List.mem_append_right _ hd)
      refine ⟨?_, h.alive, fun d hd => ?_⟩
      · exact ((dead.append_left _).trans List.perm_middle).trans backends.symm
      · rcases mem_modifyFirst hd with old | ⟨c, -, -, rfl⟩
        · exact h.dead d old
        · simp
    | none =>
      have notDead := find?_none found'
      have absent : ∀ b ∈ m.backends, decide (b.fd = fd) = false := by
        intro b hb
        rcases List.mem_append.mp (h.split.mem_iff.mpr hb) with inAlive | inDead
        · exact notAlive b inAlive
        · exact notDead b inDead
      simp only [modifyFirst_none absent, modifyFirst_none notDead]
      exact h

/-- A registration of a listed backend on a new connection leaves two different copies. -/
theorem not_consistent_set (h : Consistent m) {addr : Address} {b : Backend}
    (listed : b ∈ m.aliveBackends) (name : b.addr.name = addr.name)
    (distinct : (m.backends.map fun b => b.addr.name).Nodup) {fd : Int}
    (fresh : ∀ b ∈ m.backends, b.fd ≠ fd) : ¬ Consistent (m.setBackendFd addr fd).1 := by
  intro after
  have notDead : m.deadBackends.find? (fun b => b.addr.name = addr.name) = none := by
    refine List.find?_eq_none.mpr fun c hc same => ?_
    have names := (h.split.map fun b => b.addr.name).nodup_iff.mpr distinct
    rw [List.map_append, List.nodup_append] at names
    exact names.2.2 _ (List.mem_map_of_mem listed) _ (List.mem_map_of_mem hc)
      (name.trans (of_decide_eq_true same).symm)
  obtain ⟨rest, split⟩ : ∃ rest, m.backends.Perm (b :: rest) :=
    ⟨_, List.perm_cons_erase (h.split.mem_iff.mp (List.mem_append_left _ listed))⟩
  have others : ∀ d ∈ rest, decide (d.addr.name = addr.name) = false := by
    intro d hd
    have other := distinct_rest distinct split d hd
    rw [name] at other
    simp [other]
  have changed := perm_modifyFirst (fun b => { b with fd := fd, state := .alive }) split
    (by simp [name]) others
  have copies := after.split
  rw [Lists.setBackendFd, notDead] at copies
  have mem := (copies.trans changed).mem_iff.mpr List.mem_cons_self
  exact fresh _ (h.split.mem_iff.mp mem) rfl

end Lists

section Steps
variable {w w' : Master} {e : Event}

/-- Backends that come from earlier ones, with a connection that is open or none. -/
theorem fds_of_sources {l : List Backend} (l' : List Backend) (registered : List Nat)
    (fds : ∀ b ∈ l, ∀ c ∈ l, b.fd = c.fd → b.fd ≠ -1 → b.addr.name = c.addr.name)
    (source : ∀ b ∈ l', b.fd = -1 ∨
      (∃ fd ∈ registered, b.fd = (fd : Nat)) ∧ ∃ a ∈ l, a.addr.name = b.addr.name ∧ a.fd = b.fd) :
    (∀ b ∈ l', b.fd = -1 ∨ ∃ fd ∈ registered, b.fd = (fd : Nat)) ∧
      ∀ b ∈ l', ∀ c ∈ l', b.fd = c.fd → b.fd ≠ -1 → b.addr.name = c.addr.name := by
  refine ⟨fun b hb => (source b hb).imp id And.left, fun b hb c hc same some => ?_⟩
  obtain ⟨-, a, ha, nameA, fdA⟩ := (source b hb).resolve_left some
  obtain ⟨-, d, hd, nameD, fdD⟩ := (source c hc).resolve_left (by rwa [← same])
  rw [← nameA, ← nameD]
  exact fds a ha d hd (by rw [fdA, fdD, same]) (by rwa [fdA])

theorem tracked_lists (tracked : Tracked w) {m : Lists} (consistent : Consistent m)
    (kept : m.backends.map Backend.key = w.lists.backends.map Backend.key)
    (source : ∀ b ∈ m.backends, ∃ a ∈ w.lists.backends, a.addr.name = b.addr.name ∧ a.fd = b.fd) :
    Tracked { w with lists := m } := by
  have both := fds_of_sources m.backends w.registered tracked.fds
    fun b hb => by
      obtain ⟨a, ha, name, fd⟩ := source b hb
      rcases tracked.opened a ha with none | opened
      · exact .inl (fd ▸ none)
      · exact .inr ⟨fd ▸ opened, a, ha, name, fd⟩
  refine ⟨consistent, ?_, both.1, both.2, tracked.apart⟩
  rw [names_kept kept]
  exact tracked.distinct

theorem tracked_kill (tracked : Tracked w) (addr : Address) :
    Tracked { w with lists := (w.lists.killBackend addr).1 } := by
  refine tracked_lists tracked (consistent_kill tracked.consistent tracked.distinct addr)
    (moved_killBackend _ addr).keys fun b hb => ?_
  · have mem : b ∈ modifyFirst (fun b => b.addr.name = addr.name ∧ b.state = .alive)
        (fun b => { b with state := .dead }) w.lists.backends := by
      rw [Lists.killBackend] at hb
      split at hb <;> exact hb
    rcases mem_modifyFirst mem with old | ⟨a, ha, -, rfl⟩
    · exact ⟨b, old, rfl, rfl⟩
    · exact ⟨a, ha, rfl, rfl⟩

theorem tracked_restart (tracked : Tracked w) (addr : Address) :
    Tracked { w with lists := (w.lists.restartBackend addr).1 } := by
  refine tracked_lists tracked (consistent_restart tracked.consistent tracked.distinct addr)
    (moved_restartBackend _ addr).keys fun b hb => ?_
  · have mem : b ∈ modifyFirst (fun b => b.addr.name = addr.name ∧ b.state = .dead)
        (fun b => { b with state := .alive }) w.lists.backends := by
      rw [Lists.restartBackend] at hb
      split at hb <;> exact hb
    rcases mem_modifyFirst mem with old | ⟨a, ha, -, rfl⟩
    · exact ⟨b, old, rfl, rfl⟩
    · exact ⟨a, ha, rfl, rfl⟩

theorem fresh_waiting (tracked : Tracked w) {fd : Nat} (waits : fd ∈ w.waiting) :
    ∀ b ∈ w.lists.backends, b.fd ≠ fd := by
  intro b hb same
  rcases tracked.opened b hb with none | ⟨g, hg, opened⟩
  · omega
  · obtain rfl : g = fd := by omega
    exact tracked.apart g waits hg

theorem tracked_register (tracked : Tracked w) {addr : Address} {fd : Nat}
    (waits : fd ∈ w.waiting)
    (notListed : ∀ b ∈ w.lists.aliveBackends, b.addr.name ≠ addr.name) :
    Tracked ⟨(w.lists.setBackendFd addr fd).1, w.waiting.filter (· ≠ fd), fd :: w.registered⟩ := by
  have fresh := fresh_waiting tracked waits
  have mem : (w.lists.setBackendFd addr fd).1.backends = modifyFirst
      (fun b => b.addr.name = addr.name) (fun b => { b with fd := fd, state := .alive })
      w.lists.backends := by
    rw [Lists.setBackendFd]
    split <;> rfl
  have source : ∀ b ∈ (w.lists.setBackendFd addr fd).1.backends, b ∈ w.lists.backends ∨
      b.addr.name = addr.name ∧ b.fd = fd := by
    intro b hb
    rw [mem] at hb
    rcases mem_modifyFirst hb with old | ⟨a, -, matched, rfl⟩
    · exact .inl old
    · exact .inr ⟨by simpa using matched, rfl⟩
  refine ⟨consistent_set tracked.consistent tracked.distinct notListed fd, ?_, fun b hb => ?_,
    fun b hb c hc same some => ?_, fun g hg => ?_⟩
  · rw [names_kept (moved_setBackendFd _ addr fd).keys]
    exact tracked.distinct
  · rcases source b hb with old | ⟨-, new⟩
    · refine (tracked.opened b old).imp id ?_
      rintro ⟨g, hg, opened⟩
      exact ⟨g, List.mem_cons_of_mem fd hg, opened⟩
    · exact .inr ⟨fd, List.mem_cons_self, new⟩
  · rcases source b hb with oldB | ⟨nameB, newB⟩
    · rcases source c hc with oldC | ⟨-, newC⟩
      · exact tracked.fds b oldB c oldC same some
      · exact absurd (same.trans newC) (fresh b oldB)
    · rcases source c hc with oldC | ⟨nameC, -⟩
      · exact absurd (same.symm.trans newB) (fresh c oldC)
      · rw [nameB, nameC]
  · simp only [List.mem_filter, decide_eq_true_eq] at hg
    rw [List.mem_cons, not_or]
    exact ⟨hg.2, tracked.apart g hg.1⟩

theorem tracked_close (tracked : Tracked w) (fd : Nat) :
    Tracked ⟨(w.lists.deleteBackendFd fd).1, w.waiting.filter (· ≠ fd),
      w.registered.filter (· ≠ fd)⟩ := by
  have unique : ∀ b ∈ w.lists.backends, ∀ c ∈ w.lists.backends, b.fd = (fd : Int) →
      c.fd = (fd : Int) → b.addr.name = c.addr.name :=
    fun b hb c hc ownB ownC => tracked.fds b hb c hc (ownB.trans ownC.symm) (by omega)
  have mem : (w.lists.deleteBackendFd fd).1.backends = modifyFirst (fun b => b.fd = (fd : Int))
      (fun b => { b with fd := -1, state := .crash }) w.lists.backends := by
    rw [Lists.deleteBackendFd]
    split <;> rfl
  have source : ∀ b ∈ (w.lists.deleteBackendFd fd).1.backends, b.fd = -1 ∨
      b ∈ w.lists.backends ∧ b.fd ≠ fd := by
    intro b hb
    rw [mem] at hb
    cases found : w.lists.backends.find? fun b => b.fd = (fd : Int) with
    | none =>
      have absent := find?_none found
      rw [modifyFirst_none absent] at hb
      exact .inr ⟨hb, by simpa using absent b hb⟩
    | some a =>
      have own : a.fd = fd := by simpa using List.find?_some found
      have split := perm_of_find? found
      have others : ∀ d ∈ w.lists.backends.eraseP (fun b => b.fd = (fd : Int)),
          decide (d.fd = (fd : Int)) = false := by
        intro d hd
        by_contra same
        simp only [Bool.not_eq_false, decide_eq_true_eq] at same
        exact distinct_rest tracked.distinct split d hd
          (unique d (List.mem_of_mem_eraseP hd) a (List.mem_of_find?_eq_some found) same own)
      rcases List.mem_cons.mp ((perm_modifyFirst _ split (by simp [own]) others).mem_iff.mp hb) with
        rfl | rest
      · exact .inl rfl
      · exact .inr ⟨List.mem_of_mem_eraseP rest, by simpa using others b rest⟩
  have both := fds_of_sources (w.lists.deleteBackendFd fd).1.backends
    (w.registered.filter (· ≠ fd)) tracked.fds fun b hb => by
      rcases source b hb with none | ⟨old, other⟩
      · exact .inl none
      · refine (tracked.opened b old).imp id ?_
        rintro ⟨g, hg, opened⟩
        refine ⟨⟨g, List.mem_filter.mpr ⟨hg, ?_⟩, opened⟩, b, old, rfl, rfl⟩
        rw [decide_eq_true_eq]
        rintro rfl
        exact other opened
  refine ⟨consistent_delete tracked.consistent tracked.distinct unique, ?_, both.1, both.2,
    fun g hg => ?_⟩
  · rw [names_kept (moved_deleteBackendFd _ fd).keys]
    exact tracked.distinct
  · simp only [List.mem_filter, decide_eq_true_eq] at hg ⊢
    exact fun h => tracked.apart g hg.1 h.1

theorem tracked_step (tracked : Tracked w) (notListed : NotListed w e)
    (h : step w e = some w') : Tracked w' := by
  cases e with
  | connect fd =>
    rw [step] at h
    split at h
    · cases h
    · rename_i fresh
      cases h
      refine ⟨tracked.consistent, tracked.distinct, tracked.opened, tracked.fds, fun g hg => ?_⟩
      rcases List.mem_cons.mp hg with rfl | old
      · exact fun opened => fresh (.inr opened)
      · exact tracked.apart g old
  | register addr fd =>
    rw [step] at h
    split at h
    · rename_i waits
      cases h
      exact tracked_register tracked waits (notListed waits)
    · cases h
  | close fd =>
    rw [step] at h
    split at h
    · cases h
      exact tracked_close tracked fd
    · cases h
  | kill addr =>
    cases h
    exact tracked_kill tracked addr
  | restart addr =>
    cases h
    exact tracked_restart tracked addr

theorem staysConsistent_iff (tracked : Tracked w) : StaysConsistent w e ↔ NotListed w e := by
  constructor
  · intro stays
    cases e with
    | register addr fd =>
      intro waits b listed name
      exact not_consistent_set tracked.consistent listed name tracked.distinct
        (fresh_waiting tracked waits) (stays _ (by rw [step, if_pos waits]))
    | connect fd => trivial
    | close fd => trivial
    | kill addr => trivial
    | restart addr => trivial
  · intro notListed w' h
    exact (tracked_step tracked notListed h).consistent

end Steps

/-- The master that has read its configuration. -/
def started (it : Iteration GroupLoop) (text : Str) : Master :=
  ⟨initializeBackend it text, [], []⟩

theorem initialised {it : Iteration GroupLoop} {text : Str} {b : Backend}
    (hb : b ∈ (initializeBackend it text).backends) : b.state = .crash ∧ b.fd = -1 := by
  simp only [initializeBackend, List.mem_flatMap, List.mem_map] at hb
  obtain ⟨-, -, addr, -, rfl⟩ := hb
  exact ⟨rfl, rfl⟩

theorem tracked_started {it : Iteration GroupLoop} {text : Str}
    (distinct : ((initializeBackend it text).backends.map fun b => b.addr.name).Nodup) :
    Tracked (started it text) := by
  refine ⟨⟨List.Perm.refl _, fun b hb => ?_, fun b hb => ?_⟩, distinct,
    fun b hb => .inl (initialised hb).2, fun b hb _ _ _ some => absurd (initialised hb).2 some,
    fun fd waits => ?_⟩
  · cases hb
  · rw [(initialised hb).1]
    intro h
    cases h
  · cases waits

/-- The lists are consistent after every event of a run just if no backend registers while it
is still listed as alive. -/
theorem consistent_iff (it : Iteration GroupLoop) (text : Str)
    (distinct : ((initializeBackend it text).backends.map fun b => b.addr.name).Nodup)
    (events : List Event) :
    Along step StaysConsistent (started it text) events ↔
      Along step NotListed (started it text) events :=
  along_congr_of_invariant (P := Tracked) (fun _ _ tracked => staysConsistent_iff tracked)
    (fun _ _ _ tracked notListed h => tracked_step tracked notListed h) (tracked_started distinct)

/-- A configuration of one backend. -/
def oneBackend : Str := "1,127.0.0.1:7000".toList

/-- It registers, its connection is closed, and it registers again. -/
def twice : List Event :=
  [.connect 1, .register (Address.init "127.0.0.1:7000".toList) 1, .close 1, .connect 2,
    .register (Address.init "127.0.0.1:7000".toList) 2]

theorem consistent_twice :
    Along step StaysConsistent (started (Iteration.stored GroupLoop) oneBackend) twice :=
  (consistent_iff (Iteration.stored GroupLoop) oneBackend (by decide +kernel) twice).mpr
    (by decide +kernel)

/-- A second registration before the first connection is seen closed. -/
def overlapping : List Event :=
  [.connect 1, .connect 2, .register (Address.init "127.0.0.1:7000".toList) 1,
    .register (Address.init "127.0.0.1:7000".toList) 2, .close 1]

theorem inconsistent_overlapping :
    ∃ w, run step (started (Iteration.stored GroupLoop) oneBackend) overlapping = some w ∧
      ¬ Consistent w.lists ∧ w.lists.aliveBackends = [] ∧
        w.lists.backends = [⟨.alive, 2, 0, Address.init "127.0.0.1:7000".toList⟩] := by
  decide +kernel

end BackendLists
