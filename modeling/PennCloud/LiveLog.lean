import PennCloud.CacheSteps

/-!
# A live node and its log

Runs of reads and writes on one cache, each write with the next sequence
number. The log of such a run restores the node exactly when no Cputs of it
was turned away: a rejected Cputs takes a number that no record has.
-/

namespace LiveLog

open Text FileTree KvInterface UnorderedMap KvCache KvStore LogReplay CacheSteps Runs

inductive Call where
  | puts (user key value : Str)
  | cputs (user key prevValue newValue : Str)
  | dele (user key : Str)
  | gets (user key : Str)

def Call.pair : Call → Str × Str
  | .puts user key _ => (user, key)
  | .cputs user key _ _ => (user, key)
  | .dele user key => (user, key)
  | .gets user key => (user, key)

/-- A call, a write with `++max_sequence`. -/
def call (n : Node) : Call → Option Node
  | .puts user key value =>
    let m := Node.nextSequence n
    some (m.puts user key value m.maxSequence).2
  | .cputs user key prevValue newValue =>
    let m := Node.nextSequence n
    (m.cputs user key prevValue newValue m.maxSequence).map Prod.snd
  | .dele user key =>
    let m := Node.nextSequence n
    some (m.dele user key m.maxSequence).2
  | .gets user key => (n.gets user key).map fun r => r.2.2

/-- The record of the call as a write that is accepted. -/
def Call.record (seqNum : Nat) : Call → Option Record
  | .puts user key value => some ⟨seqNum, user, key, some value⟩
  | .cputs user key _ newValue => some ⟨seqNum, user, key, some newValue⟩
  | .dele user key => some ⟨seqNum, user, key, none⟩
  | .gets _ _ => none

/-- The records of a run after `sequenceId` all of whose writes are accepted. -/
def records : Nat → List Call → List Record
  | _, [] => []
  | sequenceId, c :: calls =>
    match c.record (sequenceId + 1) with
    | some r => r :: records (sequenceId + 1) calls
    | none => records sequenceId calls

/-- A Cputs is accepted when a read gives the value it was given. -/
def Accepted (n : Node) : Call → Prop
  | .cputs user key prevValue _ => ∃ m, n.gets user key = some (.finished, prevValue, m)
  | _ => True

/-- A Gets that finds nothing in the read cache. -/
def ReadsPast (n : Node) : Call → Prop
  | .gets user key => find2 n.cache.readCache user key = none
  | _ => False

/-- Two maps of maps with the same keys and values. -/
def SameMaps (a b : UserMap) : Prop :=
  (∀ user key, find2 a user key = find2 b user key) ∧
    ∀ user, a.lookup user = none ↔ b.lookup user = none

/-- Replaying the log of the node gives its sequence number and its updates again. -/
def Restored (n : Node) : Prop :=
  ∃ m, n.replayLoggings = some (.finished, m) ∧
    m.cache.sequenceId = n.cache.sequenceId ∧
    SameMaps m.cache.updatesCache n.cache.updatesCache

/-- What the run must be like for its log to restore the node. -/
structure Replayable (n : Node) (calls : List Call) : Prop where
  /-- Every Cputs finds the value it was given. -/
  accepted : Along call Accepted n calls
  /-- The numbers of the log fit in an `int`. -/
  header : n.cache.sequenceId ≤ INT_MAX
  fits : Fits (checkpointHeader n.cache.sequenceId).length (records n.cache.sequenceId calls)
  /-- What the updates held before the run is written again. -/
  pairs : ∀ user key, find2 n.cache.updatesCache user key ≠ none →
    ∃ r ∈ records n.cache.sequenceId calls, r.user = user ∧ r.key = key
  /-- Only users that are written have an entry in the updates. -/
  users : ∀ user, (∀ r ∈ records n.cache.sequenceId calls, r.user ≠ user) →
    n.cache.updatesCache.lookup user = none ∧
      Along call (fun m c => ReadsPast m c → c.pair.1 ≠ user) n calls

/-! One call -/

theorem call_gets {n t : Node} {user key : Str} (h : call n (.gets user key) = some t) :
    ReadOf n t user key := by
  obtain ⟨r, hr, rfl⟩ := Option.map_eq_some_iff.mp h
  exact readOf_gets hr

/-- A write is accepted and logged, or it is a Cputs that is not accepted and takes a
number. -/
theorem call_write {n t : Node} {c : Call} {r : Record} (inStep : InStep n)
    (opens : LogOpens n) (hr : c.record (n.cache.sequenceId + 1) = some r)
    (h : call n c = some t) :
    ∃ m, Alike n m r.user ∧
      (Accepted n c ∧ t = wrote m r ∨ ¬ Accepted n c ∧ t = bumped m) := by
  cases c with
  | puts user key value =>
    cases hr
    refine ⟨n, .refl n _, .inl ⟨trivial, ?_⟩⟩
    exact (Option.some.inj h).symm.trans (congrArg Prod.snd (puts_next inStep opens _ _ _))
  | dele user key =>
    cases hr
    refine ⟨n, .refl n _, .inl ⟨trivial, ?_⟩⟩
    exact (Option.some.inj h).symm.trans (congrArg Prod.snd (dele_next inStep opens _ _))
  | gets user key => cases hr
  | cputs user key prevValue newValue =>
    cases hr
    have h := (congrArg (Option.map Prod.snd)
      (cputs_next inStep opens user key prevValue newValue)).symm.trans h
    rw [Option.map_map] at h
    obtain ⟨⟨status, value, m⟩, hg, rfl⟩ := Option.map_eq_some_iff.mp h
    refine ⟨m, (readOf_gets hg).alike, ?_⟩
    by_cases accepted : status = .finished ∧ value = prevValue
    · obtain ⟨rfl, rfl⟩ := accepted
      exact .inl ⟨⟨m, hg⟩, by simp⟩
    · refine .inr ⟨?_, ?_⟩
      · rintro ⟨m', hm⟩
        cases hg.symm.trans hm
        exact accepted ⟨rfl, rfl⟩
      · by_cases finished : status = .finished
        · have other : value ≠ prevValue := fun same => accepted ⟨finished, same⟩
          simp [finished, other]
        · simp [finished]

theorem record_named {c : Call} {seqNum : Nat} {r : Record} (hr : c.record seqNum = some r)
    (names : LogName c.pair.1 ∧ LogName c.pair.2) : r.Named := by
  cases c <;> cases hr <;> exact ⟨names.1, names.2⟩

theorem records_of_read {c : Call} {sequenceId : Nat} (calls : List Call)
    (hr : c.record (sequenceId + 1) = none) :
    records sequenceId (c :: calls) = records sequenceId calls := by
  simp only [records, hr]

theorem records_of_write {c : Call} {sequenceId : Nat} {r : Record} (calls : List Call)
    (hr : c.record (sequenceId + 1) = some r) :
    records sequenceId (c :: calls) = r :: records (sequenceId + 1) calls := by
  simp only [records, hr]

theorem record_seqNum {c : Call} {seqNum : Nat} {r : Record} (hr : c.record seqNum = some r) :
    r.seqNum = seqNum := by
  cases c <;> cases hr <;> rfl

theorem record_none {c : Call} {seqNum : Nat} (hr : c.record seqNum = none) :
    ∃ user key, c = .gets user key := by
  cases c with
  | gets user key => exact ⟨user, key, rfl⟩
  | puts user key value => cases hr
  | cputs user key prevValue newValue => cases hr
  | dele user key => cases hr

/-! Runs -/

/-- What a run leaves in the log: all its writes when each was accepted, and fewer records
than numbers taken otherwise. -/
theorem run_logged {n t : Node} {calls : List Call} {sequenceId : Nat} {before : List Record}
    (inStep : InStep n) (opens : LogOpens n) (log : HasLog n sequenceId before)
    (names : ∀ c ∈ calls, LogName c.pair.1 ∧ LogName c.pair.2)
    (h : run call n calls = some t) :
    ∃ logged, HasLog t sequenceId (before ++ logged) ∧ (∀ r ∈ logged, r.Named) ∧
      t.cache.sequenceId = n.cache.sequenceId + (records n.cache.sequenceId calls).length ∧
      (Along call Accepted n calls ∧ logged = records n.cache.sequenceId calls ∨
        ¬ Along call Accepted n calls ∧
          logged.length < (records n.cache.sequenceId calls).length) := by
  induction calls generalizing n before with
  | nil =>
    cases h
    exact ⟨[], by simpa using log, by simp, rfl, .inl ⟨trivial, rfl⟩⟩
  | cons c calls ih =>
    obtain ⟨s, hs, hst⟩ := run_cons_eq_some.mp h
    have first := names c List.mem_cons_self
    have others := fun d hd => names d (List.mem_cons_of_mem c hd)
    rw [along_cons hs]
    cases hr : c.record (n.cache.sequenceId + 1) with
    | none =>
      obtain ⟨user, key, rfl⟩ := record_none hr
      have same := (call_gets hs).alike
      obtain ⟨logged, hl, named, count, outcome⟩ :=
        ih (same.inStep inStep) (same.opens opens) (same.log log) others hst
      rw [same.sequenceId] at count outcome
      rw [records_of_read calls hr]
      refine ⟨logged, hl, named, count, outcome.imp ?_ ?_⟩
      · exact fun o => ⟨⟨trivial, o.1⟩, o.2⟩
      · exact fun o => ⟨fun along => o.1 along.2, o.2⟩
    | some r =>
      obtain ⟨m, same, accepted | rejected⟩ := call_write inStep opens hr hs
      · obtain ⟨accepts, rfl⟩ := accepted
        obtain ⟨logged, hl, named, count, outcome⟩ :=
          ih (inStep_wrote m r) (logOpens_wrote (same.opens opens) r)
            (hasLog_wrote (same.opens opens) (same.log log) r) others hst
        have next : (wrote m r).cache.sequenceId = n.cache.sequenceId + 1 := record_seqNum hr
        rw [next] at count outcome
        rw [records_of_write calls hr, List.length_cons]
        refine ⟨r :: logged, by simpa using hl, ?_, by omega, outcome.imp ?_ ?_⟩
        · exact List.forall_mem_cons.mpr ⟨record_named hr first, named⟩
        · exact fun o => ⟨⟨accepts, o.1⟩, by rw [o.2]⟩
        · exact fun o => ⟨fun along => o.1 along.2, by simpa using o.2⟩
      · obtain ⟨rejects, rfl⟩ := rejected
        obtain ⟨logged, hl, named, count, outcome⟩ :=
          ih (inStep_bumped m) (same.opens opens) (same.log log) others hst
        have next : (bumped m).cache.sequenceId = n.cache.sequenceId + 1 :=
          congrArg (· + 1) same.sequenceId
        rw [next] at count outcome
        rw [records_of_write calls hr, List.length_cons]
        refine ⟨logged, hl, named, by omega, .inr ⟨fun along => rejects along.1, ?_⟩⟩
        rcases outcome with ⟨-, rfl⟩ | ⟨-, fewer⟩
        · omega
        · omega

/-- The updates after a run whose writes were all accepted. -/
theorem run_updates {n t : Node} {calls : List Call} (inStep : InStep n) (opens : LogOpens n)
    (accepted : Along call Accepted n calls) (h : run call n calls = some t) :
    (∀ user key, find2 t.cache.updatesCache user key =
      (lastWrite (records n.cache.sequenceId calls) user key).or
        (find2 n.cache.updatesCache user key)) ∧
    ∀ user, (∀ r ∈ records n.cache.sequenceId calls, r.user ≠ user) →
      (t.cache.updatesCache.lookup user = none ↔ n.cache.updatesCache.lookup user = none ∧
        Along call (fun m c => ReadsPast m c → c.pair.1 ≠ user) n calls) := by
  induction calls generalizing n with
  | nil =>
    cases h
    exact ⟨fun _ _ => rfl, fun _ _ => (and_iff_left trivial).symm⟩
  | cons c calls ih =>
    obtain ⟨s, hs, hst⟩ := run_cons_eq_some.mp h
    obtain ⟨accepts, later⟩ := (along_cons hs).mp accepted
    simp only [along_cons hs]
    cases hr : c.record (n.cache.sequenceId + 1) with
    | none =>
      obtain ⟨user', key', rfl⟩ := record_none hr
      have read := call_gets hs
      obtain ⟨values, entries⟩ :=
        ih (read.alike.inStep inStep) (read.alike.opens opens) later hst
      rw [read.alike.sequenceId] at values entries
      rw [records_of_read calls hr]
      refine ⟨fun user key => by rw [values, read.updates], fun user unwritten => ?_⟩
      have entry : s.cache.updatesCache.lookup user = none ↔
          n.cache.updatesCache.lookup user = none ∧
            (ReadsPast n (.gets user' key') → user' ≠ user) := by
        rw [read.users]
        exact and_congr_right fun _ => ⟨fun no past same => no ⟨same.symm, past⟩,
          fun no past => no past.2 past.1.symm⟩
      rw [entries user unwritten, entry, and_assoc]
      exact .rfl
    | some r =>
      obtain ⟨m, same, accepted | rejected⟩ := call_write inStep opens hr hs
      swap
      · exact absurd accepts rejected.1
      obtain ⟨-, rfl⟩ := accepted
      obtain ⟨values, entries⟩ :=
        ih (inStep_wrote m r) (logOpens_wrote (same.opens opens) r) later hst
      have next : (wrote m r).cache.sequenceId = n.cache.sequenceId + 1 := record_seqNum hr
      rw [next] at values entries
      rw [records_of_write calls hr]
      have wrotePair : ∀ user key, find2 (wrote m r).cache.updatesCache user key =
          if r.user = user ∧ r.key = key then some r.written
          else find2 n.cache.updatesCache user key := by
        intro user key
        rw [← same.updates]
        exact find2_applyRecord m.cache r user key
      refine ⟨fun user key => ?_, fun user unwritten => ?_⟩
      · rw [values, wrotePair, lastWrite_cons, Option.or_assoc]
        split <;> rfl
      · obtain ⟨other, unwritten⟩ := List.forall_mem_cons.mp unwritten
        have entry : (wrote m r).cache.updatesCache.lookup user = none ↔
            n.cache.updatesCache.lookup user = none := by
          rw [← same.users user other.symm]
          exact (lookup_applyRecord m.cache r user).trans (and_iff_left other)
        have noRead : ReadsPast n c → c.pair.1 ≠ user := by
          cases c with
          | gets user key => cases hr
          | puts | cputs | dele => exact fun past => past.elim
        rw [entries user unwritten, entry]
        exact and_congr_right fun _ => (and_iff_right noRead).symm

theorem numbered_records (sequenceId : Nat) (calls : List Call) :
    Numbered sequenceId (records sequenceId calls) := by
  induction calls generalizing sequenceId with
  | nil => trivial
  | cons c calls ih =>
    cases hr : c.record (sequenceId + 1) with
    | none => rw [records_of_read calls hr]; exact ih sequenceId
    | some r =>
      rw [records_of_write calls hr]
      have next := record_seqNum hr
      exact ⟨next, next.symm ▸ ih (sequenceId + 1)⟩

/-- A live node whose log holds only the checkpoint header. -/
structure Fresh (n : Node) : Prop where
  inStep : InStep n
  opens : LogOpens n
  log : HasLog n n.cache.sequenceId []

theorem replayable_of_restored {n t : Node} {calls : List Call} (fresh : Fresh n)
    (names : ∀ c ∈ calls, LogName c.pair.1 ∧ LogName c.pair.2)
    (h : run call n calls = some t) (restored : Restored t) : Replayable n calls := by
  obtain ⟨logged, log, named, count, outcome⟩ :=
    run_logged fresh.inStep fresh.opens fresh.log names h
  rw [List.nil_append] at log
  obtain ⟨m, hm, sameSequence, sameValues, sameEntries⟩ := restored
  obtain ⟨header, numbered, fits, c, rfl, rfl⟩ := (replayLoggings_finished log named m).mp hm
  have total := sequenceId_applyRecords (c := ⟨n.cache.sequenceId, ∅, ∅⟩) numbered
  -- A number that no record has is missing after the replay.
  rcases outcome with ⟨accepted, rfl⟩ | ⟨-, fewer⟩
  swap
  · simp only at sameSequence total
    omega
  obtain ⟨values, entries⟩ := run_updates fresh.inStep fresh.opens accepted h
  refine ⟨accepted, header, fits, fun user key held => ?_, fun user unwritten => ?_⟩
  · have same := sameValues user key
    rw [values, find2_applyRecords] at same
    by_contra unwritten
    have never : lastWrite (records n.cache.sequenceId calls) user key = none :=
      lastWrite_eq_none.mpr fun r hr hit => unwritten ⟨r, hr, hit⟩
    rw [never] at same
    exact held same.symm
  · rw [← entries user unwritten, ← sameEntries user, lookup_applyRecords]
    exact ⟨rfl, unwritten⟩

theorem restored_of_replayable {n t : Node} {calls : List Call} (fresh : Fresh n)
    (names : ∀ c ∈ calls, LogName c.pair.1 ∧ LogName c.pair.2)
    (h : run call n calls = some t) (replayable : Replayable n calls) : Restored t := by
  obtain ⟨logged, log, named, count, outcome⟩ :=
    run_logged fresh.inStep fresh.opens fresh.log names h
  rw [List.nil_append] at log
  rcases outcome with ⟨accepted, rfl⟩ | ⟨rejected, -⟩
  swap
  · exact absurd replayable.accepted rejected
  obtain ⟨values, entries⟩ := run_updates fresh.inStep fresh.opens accepted h
  have numbered := numbered_records n.cache.sequenceId calls
  have total := sequenceId_applyRecords (c := ⟨n.cache.sequenceId, ∅, ∅⟩) numbered
  refine ⟨_, (replayLoggings_finished log named _).mpr
    ⟨replayable.header, numbered, replayable.fits, _, rfl, rfl⟩,
    total.trans count.symm, fun user key => ?_, fun user => ?_⟩
  · rw [values, find2_applyRecords]
    cases hw : lastWrite (records n.cache.sequenceId calls) user key with
    | some value => rfl
    | none =>
      by_contra differ
      obtain ⟨r, hr, hit⟩ := replayable.pairs user key fun none => differ (by simp [none])
      exact lastWrite_eq_none.mp hw r hr hit
  · rw [lookup_applyRecords]
    by_cases written : ∃ r ∈ records n.cache.sequenceId calls, r.user = user
    · obtain ⟨r, hr, rfl⟩ := written
      refine iff_of_false (fun none => none.2 r hr rfl) fun none => ?_
      have value := values r.user r.key
      rw [find2, none] at value
      have never : lastWrite (records n.cache.sequenceId calls) r.user r.key = Option.none :=
        (Option.or_eq_none_iff.mp value.symm).1
      exact lastWrite_eq_none.mp never r hr ⟨rfl, rfl⟩
    · have unwritten : ∀ r ∈ records n.cache.sequenceId calls, r.user ≠ user :=
        fun r hr same => written ⟨r, hr, same⟩
      rw [entries user unwritten]
      exact ⟨fun _ => replayable.users user unwritten, fun _ => ⟨rfl, unwritten⟩⟩

/-- The log of a run restores the node exactly when every Cputs of the run was accepted,
the numbers fit, and the updates hold nothing that the run did not write. -/
theorem restored_iff {n t : Node} {calls : List Call} (fresh : Fresh n)
    (names : ∀ c ∈ calls, LogName c.pair.1 ∧ LogName c.pair.2)
    (h : run call n calls = some t) : Restored t ↔ Replayable n calls :=
  ⟨replayable_of_restored fresh names h, restored_of_replayable fresh names h⟩

theorem fresh_smallNode : Fresh (smallNode [bob]) :=
  ⟨rfl, by unfold LogOpens; decide +kernel, by unfold HasLog; decide +kernel⟩

/-- The password is set, changed and deleted. -/
def acceptedCalls : List Call :=
  [.puts bob pwd "one".toList, .cputs bob pwd "one".toList "two".toList, .dele bob pwd]

theorem restored_after_puts : ∃ t, run call (smallNode [bob]) acceptedCalls = some t ∧
    Restored t := by
  have outcome : (run call (smallNode [bob]) acceptedCalls).isSome ∧
      ((run call (smallNode [bob]) [.puts bob pwd "one".toList]).bind fun m =>
        (m.gets bob pwd).map fun r => (r.1, r.2.1)) = some (.finished, "one".toList) := by
    decide +kernel
  obtain ⟨some, read⟩ := outcome
  obtain ⟨t, ran⟩ := Option.isSome_iff_exists.mp some
  refine ⟨t, ran, (restored_iff fresh_smallNode ?_ ran).mpr ⟨?_, ?_, ?_, ?_, ?_⟩⟩
  · simp [acceptedCalls, Call.pair, logName_bob, logName_pwd]
  · refine ⟨trivial, fun m called => ⟨?_, fun _ _ => ⟨trivial, fun _ _ => trivial⟩⟩⟩
    have once : run call (smallNode [bob]) [.puts bob pwd "one".toList] = Option.some m := by
      rw [run, called]
      rfl
    rw [once, Option.bind_some] at read
    obtain ⟨⟨state, value, q⟩, got, same⟩ := Option.map_eq_some_iff.mp read
    obtain ⟨rfl, rfl⟩ := Prod.mk.inj same
    exact ⟨q, got⟩
  · decide +kernel
  · exact ⟨by decide +kernel, by decide +kernel, by decide +kernel, by decide +kernel,
      by decide +kernel, by decide +kernel, trivial⟩
  · exact fun _ _ held => absurd rfl held
  · exact fun _ _ => ⟨rfl, by
      refine ⟨fun past => past.elim, fun _ _ => ⟨fun past => past.elim, fun _ _ =>
        ⟨fun past => past.elim, fun _ _ => trivial⟩⟩⟩⟩

def rejectedCalls : List Call :=
  [.puts bob pwd "one".toList, .cputs bob pwd "two".toList "three".toList,
    .puts bob pwd "four".toList]

/-- A rejected Cputs leaves a gap in the numbers, and the replay stops at it. -/
theorem rejected_not_restored : ¬ ∀ (n t : Node) (calls : List Call), Fresh n →
    (∀ c ∈ calls, LogName c.pair.1 ∧ LogName c.pair.2) → run call n calls = some t →
    Restored t := by
  intro claim
  have status : ((run call (smallNode [bob]) rejectedCalls).bind Node.replayLoggings).map
      Prod.fst = some .recError := by decide +kernel
  cases ht : run call (smallNode [bob]) rejectedCalls with
  | none => rw [ht] at status; cases status
  | some t =>
    have names : ∀ c ∈ rejectedCalls, LogName c.pair.1 ∧ LogName c.pair.2 := by
      simp [rejectedCalls, Call.pair, logName_bob, logName_pwd]
    obtain ⟨m, hm, -⟩ := claim _ t rejectedCalls fresh_smallNode names ht
    rw [ht, Option.bind_some, hm] at status
    cases status

end LiveLog
