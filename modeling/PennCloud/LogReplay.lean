import PennCloud.KvCache
import PennCloud.Runs

/-!
# The log and its replay

The records of a log, what they read back as, and the replay of a live node's
log: a run of reads and writes is restored exactly when every write of it was
logged.
-/

namespace LogReplay

open Text Pattern FileTree KvInterface UnorderedMap ChunkFiles KvCache Runs

/-- A name over the alphabet of the log header. -/
structure LogName (name : Str) : Prop where
  nonempty : name ≠ []
  alphabet : ∀ c ∈ name, nameChar c = true

/-- One log record: a Puts has a value, a Dele has none. -/
structure Record where
  seqNum : Nat
  user : Str
  key : Str
  value : Option Str

def Record.text (r : Record) : Str :=
  match r.value with
  | some value => formatPuts r.user r.key value r.seqNum
  | none => formatDele r.user r.key r.seqNum

/-- What the record writes; a deletion writes the empty value. -/
def Record.written (r : Record) : Str := r.value.getD []

def logText (records : List Record) : Str := records.flatMap Record.text

structure Record.Named (r : Record) : Prop where
  user : LogName r.user
  key : LogName r.key

/-! Headers -/

/-- The header line of a record. -/
def opHeader (opType user key : Str) (seqNum length : Nat) : Str :=
  "KvStoreLogEntry".toList ++ ' ' :: ("Seq".toList ++ ' ' :: (toDecimal seqNum ++
    ' ' :: ("user".toList ++ ' ' :: (user ++ ' ' :: ("key".toList ++ ' ' :: (key ++
    ' ' :: ("op".toList ++ ' ' :: (opType ++ ' ' :: ("length".toList ++
    ' ' :: (toDecimal length ++ "\n".toList))))))))))

theorem formatPuts_eq (user key value : Str) (seqNum : Nat) :
    formatPuts user key value seqNum =
      opHeader "Puts".toList user key seqNum value.length ++ (value ++ "\n".toList) := by
  unfold formatPuts opHeader
  simp

theorem formatDele_eq (user key : Str) (seqNum : Nat) :
    formatDele user key seqNum = opHeader "Dele".toList user key seqNum 0 := by
  unfold formatDele opHeader
  simp [toDecimal]

theorem reads_opHeader {opType user key : Str} (seqNum length : Nat) (rest : Str)
    (op : opType ≠ [] ∧ ∀ c ∈ opType, c.isAlpha = true) (hu : LogName user) (hk : LogName key) :
    Reads kLoggingHeaderRegex (opHeader opType user key seqNum length)
      [toDecimal seqNum, user, key, opType, toDecimal length] rest := by
  have digits : ∀ n, 1 ≤ (toDecimal n).length := fun n =>
    List.length_pos_iff.mpr (toDecimal_ne_nil n)
  unfold kLoggingHeaderRegex opHeader
  refine .lit _ (.one (by decide) (.lit _ (.one (by decide) ?_)))
  refine .run (fun _ => isDigit_of_mem_toDecimal) (digits _) (by simp) (.one (by decide) ?_)
  refine .lit _ (.one (by decide) ?_)
  refine .run hu.alphabet (List.length_pos_iff.mpr hu.nonempty) (by simp; decide) ?_
  refine .one (by decide) (.lit _ (.one (by decide) ?_))
  refine .run hk.alphabet (List.length_pos_iff.mpr hk.nonempty) (by simp; decide) ?_
  refine .one (by decide) (.lit _ (.one (by decide) ?_))
  refine .run op.2 (List.length_pos_iff.mpr op.1) (by simp) ?_
  refine .one (by decide) (.lit _ (.one (by decide) ?_))
  refine .run (fun _ => isDigit_of_mem_toDecimal) (digits _) (by simp) ?_
  simpa using Reads.lit "\n".toList (.nil rest)

/-- Text that the search for a record header goes past. -/
def Skipped (pre : Str) : Prop :=
  ∀ s, search kLoggingHeaderRegex (pre ++ s) =
    (search kLoggingHeaderRegex s).map fun m => { m with position := m.position + pre.length }

theorem skipped_nil : Skipped [] := by
  intro s
  simp

theorem search_record_end : search kLoggingHeaderRegex [] = none := by decide

theorem checkpointHeader_eq (sequenceId : Nat) :
    checkpointHeader sequenceId = 'K' :: ("vStoreLogEntry".toList ++ ' ' ::
      ("Checkpointed at SequenceID: ".toList ++ (toDecimal sequenceId ++ "\n".toList))) := by
  unfold checkpointHeader
  simp

theorem skipped_checkpointHeader (sequenceId : Nat) :
    Skipped (checkpointHeader sequenceId) := by
  intro s
  have digits : 'K' ∉ toDecimal sequenceId := fun h =>
    absurd (isDigit_of_mem_toDecimal h) (by decide)
  have missed : matchItems kLoggingHeaderRegex (checkpointHeader sequenceId ++ s) = none := by
    rw [checkpointHeader_eq]
    exact (matchItems_lit "KvStoreLogEntry".toList _ _).trans (by simp [matchItems, blank, lit])
  obtain ⟨pattern, hp⟩ : ∃ pattern, kLoggingHeaderRegex = .one (· == 'K') :: pattern :=
    ⟨_, rfl⟩
  rw [checkpointHeader_eq, List.cons_append] at missed ⊢
  rw [search_cons_of_none missed, hp, search_skip (by simp [digits]), Option.map_map]
  rfl

/-! Replay -/

/-- The cache once the record has been replayed. -/
def applyRecord (c : Cache) (r : Record) : Cache :=
  { c with sequenceId := r.seqNum }.putsPair r.user r.key r.written

/-- The records continue the numbering after `sequenceId`. -/
def Numbered : Nat → List Record → Prop
  | _, [] => True
  | sequenceId, r :: rs => r.seqNum = sequenceId + 1 ∧ Numbered r.seqNum rs

/-- The numbers of the records fit in an `int`, and so do the positions in the log that
is left to replay, of which `offset` characters come before the first record. -/
def Fits : Nat → List Record → Prop
  | _, [] => True
  | offset, r :: rs => r.seqNum ≤ INT_MAX ∧ offset + r.text.length ≤ INT_MAX ∧ Fits 0 rs

theorem search_record {pre : Str} (skipped : Skipped pre) {r : Record} (named : r.Named)
    (opType : Str) (op : opType ≠ [] ∧ ∀ c ∈ opType, c.isAlpha = true) (length : Nat)
    (rest : Str) :
    search kLoggingHeaderRegex
        (pre ++ (opHeader opType r.user r.key r.seqNum length ++ rest)) =
      some ⟨pre.length, (opHeader opType r.user r.key r.seqNum length).length,
        [toDecimal r.seqNum, r.user, r.key, opType, toDecimal length]⟩ := by
  rw [skipped, search_of_reads (reads_opHeader _ _ _ op named.user named.key)]
  simp

theorem substr_at {s a b : Str} {pos count : Nat} (hs : s = a ++ b) (hp : pos = a.length) :
    substr s pos count = some (b.take count) := by
  subst hs hp
  simp [substr]

theorem validate_eq (c : Cache) (seqNum : Nat) :
    c.validateAndUpdateSeqNum seqNum =
      if seqNum = c.sequenceId + 1 then (true, { c with sequenceId := seqNum })
      else (false, c) := by
  unfold Cache.validateAndUpdateSeqNum
  split <;> simp_all

/-- The replay of a log that starts with a record: it goes on when the record has the next
number and fits, and throws when it has the next number alone. -/
theorem replayFrom_step {pre : Str} (skipped : Skipped pre) {r : Record} (named : r.Named)
    (fuel : Nat) (rest : Str) (c : Cache) :
    ∃ stopped, (∀ c', stopped ≠ some (.finished, c')) ∧
      (r.seqNum = c.sequenceId + 1 → stopped = none) ∧
      replayFrom (fuel + 1) (pre ++ (r.text ++ rest)) c =
        if (r.seqNum ≤ INT_MAX ∧ pre.length + r.text.length ≤ INT_MAX) ∧
          r.seqNum = c.sequenceId + 1 then replayFrom fuel rest (applyRecord c r)
        else stopped := by
  obtain ⟨seqNum, user, key, value⟩ := r
  cases value with
  | some value =>
    obtain ⟨header, hh⟩ : ∃ header, header = opHeader "Puts".toList user key seqNum value.length :=
      ⟨_, rfl⟩
    have text : Record.text ⟨seqNum, user, key, some value⟩ = header ++ (value ++ "\n".toList) := by
      rw [hh]
      exact formatPuts_eq user key value seqNum
    obtain ⟨s, hs⟩ : ∃ s, s = pre ++ (header ++ ((value ++ "\n".toList) ++ rest)) := ⟨_, rfl⟩
    have found : search kLoggingHeaderRegex s = some ⟨pre.length, header.length,
        [toDecimal seqNum, user, key, "Puts".toList, toDecimal value.length]⟩ := by
      rw [hs, hh]
      exact search_record skipped named "Puts".toList (by simp) value.length _
    have readValue : substr s (pre.length + header.length) value.length = some value := by
      rw [substr_at (a := pre ++ header) (b := value ++ ("\n".toList ++ rest)) (by simp [hs])
        (by simp), List.take_left]
    have readRest : substr s (pre.length + (header.length + value.length + 1)) s.length =
        some rest := by
      rw [substr_at (a := pre ++ (header ++ (value ++ "\n".toList))) (b := rest) (by simp [hs])
        (by simp; omega), List.take_of_length_le (by simp [hs]; omega)]
    have lengths : (header ++ (value ++ "\n".toList)).length = header.length + value.length + 1 := by
      simp [Nat.add_assoc]
    rw [text, List.append_assoc header, ← hs, replayFrom, found, lengths]
    simp only [stoi_toDecimal, intPosition, validate_eq, applyRecord, Record.written,
      Option.getD_some, if_true]
    by_cases seqFits : seqNum ≤ INT_MAX
    swap
    · exact ⟨none, by simp, fun _ => rfl, by simp [seqFits]⟩
    by_cases valueFits : value.length ≤ INT_MAX
    swap
    · have endPast : ¬ pre.length + (header.length + value.length + 1) ≤ INT_MAX := by omega
      exact ⟨none, by simp, fun _ => rfl, by simp [valueFits, endPast]⟩
    by_cases startFits : pre.length + header.length ≤ INT_MAX
    swap
    · have endPast : ¬ pre.length + (header.length + value.length + 1) ≤ INT_MAX := by omega
      exact ⟨none, by simp, fun _ => rfl, by simp [startFits, endPast]⟩
    have position : pre.length + header.length + value.length + 1 =
        pre.length + (header.length + value.length + 1) := by omega
    by_cases next : seqNum = c.sequenceId + 1
    · by_cases endFits : pre.length + (header.length + value.length + 1) ≤ INT_MAX
      · refine ⟨none, by simp, fun _ => rfl, Eq.trans ?_ (if_pos ⟨⟨seqFits, endFits⟩, next⟩).symm⟩
        simp only [if_pos seqFits, if_pos valueFits, if_pos startFits, if_pos next, position,
          if_pos endFits, Option.bind_some, readValue, readRest]
        rfl
      · refine ⟨none, by simp, fun _ => rfl, Eq.trans ?_ (if_neg fun h => endFits h.1.2).symm⟩
        simp only [if_pos seqFits, if_pos valueFits, if_pos startFits, if_pos next, position,
          if_neg endFits, Option.bind_some, Option.bind_none, readValue]
        rfl
    · refine ⟨some (.recError, c), by simp, fun h => absurd h next,
        Eq.trans ?_ (if_neg fun h => next h.2).symm⟩
      simp only [if_pos seqFits, if_pos valueFits, if_pos startFits, if_neg next,
        Option.bind_some, readValue]
      rfl
  | none =>
    obtain ⟨header, hh⟩ : ∃ header, header = opHeader "Dele".toList user key seqNum 0 := ⟨_, rfl⟩
    have text : Record.text ⟨seqNum, user, key, none⟩ = header := by
      rw [hh]
      exact formatDele_eq user key seqNum
    obtain ⟨s, hs⟩ : ∃ s, s = pre ++ (header ++ rest) := ⟨_, rfl⟩
    have found : search kLoggingHeaderRegex s = some ⟨pre.length, header.length,
        [toDecimal seqNum, user, key, "Dele".toList, toDecimal 0]⟩ := by
      rw [hs, hh]
      exact search_record skipped named "Dele".toList (by simp) 0 _
    have readRest : substr s (pre.length + header.length) s.length = some rest := by
      rw [substr_at (a := pre ++ header) (b := rest) (by simp [hs]) (by simp),
        List.take_of_length_le (by simp [hs]; omega)]
    have other : "Dele".toList ≠ "Puts".toList := by simp
    rw [text, ← hs, replayFrom, found]
    simp only [stoi_toDecimal, intPosition, validate_eq, applyRecord, Record.written,
      Option.getD_none, if_neg other, if_true, Nat.zero_le, Option.bind_some]
    by_cases seqFits : seqNum ≤ INT_MAX
    swap
    · exact ⟨none, by simp, fun _ => rfl, by simp [seqFits]⟩
    by_cases next : seqNum = c.sequenceId + 1
    swap
    · exact ⟨some (.recError, c), by simp, fun h => absurd h next, by simp [seqFits, next]⟩
    by_cases endFits : pre.length + header.length ≤ INT_MAX
    · refine ⟨none, by simp, fun _ => rfl, Eq.trans ?_ (if_pos ⟨⟨seqFits, endFits⟩, next⟩).symm⟩
      simp only [if_pos seqFits, if_pos next, if_pos endFits, Option.bind_some, readRest]
      rfl
    · refine ⟨none, by simp, fun _ => rfl, Eq.trans ?_ (if_neg fun h => endFits h.1.2).symm⟩
      simp only [if_pos seqFits, if_pos next, if_neg endFits, Option.bind_some, Option.bind_none]
      rfl

/-- The replay of a log that starts with a record goes on exactly when the record has the
next number and fits. -/
theorem replayFrom_record {pre : Str} (skipped : Skipped pre) {r : Record} (named : r.Named)
    (fuel : Nat) (rest : Str) (c c' : Cache) :
    replayFrom (fuel + 1) (pre ++ (r.text ++ rest)) c = some (.finished, c') ↔
      (r.seqNum ≤ INT_MAX ∧ pre.length + r.text.length ≤ INT_MAX) ∧
        r.seqNum = c.sequenceId + 1 ∧
        replayFrom fuel rest (applyRecord c r) = some (.finished, c') := by
  obtain ⟨stopped, unfinished, -, step⟩ := replayFrom_step skipped named fuel rest c
  rw [step, ← and_assoc]
  split
  · rename_i goesOn
    exact ⟨fun h => ⟨goesOn, h⟩, And.right⟩
  · rename_i stops
    exact ⟨fun h => absurd h (unfinished c'), fun h => absurd h.1 stops⟩

theorem replayFrom_end {pre : Str} (skipped : Skipped pre) (fuel : Nat) (c : Cache) :
    replayFrom fuel pre c = some (.finished, c) := by
  have found : search kLoggingHeaderRegex pre = none := by
    rw [← List.append_nil pre, skipped, search_record_end]
    rfl
  cases fuel with
  | zero => rfl
  | succ fuel => rw [replayFrom, found]

theorem sequenceId_applyRecord (c : Cache) (r : Record) :
    (applyRecord c r).sequenceId = r.seqNum := rfl

/-- A replay comes to its end exactly when the records are numbered and fit, and then
every record has been applied in turn. -/
theorem replayFrom_records {pre : Str} (skipped : Skipped pre) {records : List Record}
    (named : ∀ r ∈ records, r.Named) {fuel : Nat} (enough : records.length < fuel)
    (c c' : Cache) :
    replayFrom fuel (pre ++ logText records) c = some (.finished, c') ↔
      Numbered c.sequenceId records ∧ Fits pre.length records ∧
        c' = records.foldl applyRecord c := by
  induction records generalizing pre fuel c with
  | nil =>
    rw [logText, List.flatMap_nil, List.append_nil, replayFrom_end skipped]
    simp [Numbered, Fits, eq_comm]
  | cons r rs ih =>
    obtain ⟨fuel, rfl⟩ : ∃ k, fuel = k + 1 := ⟨fuel - 1, by omega⟩
    have first := named r List.mem_cons_self
    have others := fun s hs => named s (List.mem_cons_of_mem r hs)
    have fewer : rs.length < fuel := by simpa using enough
    have tail := ih skipped_nil others fewer (applyRecord c r)
    rw [List.nil_append] at tail
    have text : logText (r :: rs) = r.text ++ logText rs := rfl
    rw [text, replayFrom_record skipped first, tail, sequenceId_applyRecord]
    constructor
    · rintro ⟨⟨seqFits, endFits⟩, next, numbered, fits, rfl⟩
      exact ⟨⟨next, numbered⟩, ⟨seqFits, endFits, fits⟩, rfl⟩
    · rintro ⟨⟨next, numbered⟩, ⟨seqFits, endFits, fits⟩, rfl⟩
      exact ⟨⟨seqFits, endFits⟩, next, numbered, fits, rfl⟩

/-- What the records last wrote to the pair. -/
def lastWrite (records : List Record) (user key : Str) : Option Str :=
  records.foldl (fun found r => if r.user = user ∧ r.key = key then some r.written else found)
    none

theorem lastWrite_snoc (records : List Record) (r : Record) (user key : Str) :
    lastWrite (records ++ [r]) user key =
      if r.user = user ∧ r.key = key then some r.written else lastWrite records user key :=
  List.foldl_append

theorem lastWrite_cons (r : Record) (records : List Record) (user key : Str) :
    lastWrite (r :: records) user key =
      (lastWrite records user key).or
        (if r.user = user ∧ r.key = key then some r.written else none) := by
  induction records using List.reverseRecOn with
  | nil => rfl
  | append_singleton records s ih =>
    rw [← List.cons_append, lastWrite_snoc, lastWrite_snoc, ih]
    split <;> rfl

theorem lastWrite_eq_none {records : List Record} {user key : Str} :
    lastWrite records user key = none ↔ ∀ r ∈ records, ¬ (r.user = user ∧ r.key = key) := by
  induction records using List.reverseRecOn with
  | nil => simp [lastWrite]
  | append_singleton records r ih =>
    rw [lastWrite_snoc]
    split
    · rename_i h
      exact iff_of_false (by simp) fun none => none r (by simp) h
    · rename_i h
      rw [ih]
      constructor
      · intro others s hs
        rcases List.mem_append.mp hs with old | new
        · exact others s old
        · rw [List.mem_singleton.mp new]
          exact h
      · exact fun all s hs => all s (List.mem_append_left _ hs)

theorem updates_applyRecord (c : Cache) (r : Record) :
    (applyRecord c r).updatesCache = set2 c.updatesCache r.user r.key r.written := rfl

theorem find2_applyRecord (c : Cache) (r : Record) (user key : Str) :
    find2 (applyRecord c r).updatesCache user key =
      if r.user = user ∧ r.key = key then some r.written
      else find2 c.updatesCache user key := by
  rw [updates_applyRecord, find2_set2]
  simp only [eq_comm]

theorem lookup_applyRecord (c : Cache) (r : Record) (user : Str) :
    (applyRecord c r).updatesCache.lookup user = none ↔
      c.updatesCache.lookup user = none ∧ r.user ≠ user := by
  rw [updates_applyRecord, set2]
  by_cases h : user = r.user
  · subst h
    simp
  · simp [AList.lookup_insert_ne h, Ne.symm h]

/-- The updates after the records are what they last wrote over the updates before. -/
theorem find2_applyRecords (records : List Record) (c : Cache) (user key : Str) :
    find2 (records.foldl applyRecord c).updatesCache user key =
      (lastWrite records user key).or (find2 c.updatesCache user key) := by
  induction records using List.reverseRecOn with
  | nil => rfl
  | append_singleton records r ih =>
    rw [List.foldl_append, List.foldl_cons, List.foldl_nil, find2_applyRecord, lastWrite_snoc, ih]
    split <;> rfl

theorem lookup_applyRecords (records : List Record) (c : Cache) (user : Str) :
    (records.foldl applyRecord c).updatesCache.lookup user = none ↔
      c.updatesCache.lookup user = none ∧ ∀ r ∈ records, r.user ≠ user := by
  induction records using List.reverseRecOn with
  | nil => simp
  | append_singleton records r ih =>
    rw [List.foldl_append, List.foldl_cons, List.foldl_nil, lookup_applyRecord, ih]
    simp [and_assoc, or_imp, forall_and]

theorem sequenceId_applyRecords {records : List Record} {c : Cache}
    (numbered : Numbered c.sequenceId records) :
    (records.foldl applyRecord c).sequenceId = c.sequenceId + records.length := by
  induction records generalizing c with
  | nil => rfl
  | cons r rs ih =>
    have tail := ih (c := applyRecord c r) numbered.2
    rw [List.foldl_cons, tail, sequenceId_applyRecord, numbered.1, List.length_cons]
    omega

theorem text_ne_nil (r : Record) : r.text ≠ [] := by
  unfold Record.text formatPuts formatDele
  split <;> simp

theorem length_le_logText (records : List Record) :
    records.length ≤ (logText records).length := by
  induction records with
  | nil => exact Nat.zero_le _
  | cons r rs ih =>
    have first := List.length_pos_iff.mpr (text_ne_nil r)
    have text : logText (r :: rs) = r.text ++ logText rs := rfl
    rw [text, List.length_append, List.length_cons]
    omega

theorem reads_checkpointHeader (sequenceId : Nat) (rest : Str) :
    Reads kLoggingSequenceIdHeader (checkpointHeader sequenceId) [toDecimal sequenceId] rest := by
  have spelled : checkpointHeader sequenceId = "KvStoreLogEntry".toList ++ ' ' ::
      ("Checkpointed".toList ++ ' ' :: ("at".toList ++ ' ' :: ("SequenceID:".toList ++ ' ' ::
        (toDecimal sequenceId ++ "\n".toList)))) := by
    unfold checkpointHeader
    simp
  rw [spelled]
  unfold kLoggingSequenceIdHeader
  refine .lit _ (.one (by decide) (.lit _ (.one (by decide) (.lit _ (.one (by decide) ?_)))))
  refine .lit _ (.one (by decide) ?_)
  refine .run (fun _ => isDigit_of_mem_toDecimal)
    (List.length_pos_iff.mpr (toDecimal_ne_nil sequenceId)) (by simp) ?_
  simpa using Reads.lit "\n".toList (.nil rest)

theorem extract_checkpointHeader (sequenceId : Nat) (rest : Str) :
    extractCheckpointSequenceIdFromLoggings (checkpointHeader sequenceId ++ rest) =
      if sequenceId ≤ INT_MAX then some (some sequenceId) else none := by
  rw [extractCheckpointSequenceIdFromLoggings, search_of_reads (reads_checkpointHeader _ _)]
  simp only [List.headD_cons, stoi_toDecimal]
  split <;> rfl

/-- The log of the node: a checkpoint header and the records after it. -/
def HasLog (n : Node) (sequenceId : Nat) (records : List Record) : Prop :=
  content n.fs n.logPath = some (checkpointHeader sequenceId ++ logText records)

/-- What the replay of a log leads to. -/
theorem replayLoggings_finished {n : Node} {sequenceId : Nat} {records : List Record}
    (log : HasLog n sequenceId records) (named : ∀ r ∈ records, r.Named) (n' : Node) :
    n.replayLoggings = some (.finished, n') ↔
      sequenceId ≤ INT_MAX ∧ Numbered sequenceId records ∧
        Fits (checkpointHeader sequenceId).length records ∧
        ∃ c, c = records.foldl applyRecord ⟨sequenceId, ∅, ∅⟩ ∧
          n' = { n with cache := c, maxSequence := c.sequenceId } := by
  have enough : records.length < (checkpointHeader sequenceId ++ logText records).length + 1 := by
    have h := length_le_logText records
    rw [List.length_append]
    omega
  have replay := replayFrom_records (skipped_checkpointHeader sequenceId) named enough
    ⟨sequenceId, ∅, ∅⟩
  rw [Node.replayLoggings, log]
  simp only [extract_checkpointHeader]
  by_cases seqFits : sequenceId ≤ INT_MAX
  swap
  · simp [seqFits]
  simp only [if_pos seqFits, Option.bind_some]
  rw [Option.map_eq_some_iff]
  refine Iff.trans ?_ (and_iff_right seqFits).symm
  constructor
  · rintro ⟨⟨status, c⟩, hr, hn⟩
    by_cases finished : status = .finished
    · subst finished
      obtain ⟨numbered, fits, hc⟩ := (replay c).mp hr
      cases hn
      exact ⟨numbered, fits, c, hc, rfl⟩
    · rw [if_neg finished] at hn
      exact absurd (congrArg Prod.fst hn) finished
  · rintro ⟨numbered, fits, c, hc, rfl⟩
    exact ⟨(.finished, c), (replay c).mpr ⟨numbered, fits, hc⟩, rfl⟩

/-- The replay of a log with a header alone starts from there. -/
theorem replayLoggings_header {n : Node} {sequenceId : Nat}
    (log : content n.fs n.logPath = some (checkpointHeader sequenceId)) :
    n.replayLoggings = if sequenceId ≤ INT_MAX then
      some (.finished, { n with cache := ⟨sequenceId, ∅, ∅⟩, maxSequence := sequenceId })
    else none := by
  have header := extract_checkpointHeader sequenceId []
  rw [List.append_nil] at header
  rw [Node.replayLoggings, log]
  simp only [header]
  by_cases fits : sequenceId ≤ INT_MAX
  · simp only [if_pos fits, Option.bind_some, Option.map_some, if_true,
      replayFrom_end (skipped_checkpointHeader sequenceId)]
  · simp only [if_neg fits, Option.bind_none]

/-! Whatever is in the log -/

theorem captured_header {s : Str} {m : Match} {seq user key op size : Str}
    (found : search kLoggingHeaderRegex s = some m) (captures : m.captures = [seq, user, key, op, size]) :
    LogName user ∧ LogName key := by
  have captured := captured_search found
  rw [captures] at captured
  simp only [kLoggingHeaderRegex, blank, captured_lit, Captured] at captured
  obtain ⟨seq', _, h, -, -, user', _, hu, nonempty, alphabet, key', _, hk, nonempty', alphabet', -⟩ :=
    captured
  cases h
  cases hu
  cases hk
  exact ⟨⟨List.length_pos_iff.mp nonempty, alphabet⟩, ⟨List.length_pos_iff.mp nonempty', alphabet'⟩⟩

/-- A cache as a replay leaves it, whatever the log holds. -/
structure FromLog (c : Cache) : Prop where
  read : c.readCache = ∅
  users : ∀ user, c.updatesCache.lookup user ≠ none → LogName user
  keys : ∀ user key, find2 c.updatesCache user key ≠ none → LogName key

theorem fromLog_putsPair {c : Cache} (fromLog : FromLog c) {user key : Str} (name : LogName user)
    (keyName : LogName key) (value : Str) (seqNum : Nat) :
    FromLog ({ c with sequenceId := seqNum }.putsPair user key value) := by
  refine ⟨?_, fun a h => ?_, fun a b h => ?_⟩
  · have unread : c.readCache.lookup user = none := by
      rw [fromLog.read]
      rfl
    simp only [Cache.putsPair, unread]
    exact fromLog.read
  · by_cases same : a = user
    · rw [same]
      exact name
    · refine fromLog.users a fun absent => h ?_
      simp [Cache.putsPair, set2, AList.lookup_insert_ne same, absent]
  · by_cases same : a = user ∧ b = key
    · rw [same.2]
      exact keyName
    · refine fromLog.keys a b fun absent => h ?_
      simp [Cache.putsPair, find2_set2, same, absent]

theorem fromLog_validate {c : Cache} (fromLog : FromLog c) {user key : Str} (name : LogName user)
    (keyName : LogName key) (value : Str) (seqNum : Nat) :
    FromLog ((c.validateAndUpdateSeqNum seqNum).2.putsPair user key value) := by
  rw [validate_eq]
  split
  · exact fromLog_putsPair fromLog name keyName value seqNum
  · exact fromLog_putsPair fromLog name keyName value c.sequenceId

theorem fromLog_replayFrom {fuel : Nat} {s : Str} {c c' : Cache} {status : KvState}
    (fromLog : FromLog c) (h : replayFrom fuel s c = some (status, c')) : FromLog c' := by
  induction fuel generalizing s c with
  | zero =>
    cases h
    exact fromLog
  | succ fuel ih =>
    rw [replayFrom] at h
    split at h
    · cases h
      exact fromLog
    · rename_i m found
      split at h
      · rename_i seq user key op size captures
        obtain ⟨name, keyName⟩ := captured_header found captures
        obtain ⟨seqNum, -, h⟩ := Option.bind_eq_some_iff.mp h
        obtain ⟨length, -, h⟩ := Option.bind_eq_some_iff.mp h
        simp only at h
        split at h
        · obtain ⟨value, -, h⟩ := Option.bind_eq_some_iff.mp h
          split at h
          · obtain ⟨p, -, h⟩ := Option.bind_eq_some_iff.mp h
            obtain ⟨rest, -, h⟩ := Option.bind_eq_some_iff.mp h
            exact ih (fromLog_validate fromLog name keyName value seqNum) h
          · cases h
            exact fromLog
        · split at h
          · split at h
            · obtain ⟨rest, -, h⟩ := Option.bind_eq_some_iff.mp h
              exact ih (fromLog_validate fromLog name keyName [] seqNum) h
            · cases h
              exact fromLog
          · obtain ⟨rest, -, h⟩ := Option.bind_eq_some_iff.mp h
            exact ih fromLog h
      · cases h

/-- A replay changes the cache and `max_sequence` alone. The cache is left as it was when the
log cannot be read at all. -/
theorem fromLog_replayLoggings {n m : Node} {status : KvState}
    (h : n.replayLoggings = some (status, m)) :
    m = { n with cache := m.cache, maxSequence := m.maxSequence } ∧
      (m.cache = n.cache ∨ FromLog m.cache) := by
  rw [Node.replayLoggings] at h
  split at h
  · cases h
    exact ⟨rfl, .inl rfl⟩
  · obtain ⟨id, -, h⟩ := Option.bind_eq_some_iff.mp h
    split at h
    · cases h
      exact ⟨rfl, .inl rfl⟩
    · rename_i sequenceId
      obtain ⟨⟨status', c⟩, replayed, h⟩ := Option.map_eq_some_iff.mp h
      have fresh : FromLog ⟨sequenceId, ∅, ∅⟩ :=
        ⟨rfl, fun user h => absurd rfl h, fun user key h => absurd rfl h⟩
      have fromLog := fromLog_replayFrom fresh replayed
      split at h
      · cases h
        exact ⟨rfl, .inr fromLog⟩
      · cases h
        exact ⟨rfl, .inr fromLog⟩

end LogReplay
