import PennCloud.CacheSteps
import PennCloud.Login
import Mathlib.Data.Set.Insert

/-!
# What a log decodes to

The records of numbered writes are decoded to the same writes, whatever bytes
their values are made of, as long as the names of the users are over the
alphabet of the record header. A user who signed up with another name can put
records of other users into a value.
-/

namespace LogDecoding

open Text Pattern FileTree UnorderedMap KvInterface KvCache LogReplay CacheSteps Login

/-- A Puts, or a Dele without a value. -/
structure Write where
  user : Str
  key : Str
  value : Option Str

/-- The writes numbered in order after `n`. -/
def number : Nat → List Write → List Record
  | _, [] => []
  | n, w :: ws => ⟨n + 1, w.user, w.key, w.value⟩ :: number (n + 1) ws

/-- The updates once the write is made. -/
def applied (updates : UserMap) (w : Write) : UserMap :=
  set2 updates w.user w.key (w.value.getD [])

/-- The log of the writes after checkpoint `n`. -/
def logOf (n : Nat) (ws : List Write) : Str := checkpointHeader n ++ logText (number n ws)

/-- The numbers, and the positions in what is left of the log, fit in an `int`. -/
def LogFits (n : Nat) (ws : List Write) : Prop :=
  n ≤ INT_MAX ∧ Fits (checkpointHeader n).length (number n ws)

theorem numbered_number (n : Nat) (ws : List Write) : Numbered n (number n ws) := by
  induction ws generalizing n with
  | nil => trivial
  | cons w ws ih => exact ⟨rfl, ih (n + 1)⟩

theorem length_number (n : Nat) (ws : List Write) : (number n ws).length = ws.length := by
  induction ws generalizing n with
  | nil => rfl
  | cons w ws ih => simp [number, ih]

theorem named_number {n : Nat} {ws : List Write}
    (named : ∀ w ∈ ws, LogName w.user ∧ LogName w.key) : ∀ r ∈ number n ws, r.Named := by
  induction ws generalizing n with
  | nil => simp [number]
  | cons w ws ih =>
    intro r hr
    rcases List.mem_cons.mp hr with rfl | later
    · have first := named w List.mem_cons_self
      exact ⟨first.1, first.2⟩
    · exact ih (fun v hv => named v (List.mem_cons_of_mem w hv)) r later

theorem updates_number (n : Nat) (ws : List Write) (c : Cache) :
    ((number n ws).foldl applyRecord c).updatesCache = ws.foldl applied c.updatesCache := by
  induction ws generalizing n c with
  | nil => rfl
  | cons w ws ih => exact ih (n + 1) _

section Replay
variable {n : Nat} {ws : List Write} {node : Node}

/-- The replay of the log of well-named writes. -/
theorem replay_finished (named : ∀ w ∈ ws, LogName w.user ∧ LogName w.key)
    (log : content node.fs node.logPath = some (logOf n ws)) (m : Node) :
    node.replayLoggings = some (.finished, m) ↔ LogFits n ws ∧
      m = { node with
        cache := (number n ws).foldl applyRecord ⟨n, ∅, ∅⟩
        maxSequence := n + ws.length } := by
  have numbers : ((number n ws).foldl applyRecord ⟨n, ∅, ∅⟩).sequenceId = n + ws.length := by
    rw [sequenceId_applyRecords (numbered_number n ws), length_number]
  rw [replayLoggings_finished log (named_number named)]
  constructor
  · rintro ⟨fitsId, -, fits, c, rfl, rfl⟩
    exact ⟨⟨fitsId, fits⟩, by rw [numbers]⟩
  · rintro ⟨⟨fitsId, fits⟩, rfl⟩
    exact ⟨fitsId, numbered_number n ws, fits, _, rfl, by rw [numbers]⟩

/-- A log of well-named writes is decoded to exactly these writes, in their order. -/
theorem replay_exact (n : Nat) (ws : List Write) (node : Node)
    (named : ∀ w ∈ ws, LogName w.user ∧ LogName w.key) (fits : LogFits n ws)
    (log : content node.fs node.logPath = some (logOf n ws)) :
    ∃ m, node.replayLoggings = some (.finished, m) ∧
      m.cache = (number n ws).foldl applyRecord ⟨n, ∅, ∅⟩ ∧
      m.cache.updatesCache = ws.foldl applied ∅ ∧
      m.cache.sequenceId = n + ws.length ∧ m.maxSequence = n + ws.length ∧ m.fs = node.fs := by
  refine ⟨_, (replay_finished named log _).mpr ⟨fits, rfl⟩, rfl, updates_number n ws _, ?_, rfl, rfl⟩
  exact (sequenceId_applyRecords (numbered_number n ws)).trans (by rw [length_number])

end Replay

/-- A node that has this log. -/
def nodeWithLog (log : Str) : Node :=
  { smallNode [] with fs := (smallNode []).fs.insert (smallNode []).logPath (.file log) }

theorem content_nodeWithLog (log : Str) :
    content (nodeWithLog log).fs (nodeWithLog log).logPath = some log := by
  have found : (nodeWithLog log).fs.lookup (nodeWithLog log).logPath = some (.file log) :=
    AList.lookup_insert _
  rw [content, found]

/-- A value that looks like a record. -/
def headerLike : Write :=
  ⟨bob, pwd, some ("KvStoreLogEntry Seq 2 user eve key pwd op Dele length 0\n".toList)⟩

theorem replay_headerLike : ∃ m,
    (nodeWithLog (logOf 4 [headerLike, ⟨bob, pwd, none⟩])).replayLoggings = some (.finished, m) ∧
      m.cache.sequenceId = 6 ∧ m.cache.updatesCache = [headerLike, ⟨bob, pwd, none⟩].foldl applied ∅ := by
  obtain ⟨m, h, -, updates, sequenceId, -, -⟩ := replay_exact 4 [headerLike, ⟨bob, pwd, none⟩]
    (nodeWithLog (logOf 4 [headerLike, ⟨bob, pwd, none⟩]))
    (by simp [headerLike, logName_bob, logName_pwd])
    ⟨by decide, ⟨by decide, by decide +kernel, by decide, by decide +kernel, trivial⟩⟩ (content_nodeWithLog _)
  exact ⟨m, h, sequenceId, updates⟩

/-! Headers of other names -/

theorem nameChar_not_space {c : Char} (h : nameChar c = true) : isSpace c = false := by
  by_contra blank
  have blank : isSpace c = true := by simpa using blank
  simp only [isSpace, Bool.or_eq_true, decide_eq_true_eq] at blank
  rcases blank with (((((rfl | rfl) | rfl) | rfl) | rfl) | rfl) <;> exact absurd h (by decide)

/-- A header begins with these words, each with a blank after it. -/
theorem accepts_header {s : Str} (h : Accepts kLoggingHeaderRegex s) :
    ∃ b₀ b₁ b₂ b₃ b₄ digits name rest, (∀ b ∈ [b₀, b₁, b₂, b₃, b₄], isSpace b = true) ∧
      (∀ c ∈ digits, c.isDigit = true) ∧ LogName name ∧
        s = "KvStoreLogEntry".toList ++ b₀ :: ("Seq".toList ++ b₁ :: (digits ++
          b₂ :: ("user".toList ++ b₃ :: (name ++ b₄ :: rest)))) := by
  obtain ⟨_, rfl, b₀, _, rfl, blank₀, h⟩ := accepts_lit.mp h
  obtain ⟨_, rfl, b₁, _, rfl, blank₁, digits, _, rfl, -, allDigits, b₂, _, rfl, blank₂, h⟩ :=
    accepts_lit.mp h
  obtain ⟨_, rfl, b₃, _, rfl, blank₃, name, _, rfl, nonempty, alphabet, b₄, rest, rfl, blank₄, -⟩ :=
    accepts_lit.mp h
  refine ⟨b₀, b₁, b₂, b₃, b₄, digits, name, rest, ?_, allDigits,
    ⟨List.length_pos_iff.mp nonempty, alphabet⟩, rfl⟩
  simp only [List.forall_mem_cons]
  exact ⟨blank₀, blank₁, blank₂, blank₃, blank₄, by simp⟩

section OtherName
variable {user : Str} (words : ∀ c ∈ user, isSpace c = false)
include words

/-- The header of a name that is not over the alphabet does not match. -/
theorem refused_header (other : ¬ LogName user) (seqNum : Nat) (rest : Str) :
    ¬ Accepts kLoggingHeaderRegex ("KvStoreLogEntry".toList ++ ' ' :: ("Seq".toList ++ ' ' ::
      (toDecimal seqNum ++ ' ' :: ("user".toList ++ ' ' :: (user ++ ' ' :: rest))))) := by
  intro h
  obtain ⟨b₀, b₁, b₂, b₃, b₄, digits, name, rest', blank, allDigits, logName, same⟩ :=
    accepts_header h
  obtain ⟨-, same⟩ := List.cons.inj (List.append_cancel_left same)
  obtain ⟨-, same⟩ := List.cons.inj (List.append_cancel_left same)
  obtain ⟨-, -, same⟩ := append_blank_inj
    (fun c hc => isDigit_not_space (isDigit_of_mem_toDecimal hc))
    (fun c hc => isDigit_not_space (allDigits c hc)) (by decide) (blank b₂ (by simp)) same
  obtain ⟨-, same⟩ := List.cons.inj (List.append_cancel_left same)
  obtain ⟨rfl, -⟩ := append_blank_inj words
    (fun c hc => nameChar_not_space (logName.alphabet c hc)) (by decide) (blank b₄ (by simp)) same
  exact other logName

/-- No header begins inside a name. -/
theorem refused_name (rest : Str) :
    ¬ Accepts kLoggingHeaderRegex (user ++ ' ' :: ("key".toList ++ rest)) := by
  intro h
  obtain ⟨b₀, b₁, b₂, b₃, b₄, digits, name, rest', blank, -, -, same⟩ := accepts_header h
  obtain ⟨-, -, same⟩ := append_blank_inj words (b := "KvStoreLogEntry".toList) (by decide)
    (by decide) (blank b₀ (by simp)) same
  simp at same

end OtherName

theorem skipped_append {a b : Str} (first : Skipped a) (second : Skipped b) :
    Skipped (a ++ b) := by
  intro s
  rw [List.append_assoc, first, second, Option.map_map]
  refine Option.map_congr fun m _ => ?_
  simp [Nat.add_comm a.length, Nat.add_assoc]

/-- Text without the first letter of the pattern. -/
theorem skipped_of_notMem {pre : Str} (absent : 'K' ∉ pre) : Skipped pre :=
  fun _ => search_skip absent

theorem skipped_cons {c : Char} {pre : Str} (skipped : Skipped pre)
    (refused : ∀ s, ¬ Accepts kLoggingHeaderRegex (c :: (pre ++ s))) : Skipped (c :: pre) := by
  intro s
  rw [List.cons_append, search_cons_of_none (matchItems_eq_none (refused s)), skipped,
    Option.map_map]
  rfl

section Header
variable {user : Str} (words : ∀ c ∈ user, isSpace c = false)
include words

theorem skipped_name (tail : Str) (absent : 'K' ∉ tail) :
    Skipped (user ++ ' ' :: ("key".toList ++ tail)) := by
  induction user with
  | nil => exact skipped_of_notMem (by simp [absent])
  | cons c user ih =>
    refine skipped_cons (ih fun d hd => words d (List.mem_cons_of_mem c hd)) fun s => ?_
    have refused := refused_name words (tail ++ s)
    simpa using refused

/-- The header of a name that is not over the alphabet is gone past. -/
theorem skipped_opHeader (other : ¬ LogName user) (seqNum length : Nat) :
    Skipped (opHeader "Puts".toList user pwd seqNum length) := by
  have digits : ∀ n, 'K' ∉ toDecimal n := fun n h =>
    absurd (isDigit_of_mem_toDecimal h) (by decide)
  have tail := skipped_name words (' ' :: (pwd ++ ' ' :: ("op".toList ++ ' ' ::
    ("Puts".toList ++ ' ' :: ("length".toList ++ ' ' :: (toDecimal length ++ "\n".toList))))))
    (by simp [pwd, digits])
  have middle : Skipped ("vStoreLogEntry".toList ++ ' ' :: ("Seq".toList ++ ' ' ::
      (toDecimal seqNum ++ ' ' :: ("user".toList ++ [' '])))) :=
    skipped_of_notMem (by simp [digits])
  have whole := skipped_cons (c := 'K') (skipped_append middle tail) fun s => by
    have refused := refused_header words other seqNum
    simpa using refused _
  unfold opHeader
  simpa using whole

end Header

/-! Logs that differ in the values of one user -/

/-- The keys the front end writes. -/
def StoreKey (key : Str) : Prop :=
  key = "pwd".toList ∨ key = "mbox".toList ∨ key = "storage_metadata".toList ∨
    key ≠ [] ∧ ∀ c ∈ key, c.isDigit = true

/-- The writes differ at most in their values, which one user writes. -/
structure SameBut (user : Str) (w w' : Write) : Prop where
  sameUser : w'.user = w.user
  sameKey : w'.key = w.key
  kind : w'.value.isSome = w.value.isSome
  others : w.user ≠ user → w'.value = w.value

/-- The replays end alike, and leave the other users the same updates. -/
def Agree (user : Str) (r r' : Option (KvState × Node)) : Prop :=
  r'.map Prod.fst = r.map Prod.fst ∧
    ∀ s m s' m', r = some (s, m) → r' = some (s', m') → ∀ other, other ≠ user →
      m'.cache.updatesCache.lookup other = m.cache.updatesCache.lookup other

/-- Among these users, nobody's values reach the updates of another. Of two logs that are
compared, both fit in the numbers of the replay or both do not. -/
def Separated (users : Set Str) : Prop :=
  ∀ n ws ws' user, List.Forall₂ (SameBut user) ws ws' →
    (∀ w ∈ ws, w.user ∈ users ∧ StoreKey w.key) → (LogFits n ws ↔ LogFits n ws') →
    ∀ node node' : Node, content node.fs node.logPath = some (logOf n ws) →
      content node'.fs node'.logPath = some (logOf n ws') →
      Agree user node.replayLoggings node'.replayLoggings

theorem logName_of_storeKey {key : Str} (h : StoreKey key) : LogName key := by
  rcases h with rfl | rfl | rfl | ⟨nonempty, digits⟩
  · exact ⟨by decide +kernel, by decide +kernel⟩
  · exact ⟨by decide +kernel, by decide +kernel⟩
  · exact ⟨by decide +kernel, by decide +kernel⟩
  · refine ⟨nonempty, fun c hc => ?_⟩
    simp [nameChar, Char.isAlphanum, digits c hc]

theorem lookup_applied_ne {updates : UserMap} {w : Write} {other : Str} (h : other ≠ w.user) :
    (applied updates w).lookup other = updates.lookup other :=
  AList.lookup_insert_ne h

/-- The updates of the other users. -/
theorem lookup_foldl_applied {user : Str} {ws ws' : List Write}
    (same : List.Forall₂ (SameBut user) ws ws') {other : Str} (ne : other ≠ user)
    {updates updates' : UserMap} (start : updates'.lookup other = updates.lookup other) :
    (ws'.foldl applied updates').lookup other = (ws.foldl applied updates).lookup other := by
  induction same generalizing updates updates' with
  | nil => exact start
  | @cons w w' ws ws' first _ ih =>
    refine ih ?_
    by_cases own : other = w.user
    · have value := first.others (by rwa [← own])
      rw [applied, applied, set2, set2, first.sameUser, first.sameKey, value, ← own, AList.lookup_insert,
        AList.lookup_insert, at', at', start]
    · rw [lookup_applied_ne own, lookup_applied_ne (first.sameUser ▸ own), start]

theorem named_of_forall₂ {user : Str} {ws ws' : List Write}
    (same : List.Forall₂ (SameBut user) ws ws')
    (named : ∀ w ∈ ws, LogName w.user ∧ LogName w.key) :
    ∀ w ∈ ws', LogName w.user ∧ LogName w.key := by
  induction same with
  | nil => exact named
  | @cons w w' ws ws' first _ ih =>
    intro v hv
    rcases List.mem_cons.mp hv with rfl | later
    · rw [first.sameUser, first.sameKey]
      exact named w List.mem_cons_self
    · exact ih (fun v hv => named v (List.mem_cons_of_mem w hv)) v later

theorem replayLoggings_eq {node : Node} {n : Nat} {text : Str} (fits : n ≤ INT_MAX)
    (log : content node.fs node.logPath = some (checkpointHeader n ++ text)) :
    node.replayLoggings =
      (replayFrom ((checkpointHeader n ++ text).length + 1) (checkpointHeader n ++ text)
        ⟨n, ∅, ∅⟩).map fun r => if r.1 = .finished then
          (.finished, { node with cache := r.2, maxSequence := r.2.sequenceId })
        else (r.1, { node with cache := r.2 }) := by
  rw [Node.replayLoggings, log]
  simp only [extract_checkpointHeader, if_pos fits, Option.bind_some]

/-- The replay of numbered records that do not fit throws. -/
theorem replayFrom_throws {pre : Str} (skipped : Skipped pre) {records : List Record}
    (named : ∀ r ∈ records, r.Named) {fuel : Nat} (enough : records.length < fuel) {c : Cache}
    (numbered : Numbered c.sequenceId records) (unfit : ¬ Fits pre.length records) :
    replayFrom fuel (pre ++ logText records) c = none := by
  induction records generalizing pre fuel c with
  | nil => exact absurd trivial unfit
  | cons r rs ih =>
    obtain ⟨fuel, rfl⟩ : ∃ k, fuel = k + 1 := ⟨fuel - 1, by omega⟩
    obtain ⟨stopped, -, throws, step⟩ :=
      replayFrom_step skipped (named r List.mem_cons_self) fuel (logText rs) c
    have text : logText (r :: rs) = r.text ++ logText rs := rfl
    rw [text, step]
    split
    · rename_i goesOn
      refine ih skipped_nil (fun s hs => named s (List.mem_cons_of_mem r hs)) (by simpa using enough)
        numbered.2 fun fits => unfit ⟨goesOn.1.1, goesOn.1.2, fits⟩
    · exact throws numbered.1

theorem replay_throws {n : Nat} {ws : List Write} {node : Node}
    (named : ∀ w ∈ ws, LogName w.user ∧ LogName w.key)
    (log : content node.fs node.logPath = some (logOf n ws)) (unfit : ¬ LogFits n ws) :
    node.replayLoggings = none := by
  by_cases fitsId : n ≤ INT_MAX
  · rw [replayLoggings_eq fitsId log, replayFrom_throws (skipped_checkpointHeader n)
      (named_number named) ?_ (numbered_number n ws) fun fits => unfit ⟨fitsId, fits⟩]
    · rfl
    · have h := length_le_logText (number n ws)
      rw [List.length_append]
      omega
  · rw [logOf] at log
    rw [Node.replayLoggings, log]
    simp only [extract_checkpointHeader, if_neg fitsId, Option.bind_none]

theorem separated_of_named {users : Set Str} (named : ∀ user ∈ users, LogName user) :
    Separated users := by
  intro n ws ws' user same known fit node node' log log'
  have names : ∀ w ∈ ws, LogName w.user ∧ LogName w.key := fun w hw =>
    ⟨named _ (known w hw).1, logName_of_storeKey (known w hw).2⟩
  have names' := named_of_forall₂ same names
  by_cases fits : LogFits n ws
  · have replayed := (replay_finished names log _).mpr ⟨fits, rfl⟩
    have replayed' := (replay_finished names' log' _).mpr ⟨fit.mp fits, rfl⟩
    rw [replayed, replayed']
    refine ⟨rfl, fun s m s' m' h h' other ne => ?_⟩
    cases h
    cases h'
    rw [updates_number, updates_number]
    exact lookup_foldl_applied same ne rfl
  · rw [replay_throws names log fits, replay_throws names' log' fun h => fits (fit.mpr h)]
    exact ⟨rfl, fun s m s' m' h => by cases h⟩

/-! A record inside a value -/

/-- A record of another user. -/
def forged : Record := ⟨1, bob, pwd, some pwd⟩

/-- The user writes the text of the record. -/
def forging (user : Str) : Write := ⟨user, pwd, some forged.text⟩

/-- The user writes as many other characters. -/
def harmless (user : Str) : Write := ⟨user, pwd, some (List.replicate forged.text.length 'x')⟩

section Forging
variable {user : Str} (words : ∀ c ∈ user, isSpace c = false) (other : ¬ LogName user)
  {node : Node}

theorem logOf_single (value : Str) : logOf 0 [⟨user, pwd, some value⟩] =
    checkpointHeader 0 ++ (opHeader "Puts".toList user pwd 1 value.length ++
      (value ++ "\n".toList)) := by
  have text : logText (number 0 [⟨user, pwd, some value⟩]) =
      formatPuts user pwd value 1 ++ [] := rfl
  rw [logOf, text, List.append_nil, formatPuts_eq]

theorem skipped_newline : Skipped "\n".toList := skipped_of_notMem (by simp)

include words other

/-- The record inside the value is replayed, or is too far into the log. -/
theorem replay_forging (log : content node.fs node.logPath = some (logOf 0 [forging user]))
    {s : KvState} {m : Node} (h : node.replayLoggings = some (s, m)) (finished : s = .finished) :
    find2 m.cache.updatesCache bob pwd = some pwd := by
  subst finished
  rw [forging, logOf_single] at log
  have skipped := skipped_append (skipped_checkpointHeader 0)
    (skipped_opHeader words other 1 forged.text.length)
  obtain ⟨fuel, hf⟩ : ∃ fuel, fuel = (checkpointHeader 0 ++ (opHeader "Puts".toList user pwd 1
    forged.text.length ++ (forged.text ++ "\n".toList))).length := ⟨_, rfl⟩
  obtain ⟨stopped, unfinished, -, step⟩ := replayFrom_step skipped
    (r := forged) ⟨logName_bob, logName_pwd⟩ fuel "\n".toList ⟨0, ∅, ∅⟩
  rw [replayLoggings_eq (Nat.zero_le _) log, ← hf, ← List.append_assoc, step] at h
  obtain ⟨r, replayed, h⟩ := Option.map_eq_some_iff.mp h
  split at replayed
  · rw [replayFrom_end skipped_newline] at replayed
    cases replayed
    cases h
    rw [find2_applyRecord]
    rfl
  · by_cases finished : r.1 = .finished
    · exact absurd (replayed.trans (by rw [← finished])) (unfinished r.2)
    · rw [if_neg finished] at h
      exact absurd (congrArg Prod.fst h) finished

/-- Nothing is replayed from the other value. -/
theorem replay_harmless (log : content node.fs node.logPath = some (logOf 0 [harmless user])) :
    node.replayLoggings =
      some (.finished, { node with cache := ⟨0, ∅, ∅⟩, maxSequence := 0 }) := by
  have value : Skipped (List.replicate forged.text.length 'x' ++ "\n".toList) := by
    refine skipped_append (skipped_of_notMem fun h => ?_) skipped_newline
    exact absurd (List.eq_of_mem_replicate h) (by decide)
  have whole := skipped_append (skipped_checkpointHeader 0)
    (skipped_append (skipped_opHeader words other 1 (List.replicate forged.text.length 'x').length)
      value)
  rw [harmless, logOf_single] at log
  rw [replayLoggings_eq (Nat.zero_le _) log, replayFrom_end whole]
  rfl

end Forging

/-- Values stay apart exactly among users whose names are over the alphabet of the header. -/
theorem separated_iff (users : Set Str) (valid : ∀ user ∈ users, validUsername user = true) :
    Separated users ↔ ∀ user ∈ users, LogName user := by
  refine ⟨fun separated user member => ?_, separated_of_named⟩
  by_contra other
  have words : ∀ c ∈ user, isSpace c = false := fun c hc =>
    not_space_of_valid (validUserchar_of_mem (valid user member) hc)
  have same : List.Forall₂ (SameBut user) [harmless user] [forging user] :=
    .cons ⟨rfl, rfl, rfl, fun ne => absurd rfl ne⟩ .nil
  have fit : LogFits 0 [harmless user] ↔ LogFits 0 [forging user] := by
    have lengths : ∀ value : Str, (Record.text ⟨1, user, pwd, some value⟩).length =
        (opHeader "Puts".toList user pwd 1 value.length).length + (value.length + 1) := by
      intro value
      have text : Record.text ⟨1, user, pwd, some value⟩ = formatPuts user pwd value 1 := rfl
      rw [text, formatPuts_eq, List.length_append, List.length_append]
      rfl
    simp only [LogFits, number, Fits, harmless, forging, lengths, List.length_replicate]
  obtain ⟨status, updates⟩ := separated 0 _ _ user same (by simp [harmless, member, StoreKey, pwd])
    fit (nodeWithLog (logOf 0 [harmless user])) (nodeWithLog (logOf 0 [forging user]))
    (content_nodeWithLog _) (content_nodeWithLog _)
  have quiet := replay_harmless words other (content_nodeWithLog (logOf 0 [harmless user]))
  rw [quiet] at status
  obtain ⟨⟨s, m⟩, replayed, finished⟩ := Option.map_eq_some_iff.mp status
  have victim : bob ≠ user := by
    rintro rfl
    exact other logName_bob
  have alike := updates _ _ s m quiet replayed bob victim
  have found := replay_forging words other (content_nodeWithLog (logOf 0 [forging user])) replayed
    finished
  rw [find2, alike] at found
  cases found

/-! One user with a name outside the alphabet -/

def eve : Str := "eve!".toList

theorem separated_bob : Separated {bob} := by
  refine (separated_iff {bob} fun user h => ?_).mpr fun user h => ?_
  · rw [Set.mem_singleton_iff.mp h]
    decide +kernel
  · rw [Set.mem_singleton_iff.mp h]
    exact logName_bob

/-- The value of one user becomes the password of another. -/
theorem forged_by_eve : validUsername eve = true ∧
    List.Forall₂ (SameBut eve) [harmless eve] [forging eve] ∧
    ((nodeWithLog (logOf 0 [harmless eve])).replayLoggings.map fun r =>
      (r.1, find2 r.2.cache.updatesCache bob pwd)) = some (.finished, none) ∧
    ((nodeWithLog (logOf 0 [forging eve])).replayLoggings.map fun r =>
      (r.1, find2 r.2.cache.updatesCache bob pwd)) = some (.finished, some pwd) := by
  refine ⟨by decide +kernel, .cons ⟨rfl, rfl, rfl, fun ne => absurd rfl ne⟩ .nil, ?_, ?_⟩
  · decide +kernel
  · decide +kernel

end LogDecoding
