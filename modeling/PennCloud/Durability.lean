import PennCloud.LiveNode

/-!
# Acknowledged writes at a checkpoint

A write is accepted in memory, and reaches the disk when the next checkpoint
writes the folder of its user. The checkpoint does not look at the result of
`init` and truncates the log in any case: the write of a user who never signed
up is then nowhere.
-/

namespace Durability

open Text FileTree KvInterface UnorderedMap ChunkFiles KvCache KvStore LogReplay CacheSteps Runs
  ChunkFormat ChunkFolder NodeDisk StoreView Acknowledgement LiveNode
open ChunkOverlay (UserName Settled overlaid)

/-- What an event writes when its command ends with FINISHED. -/
def accepted (n : Node) (e : Event) : Option (Str × Str × Str) :=
  (outcome n e).bind (settles e.2)

/-- The event writes no other value to the pair. -/
def NotOverwritten (user key : Str) (n : Node) (e : Event) : Prop :=
  ∀ w, accepted n e = some w → ¬ (w.1 = user ∧ w.2.1 = key)

/-- After a checkpoint and a restart, a read of the pair gives the value. -/
def Survives (t : Node) (it : Iteration Loop) (user key value : Str) : Prop :=
  ∃ saved restarted last status status', t.checkpoint it = some (status, saved) ∧
    saved.replayLoggings = some (status', restarted) ∧
    restarted.gets user key = some (.finished, value, last)

section Runs
variable {n t : Node} {S : Folders}

/-- An accepted write is the value of its pair. -/
theorem cur_accepted (live : Live n S) {e : Event} (plain : Plain e.2) (h : turn n e = some t)
    {user key value : Str} (name : UserName user) (accept : accepted n e = some (user, key, value)) :
    cur t user key = value := by
  obtain ⟨S', status, -, done, values⟩ := turn_live live plain h
  rw [accepted, done, Option.bind_some] at accept
  rw [values user key name, accept]
  exact if_pos ⟨rfl, rfl⟩

theorem cur_notOverwritten (live : Live n S) {e : Event} (plain : Plain e.2)
    (h : turn n e = some t) {user key : Str} (name : UserName user)
    (kept : NotOverwritten user key n e) : cur t user key = cur n user key := by
  obtain ⟨S', status, -, done, values⟩ := turn_live live plain h
  rw [NotOverwritten, accepted, done, Option.bind_some] at kept
  rw [values user key name]
  cases settled : settles e.2 status with
  | none => rfl
  | some w => exact if_neg (kept w settled)

/-- The last accepted write to a pair stays its value. -/
theorem cur_lastAccepted {events : List Event} (live : Live n S)
    (plain : ∀ e ∈ events, Plain e.2) (h : run turn n events = some t) {user key : Str}
    (name : UserName user) (kept : Along turn (NotOverwritten user key) n events) :
    cur t user key = cur n user key := by
  induction events generalizing n S with
  | nil =>
    cases h
    rfl
  | cons e es ih =>
    obtain ⟨r, hr, hrt⟩ := run_cons_eq_some.mp h
    have first := plain e List.mem_cons_self
    obtain ⟨S', -, live', -⟩ := turn_live live first hr
    have later := ih live' (fun d hd => plain d (List.mem_cons_of_mem e hd)) hrt (kept.2 r hr)
    exact later.trans (cur_notOverwritten live first hr name kept.1)

/-- What is left after a checkpoint and a restart: the folders with the updates laid over
them, if the header of the log can be read. -/
theorem restarted_after_checkpoint (sound : Sound t S) (it : Iteration Loop) :
    ∃ saved S', t.checkpoint it = some (.finished, saved) ∧ Disk saved.fs t.port S' ∧
      saved.port = t.port ∧
      (∀ restarted status, saved.replayLoggings = some (status, restarted) ↔
        t.cache.sequenceId ≤ INT_MAX ∧ status = .finished ∧ restarted =
          { saved with
            cache := ⟨t.cache.sequenceId, ∅, ∅⟩
            maxSequence := t.cache.sequenceId }) ∧
      ∀ user key, UserName user → stored S' user key = if S user = none then none
        else overlaid (find2 t.cache.updatesCache user key) (stored S user key) := by
  obtain ⟨files, S', done, disk, -, -, log, values⟩ := checkpoint_sound sound it
  refine ⟨_, S', done, disk, rfl, fun restarted status => ?_, values⟩
  rw [replayLoggings_header log]
  by_cases fits : t.cache.sequenceId ≤ INT_MAX
  · rw [if_pos fits]
    constructor
    · intro h
      cases h
      exact ⟨fits, rfl, rfl⟩
    · rintro ⟨-, rfl, rfl⟩
      rfl
  · simp [fits]

end Runs

/-- The last accepted write of a non-empty value survives a checkpoint and a restart exactly
when its user has a folder, and the sequence number in the log header fits in an int. -/
theorem survives_iff {n r s t : Node} {before after : List Event} {e : Event}
    (started : Started n) (plain : ∀ d ∈ before ++ e :: after, Plain d.2)
    (first : run turn n before = some r) (acknowledges : turn r e = some s)
    (rest : run turn s after = some t) {user key value : Str} (name : UserName user)
    (accept : accepted r e = some (user, key, value)) (nonempty : value ≠ [])
    (last : Along turn (NotOverwritten user key) s after) (it : Iteration Loop) :
    Survives t it user key value ↔ HasFolder t user ∧ t.cache.sequenceId ≤ INT_MAX := by
  obtain ⟨S₀, live₀⟩ := live_started started
  obtain ⟨S₁, live₁⟩ := run_live live₀
    (fun d hd => plain d (List.mem_append_left _ hd)) first
  have own : Plain e.2 := plain e (List.mem_append_right _ List.mem_cons_self)
  have later : ∀ d ∈ after, Plain d.2 := fun d hd =>
    plain d (List.mem_append_right _ (List.mem_cons_of_mem e hd))
  obtain ⟨S₂, -, live₂, -⟩ := turn_live live₁ own acknowledges
  obtain ⟨S, live⟩ := run_live live₂ later rest
  have current : cur t user key = value := by
    rw [cur_lastAccepted live₂ later rest name last]
    exact cur_accepted live₁ own acknowledges name accept
  obtain ⟨saved, S', done, disk, port, replays, values⟩ :=
    restarted_after_checkpoint live.sound it
  have kept : S user ≠ none → stored S' user key = some value := by
    intro has
    rw [cur_disk live.sound.disk name] at current
    rw [values user key name, if_neg has]
    cases update : find2 t.cache.updatesCache user key with
    | some v =>
      rw [update] at current
      obtain rfl : v = value := current
      simp [overlaid, nonempty]
    | none =>
      rw [update, Option.none_or] at current
      cases hs : stored S user key with
      | none =>
        rw [hs] at current
        exact absurd current.symm nonempty
      | some v =>
        rw [hs] at current
        obtain rfl : v = value := current
        rfl
  have reads : ∀ restarted : Node, restarted =
      { saved with cache := ⟨t.cache.sequenceId, ∅, ∅⟩, maxSequence := t.cache.sequenceId } →
      ∃ status last, restarted.gets user key =
        some (status, (stored S' user key).getD [], last) ∧
        (status = .finished ↔ stored S' user key ≠ none) := by
    intro restarted shape
    have disk' : Disk restarted.fs restarted.port S' := by
      rw [shape, port]
      exact disk
    exact gets_emptyCaches disk' (by rw [shape]) (by rw [shape]) name key
  rw [hasFolder_iff live.sound.disk name]
  constructor
  · rintro ⟨saved', restarted, last, status, status', done', replayed, read⟩
    rw [done] at done'
    cases done'
    obtain ⟨fits, -, shape⟩ := (replays restarted status').mp replayed
    obtain ⟨status'', last', read', finished⟩ := reads restarted shape
    rw [read] at read'
    cases read'
    refine ⟨fun gone => finished.mp rfl ?_, fits⟩
    rw [values user key name, if_pos gone]
  · rintro ⟨has, fits⟩
    obtain ⟨status, last, read, finished⟩ := reads _ rfl
    rw [kept has] at read finished
    obtain rfl := finished.mpr (by simp)
    exact ⟨saved, _, last, _, _, done, (replays _ _).mpr ⟨fits, rfl, rfl⟩, read⟩

def firstPuts (user : Str) : Event :=
  (surroundings, { com := .puts, usr := some user, key := pwd, value1 := "one".toList })

theorem oneLine_pwd : OneLine pwd := by decide

theorem plain_firstPuts {user : Str} (name : UserName user) : Plain (firstPuts user).2 :=
  ⟨name, oneLine_pwd⟩

/-- The write of a user who signed up survives. -/
theorem survives_after_puts : ∃ t, turn (smallNode [bob]) (firstPuts bob) = some t ∧
    Survives t (Iteration.stored Loop) bob pwd "one".toList := by
  have outcome : (turn (smallNode [bob]) (firstPuts bob)).map (fun t =>
      decide (HasFolder t bob) &&
        decide (t.cache.sequenceId ≤ INT_MAX)) = some true := by decide +kernel
  obtain ⟨t, ht, holds⟩ := Option.map_eq_some_iff.mp outcome
  rw [Bool.and_eq_true, decide_eq_true_eq, decide_eq_true_eq] at holds
  have plain : ∀ d ∈ [] ++ firstPuts bob :: [], Plain d.2 := by
    intro d hd
    rw [List.mem_singleton.mp hd]
    exact plain_firstPuts userName_bob
  refine ⟨t, ht, (survives_iff started_smallNode plain rfl ht rfl userName_bob ?_ (by simp)
    trivial _).mpr holds⟩
  decide +kernel

def alice : Str := "alice".toList

/-- The write of a user who did not sign up is acknowledged and lost. -/
theorem lost_without_folder :
    ¬ ∀ (n r s t : Node) (before after : List Event) (e : Event), Started n →
      (∀ d ∈ before ++ e :: after, Plain d.2) → run turn n before = some r → turn r e = some s →
      run turn s after = some t → ∀ user key value : Str, UserName user →
      accepted r e = some (user, key, value) → value ≠ [] →
      Along turn (NotOverwritten user key) s after → ∀ it, Survives t it user key value := by
  intro claim
  have outcome : ((turn (smallNode [bob]) (firstPuts alice)).bind fun t =>
      (t.checkpoint (Iteration.stored Loop)).bind fun saved =>
        saved.2.replayLoggings.bind fun restarted =>
          (restarted.2.gets alice pwd).map fun answer => answer.1) = some .userError := by
    decide +kernel
  obtain ⟨t, ht, lost⟩ := Option.bind_eq_some_iff.mp outcome
  have name : UserName alice :=
    userName_of_logName ⟨by decide +kernel, by decide +kernel⟩ (by decide) (by decide)
  have plain : ∀ d ∈ [] ++ firstPuts alice :: [], Plain d.2 := by
    intro d hd
    rw [List.mem_singleton.mp hd]
    exact plain_firstPuts name
  obtain ⟨saved, restarted, last, status, status', done, replayed, read⟩ :=
    claim _ _ _ t [] [] (firstPuts alice) started_smallNode plain rfl ht rfl alice pwd
      "one".toList name (by decide +kernel) (by simp) trivial (Iteration.stored Loop)
  rw [done, Option.bind_some, replayed, Option.bind_some, read] at lost
  cases lost

end Durability
