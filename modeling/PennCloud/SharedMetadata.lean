import PennCloud.HandlerIds

/-!
# Handlers that share the metadata

The metadata of one user as the backend keeps them, where GETS and CPUT are atomic
and any call may fail, also after it took effect. What a handler does with them is
followed call by call: at each call the stored text may be a later one than before.
-/

namespace SharedMetadata

open Text KvInterface UnorderedMap StorageMetadata StorageHandler MetadataIds

/-! The stored metadata -/

/-- How a call ends: it is executed, it is executed and the reply is lost or an error, or it fails
without effect. Calls on other keys are answered in any way. -/
inductive Outcome where
  | served
  | lost (status : KvState)
  | failed (status : KvState)
  | elsewhere (reply : KvReply)
  deriving DecidableEq, Repr

/-- The user and the key of a call. -/
def place : KvCall → Str × Str
  | .gets usr key | .puts usr key _ | .cput usr key _ _ | .dele usr key => (usr, key)

/-- The effect of a call on the metadata. -/
def execute (text : Str) : KvCall → KvReply × Str
  | .gets _ _ => (⟨.finished, text⟩, text)
  | .puts _ _ value => (⟨.finished, []⟩, value)
  | .cput _ _ prevValue newValue =>
    if text = prevValue then (⟨.finished, []⟩, newValue) else (⟨.valueError, []⟩, text)
  | .dele _ _ => (⟨.finished, []⟩, [])

/-- The reply to a call, and the metadata after it. -/
def answer (usr text : Str) (call : KvCall) (outcome : Outcome) : Option (KvReply × Str) :=
  if place call = (usr, kMetadataFp) then
    match outcome with
    | .served => some (execute text call)
    | .lost status =>
      if status = .finished then none else some (⟨status, []⟩, (execute text call).2)
    | .failed status => if status = .finished then none else some (⟨status, []⟩, text)
    | .elsewhere _ => none
  else
    match outcome with
    | .elsewhere reply => some (reply, text)
    | _ => none

/-- The reply to a CPUT of the metadata is FINISHED. -/
def stores (usr : Str) (call : KvCall) (reply : KvReply) : Bool :=
  match call with
  | .cput usr' key _ _ => decide (usr' = usr ∧ key = kMetadataFp ∧ reply.status = .finished)
  | _ => false

/-! Programs that keep the metadata in order -/

/-- Whatever the calls of the program do from a time on when the last id is at least `n`, they leave
metadata with no smaller last id. While the program is to make an entry, the first CPUT of it that is
FINISHED advances the last id to the id that the program gives. -/
def Tame {α : Type} (usr : Str) (gives : Service α → Nat → Prop) (post : Nat → α → Prop) :
    Bool → Nat → Service α → Prop
  | _, n, .done r => post n r
  | _, _, .stuck => True
  | making, n, .ask call next => ∀ k text outcome reply text', n ≤ k → Stored k text →
      answer usr text call outcome = some (reply, text') → ∃ m, k ≤ m ∧ Stored m text' ∧
        (making = true → stores usr call reply = true →
          k < m ∧ ∀ id, gives (.ask call next) id ↔ id = m) ∧
        Tame usr gives post (making && !stores usr call reply) m (next reply)

section Rules
variable {α β : Type} {usr : Str} {gives : Service α → Nat → Prop} {post : Nat → α → Prop}
  {making : Bool} {n : Nat}

theorem tame_ofOption {a : Option β} {f : β → Service α}
    (next : ∀ b, a = some b → Tame usr gives post making n (f b)) :
    Tame usr gives post making n ((Dialogue.ofOption a).bind f) := by
  cases a with
  | none => trivial
  | some b => exact next b rfl

theorem tame_imp {post' : Nat → α → Prop} {p : Service α}
    (weaker : ∀ m a, post m a → post' m a) (tame : Tame usr gives post making n p) :
    Tame usr gives post' making n p := by
  induction p generalizing making n with
  | done a => exact weaker n a tame
  | stuck => trivial
  | ask call next ih =>
    intro k text outcome reply text' le stored answered
    obtain ⟨m, le', stored', made, later⟩ := tame k text outcome reply text' le stored answered
    exact ⟨m, le', stored', made, ih reply later⟩

/-- A program after which another one goes on. -/
theorem tame_bind {p : Service β} {f : β → Service α}
    (first : Tame usr (fun _ _ => True) (fun m b => Tame usr gives post false m (f b)) false n p) :
    Tame usr gives post false n (p.bind f) := by
  induction p generalizing n with
  | done b => exact first
  | stuck => trivial
  | ask call next ih =>
    intro k text outcome reply text' le stored answered
    obtain ⟨m, le', stored', -, later⟩ := first k text outcome reply text' le stored answered
    exact ⟨m, le', stored', nofun, ih reply later⟩

/-- A call on another key leaves the metadata. -/
theorem tame_elsewhere {call : KvCall} {f : KvReply → Service α}
    (other : place call ≠ (usr, kMetadataFp))
    (next : ∀ reply m, n ≤ m → Tame usr gives post making m (f reply)) :
    Tame usr gives post making n ((Dialogue.question call).bind f) := by
  have refused : ∀ reply, stores usr call reply = false := by
    intro reply
    cases call with
    | cput usr' key old new =>
      refine decide_eq_false fun same => other ?_
      rw [place, same.1, same.2.1]
    | _ => rfl
  intro k text outcome reply text' le stored answered
  rw [answer.eq_def, if_neg other] at answered
  split at answered
  · cases answered
    refine ⟨k, le_rfl, stored, fun _ no => absurd no (by simp [refused]), ?_⟩
    rw [refused, Bool.not_false, Bool.and_true]
    exact next reply k le
  · cases answered

/-- A call on the metadata takes effect and is answered, or its reply is no FINISHED. -/
theorem answer_cases {text text' : Str} {call : KvCall} {outcome : Outcome} {reply : KvReply}
    (here : place call = (usr, kMetadataFp))
    (answered : answer usr text call outcome = some (reply, text')) :
    (reply, text') = execute text call ∨ ∃ status, status ≠ .finished ∧ reply = ⟨status, []⟩ ∧
      (text' = text ∨ text' = (execute text call).2) := by
  rw [answer.eq_def, if_pos here] at answered
  cases outcome with
  | served => exact .inl (Option.some.inj answered).symm
  | lost status =>
    obtain ⟨bad, same⟩ := Option.ite_none_left_eq_some.mp answered
    cases same
    exact .inr ⟨status, bad, rfl, .inr rfl⟩
  | failed status =>
    obtain ⟨bad, same⟩ := Option.ite_none_left_eq_some.mp answered
    cases same
    exact .inr ⟨status, bad, rfl, .inl rfl⟩
  | elsewhere reply => cases answered

/-- A call after which the program is as far as before. -/
theorem tame_unstored {call : KvCall} {next : KvReply → Service α} {k m : Nat} {text : Str}
    {reply : KvReply} (refused : stores usr call reply = false) (le : k ≤ m) (stored : Stored m text)
    (later : Tame usr gives post making m (next reply)) :
    ∃ m, k ≤ m ∧ Stored m text ∧ (making = true → stores usr call reply = true →
      k < m ∧ ∀ id, gives (.ask call next) id ↔ id = m) ∧
      Tame usr gives post (making && !stores usr call reply) m (next reply) := by
  refine ⟨m, le, stored, fun _ yes => absurd yes (by simp [refused]), ?_⟩
  rwa [refused, Bool.not_false, Bool.and_true]

theorem tame_gets {f : KvReply → Service α}
    (served : ∀ m text, n ≤ m → Stored m text → Tame usr gives post making m (f ⟨.finished, text⟩))
    (failed : ∀ status m, status ≠ .finished → n ≤ m →
      Tame usr gives post making m (f ⟨status, []⟩)) :
    Tame usr gives post making n ((Dialogue.question (.gets usr kMetadataFp)).bind f) := by
  intro k text outcome reply text' le stored answered
  rcases answer_cases rfl answered with done | ⟨status, bad, rfl, same⟩
  · cases done
    exact tame_unstored rfl le_rfl stored (served k text le stored)
  · obtain rfl : text' = text := same.elim id id
    exact tame_unstored rfl le_rfl stored (failed status k bad le)

/-- A CPUT that replaces what it compares with by metadata with the last id `m`. -/
theorem tame_cput {old new : Str} {m : Nat} {f : KvReply → Service α}
    (known : ∀ k, n ≤ k → Stored k old → k ≤ m) (printed : Stored m new)
    (gave : making = true → ∀ k, n ≤ k → Stored k old → k < m ∧
      ∀ id, gives ((Dialogue.question (.cput usr kMetadataFp old new)).bind f) id ↔ id = m)
    (stored : n ≤ m → Tame usr gives post false m (f ⟨.finished, []⟩))
    (failed : ∀ status k, status ≠ .finished → n ≤ k →
      Tame usr gives post making k (f ⟨status, []⟩)) :
    Tame usr gives post making n ((Dialogue.question (.cput usr kMetadataFp old new)).bind f) := by
  intro k text outcome reply text' le before answered
  have unfinished : ∀ status : KvState, status ≠ .finished →
      stores usr (.cput usr kMetadataFp old new) ⟨status, []⟩ = false := fun status bad => by
    simp [stores, bad]
  by_cases same : text = old
  · subst same
    have advanced := known k le before
    have effect : execute text (.cput usr kMetadataFp text new) = (⟨.finished, []⟩, new) :=
      if_pos rfl
    rcases answer_cases rfl answered with done | ⟨status, bad, rfl, rfl | rfl⟩
    · cases done.trans effect
      refine ⟨m, advanced, printed, fun yes _ => gave yes k le before, ?_⟩
      rw [show stores usr (.cput usr kMetadataFp text new) ⟨.finished, []⟩ = true by simp [stores],
        Bool.not_true, Bool.and_false]
      exact stored (le.trans advanced)
    · exact tame_unstored (unfinished status bad) le_rfl before (failed status k bad le)
    · rw [effect]
      exact tame_unstored (unfinished status bad) advanced printed
        (failed status m bad (le.trans advanced))
  · have effect : execute text (.cput usr kMetadataFp old new) = (⟨.valueError, []⟩, text) :=
      if_neg same
    have refused : ∃ status, status ≠ .finished ∧ reply = ⟨status, []⟩ ∧ text' = text := by
      rcases answer_cases rfl answered with done | ⟨status, bad, isReply, kept⟩
      · cases done.trans effect
        exact ⟨.valueError, by decide, rfl, rfl⟩
      · rw [effect] at kept
        exact ⟨status, bad, isReply, kept.elim id id⟩
    obtain ⟨status, bad, rfl, rfl⟩ := refused
    exact tame_unstored (unfinished status bad) le_rfl before (failed status k bad le)

/-! What a handler knows -/

/-- A handler between its calls: its last id is that of the text it would replace, if that text is
ever stored. -/
def Knows (usr : Str) (n : Nat) (h : Handler) : Prop :=
  ∃ text, Sound usr n (some n) text h ∧ ∀ k, Stored k text → k = n

theorem not_stored_nil {n : Nat} : ¬ Stored n [] := by
  rintro ⟨lines, same, -⟩
  rw [MetadataText.unlines_cons] at same
  exact List.append_ne_nil_of_right_ne_nil _ (List.cons_ne_nil _ _) same.symm

theorem tame_read {env : Env} {h : Handler} {k : Nat} {f : Bool × Handler → Service α}
    (knows : Knows usr k h) (le : k ≤ n)
    (next : ∀ read j m, Knows usr j read.2 → j ≤ m → n ≤ m →
      Tame usr gives post making m (f read)) :
    Tame usr gives post making n ((readMetadata env h).bind f) := by
  obtain ⟨old, sound, only⟩ := knows
  obtain rfl := sound.usr
  rw [readMetadata, Dialogue.bind_assoc]
  refine tame_gets (fun m text le' stored => tame_ofOption fun read parsed => ?_)
    fun status m bad le' => ?_
  · have reading : Sound h.usr k (some k) text { h with metadataStr := text } :=
      ⟨rfl, sound.latestId, rfl, sound.objects⟩
    obtain ⟨-, known⟩ := reading.parseMetadataFile (le.trans le') stored parsed
    exact next read m m ⟨text, known, fun i again => again.unique stored⟩ le_rfl le'
  · simp only [ne_eq, bad, not_false_eq_true, if_true]
    by_cases broken : status = .linkError
    · rw [if_pos broken]
      exact next _ k m ⟨old, sound, only⟩ (le.trans le') le'
    · rw [if_neg broken]
      exact next _ k m ⟨[], ⟨rfl, sound.latestId, rfl, sound.objects⟩,
        fun j stored => absurd stored not_stored_nil⟩ (le.trans le') le'

/-- What is printed is stored with one call. -/
theorem writeMetadataToKv_bind {env : Env} {h : Handler} {new : Str} {f : Bool × Str → Service α}
    (printed : h.getMetadataStr env = some new) : (writeMetadataToKv env h).bind f =
      (Dialogue.question (.cput h.usr kMetadataFp h.metadataStr new)).bind
        fun reply => f (decide (reply.status = .finished), new) := by
  rw [writeMetadataToKv, printed]
  rfl

theorem writeMetadataToKv_stuck {env : Env} {h : Handler} {f : Bool × Str → Service α}
    (printed : h.getMetadataStr env = none) : (writeMetadataToKv env h).bind f = .stuck := by
  rw [writeMetadataToKv, printed]
  rfl

/-- The metadata with a change that makes no entry. -/
theorem tame_write {env : Env} {h : Handler} {k : Nat} {f : Bool × Str → Service α}
    (knows : Knows usr k h)
    (stored : ∀ new, Stored k new → n ≤ k → Tame usr gives post false k (f (true, new)))
    (failed : ∀ new m, n ≤ m → Tame usr gives post false m (f (false, new))) :
    Tame usr gives post false n ((writeMetadataToKv env h).bind f) := by
  obtain ⟨old, sound, only⟩ := knows
  cases printed : h.getMetadataStr env with
  | none =>
    rw [writeMetadataToKv_stuck printed]
    trivial
  | some new =>
    have text := sound.getMetadataStr printed
    rw [writeMetadataToKv_bind printed, sound.usr, sound.metadataStr]
    refine tame_cput (fun j _ before => (only j before).le) text nofun (stored new text)
      fun status m bad le' => ?_
    rw [decide_eq_false bad]
    exact failed new m le'

end Rules

/-! Lookups -/

section Lookups
variable {usr text : Str} {n : Nat} {latest : Option Nat} {h : Handler}

theorem lastName_slash (token rest : Str) : lastName (token ++ '/' :: rest) = lastName rest := by
  have ended : (rest.reverse ++ '/' :: token.reverse).takeWhile (· ≠ '/') =
      rest.reverse.takeWhile (· ≠ '/') := by
    rw [List.takeWhile_append]
    split
    · rename_i whole
      rw [(List.takeWhile_prefix _).eq_of_length whole, List.takeWhile_cons_of_neg (by simp),
        List.append_nil]
    · rfl
  rw [lastName, List.reverse_append, List.reverse_cons, List.append_assoc, List.singleton_append,
    ended, lastName]

theorem lastName_name {token : Str} (name : '/' ∉ token) : lastName token = token := by
  have all : token.reverse.takeWhile (· ≠ '/') = token.reverse := by
    refine List.takeWhile_eq_self_iff.mpr fun c mem => decide_eq_true ?_
    rintro rfl
    exact name (List.mem_reverse.mp mem)
  rw [lastName, all, List.reverse_reverse]

/-- Names that are found are names of entries. A name that is not found below a directory is the
last of the path. -/
theorem sound_walk {parent : Option Ptr} {relativePath token path : Str} {found : Found}
    (sound : Sound usr n latest text h) (spelled : ∀ c ∈ relativePath, pathChar c = true)
    (name : '/' ∉ token) (walked : walk h parent relativePath token path = some found) :
    Sound usr n latest text found.handler ∧
      (found.valid = true → ∀ c ∈ found.relativePath, pathChar c = true) ∧
      (found.valid = false → found.parentDir.isSome →
        found.relativePath = lastName (token ++ path)) := by
  induction path generalizing parent relativePath token with
  | nil =>
    rw [StorageMetadata.walk] at walked
    rw [List.append_nil, lastName_name name]
    obtain ⟨known, looked, walked⟩ := Option.bind_eq_some_iff.mp walked
    by_cases empty : token = []
    · simp only [if_pos empty] at looked walked
      cases looked
      obtain ⟨r, got, rfl⟩ := Option.map_eq_some_iff.mp walked
      exact ⟨sound.getEntry spelled got, fun _ => spelled, nofun⟩
    · simp only [if_neg empty] at looked walked
      obtain ⟨d, object, rfl⟩ := Option.map_eq_some_iff.mp looked
      split at walked
      · rename_i listed
        obtain ⟨entry, found⟩ := Option.isSome_iff_exists.mp listed
        have known := (sound.deref object).entries token entry found
        obtain ⟨r, got, rfl⟩ := Option.map_eq_some_iff.mp walked
        exact ⟨sound.getEntry known got, fun _ => known, nofun⟩
      · cases walked
        exact ⟨sound, nofun, fun _ _ => rfl⟩
  | cons c path ih =>
    rw [StorageMetadata.walk] at walked
    split at walked
    · rename_i slash
      subst slash
      split at walked
      · rename_i skipped
        subst skipped
        rw [lastName_slash]
        exact ih spelled (by simp) walked
      · obtain ⟨d, object, walked⟩ := Option.bind_eq_some_iff.mp walked
        split at walked
        · rename_i entry listed
          rw [lastName_slash]
          exact ih ((sound.deref object).entries token entry listed) (by simp) walked
        · cases walked
          exact ⟨sound, nofun, fun _ no => by cases no⟩
    · rename_i slash
      rw [List.append_cons]
      exact ih spelled (by simpa [name] using Ne.symm slash) walked

theorem Knows.validate {k : Nat} {path : Str} {found : Found} (knows : Knows usr k h)
    (walked : h.validatePathAndGetDir path = some found) :
    Knows usr k found.handler ∧
      (found.valid = true → ∀ c ∈ found.relativePath, pathChar c = true) ∧
      (found.valid = false → found.parentDir.isSome → found.relativePath = lastName path) := by
  obtain ⟨text, sound, only⟩ := knows
  rw [Handler.validatePathAndGetDir] at walked
  split at walked
  · cases walked
    exact ⟨⟨text, sound, only⟩, fun _ => by simp, nofun⟩
  · obtain ⟨sound', names⟩ := sound_walk sound (by simp) (by simp) walked
    exact ⟨⟨text, sound', only⟩, names⟩

end Lookups

/-! Changes of the tree -/

section Changes
variable {usr : Str} {k : Nat} {env : Env} {h h' : Handler} {parentDir curDir newDir : Option Ptr}
  {relativePath newName : Str}

theorem Knows.update {p : Option Ptr} {f : Dirent → Dirent} (knows : Knows usr k h)
    (keeps : ∀ d, Fit k d → Fit k (f d)) (updated : h.update p f = some h') : Knows usr k h' := by
  obtain ⟨text, sound, only⟩ := knows
  exact ⟨text, sound.update keeps updated, only⟩

theorem Knows.addEntry {p entry : Option Ptr} (knows : Knows usr k h)
    (spelled : ∀ c ∈ relativePath, pathChar c = true)
    (updated : h.update p (Dirent.addEntry relativePath entry) = some h') : Knows usr k h' :=
  knows.update (fun _ => Fit.addEntry spelled entry) updated

theorem Knows.deleteEntry {p : Option Ptr} (knows : Knows usr k h)
    (updated : h.update p (Dirent.deleteEntry relativePath) = some h') : Knows usr k h' :=
  knows.update (fun _ => Fit.deleteEntry relativePath) updated

theorem Knows.updateParent {p parent : Option Ptr} (knows : Knows usr k h)
    (updated : h.update p (Dirent.updateParent parent) = some h') : Knows usr k h' :=
  knows.update (fun _ => Fit.updateParent parent) updated

theorem Knows.updateRelativePath {p : Option Ptr} (knows : Knows usr k h)
    (spelled : ∀ c ∈ newName, pathChar c = true)
    (updated : h.update p (Dirent.updateRelativePath newName) = some h') : Knows usr k h' :=
  knows.update (fun _ => Fit.updateRelativePath spelled) updated

theorem Knows.directories (knows : Knows usr k h) (directories : UMap Nat Ptr) :
    Knows usr k { h with directories := directories } := by
  obtain ⟨text, sound, only⟩ := knows
  exact ⟨text, sound.directories directories, only⟩

theorem Knows.free (knows : Knows usr k h) (p : Option Ptr) : Knows usr k (h.free p) := by
  obtain ⟨text, sound, only⟩ := knows
  exact ⟨text, sound.free p, only⟩

/-- The text is replaced by one that has the last id. -/
theorem Knows.stored (knows : Knows usr k h) {new : Str} (text : Stored k new) :
    Knows usr k { h with metadataStr := new } := by
  obtain ⟨old, sound, only⟩ := knows
  exact ⟨new, ⟨sound.usr, sound.latestId, rfl, sound.objects⟩, fun j again => again.unique text⟩

theorem Knows.renameEntry (knows : Knows usr k h) (spelled : ∀ c ∈ newName, pathChar c = true)
    (renamed : renameEntry env h parentDir curDir relativePath newName = some h') :
    Knows usr k h' := by
  obtain ⟨path, -, renamed⟩ := Option.bind_eq_some_iff.mp renamed
  obtain ⟨named, first, renamed⟩ := Option.bind_eq_some_iff.mp renamed
  obtain ⟨removed, second, added⟩ := Option.bind_eq_some_iff.mp renamed
  exact ((knows.updateRelativePath spelled first).deleteEntry second).addEntry spelled added

theorem Knows.revertRename (knows : Knows usr k h)
    (spelled : ∀ c ∈ relativePath, pathChar c = true)
    (reverted : revertRename h parentDir curDir relativePath newName = some h') :
    Knows usr k h' := by
  obtain ⟨named, first, reverted⟩ := Option.bind_eq_some_iff.mp reverted
  obtain ⟨removed, second, added⟩ := Option.bind_eq_some_iff.mp reverted
  exact ((knows.updateRelativePath spelled first).deleteEntry second).addEntry spelled added

theorem Knows.moveEntry (knows : Knows usr k h)
    (spelled : ∀ c ∈ relativePath, pathChar c = true)
    (moved : moveEntry env h parentDir curDir newDir relativePath = some h') : Knows usr k h' := by
  obtain ⟨path, -, moved⟩ := Option.bind_eq_some_iff.mp moved
  obtain ⟨linked, first, moved⟩ := Option.bind_eq_some_iff.mp moved
  obtain ⟨removed, second, added⟩ := Option.bind_eq_some_iff.mp moved
  exact ((knows.updateParent first).deleteEntry second).addEntry spelled added

theorem Knows.revertMove (knows : Knows usr k h)
    (spelled : ∀ c ∈ relativePath, pathChar c = true)
    (reverted : revertMove h parentDir curDir newDir relativePath = some h') : Knows usr k h' := by
  obtain ⟨linked, first, reverted⟩ := Option.bind_eq_some_iff.mp reverted
  obtain ⟨added, second, removed⟩ := Option.bind_eq_some_iff.mp reverted
  exact ((knows.updateParent first).addEntry spelled second).deleteEntry removed

theorem Knows.removeEntry {id : Nat} (knows : Knows usr k h)
    (removed : removeEntry h parentDir relativePath id = some h') : Knows usr k h' := by
  obtain ⟨without, first, rfl⟩ := Option.map_eq_some_iff.mp removed
  exact (knows.deleteEntry first).directories _

theorem Knows.revertRemove {id : Nat} {dir : Option Ptr} (knows : Knows usr k h)
    (spelled : ∀ c ∈ relativePath, pathChar c = true)
    (reverted : revertRemove h parentDir relativePath id dir = some h') : Knows usr k h' := by
  cases dir with
  | none => exact knows.addEntry spelled reverted
  | some p => exact (knows.directories _).addEntry spelled reverted

end Changes

/-! The handlers -/

/-- A handler after a request. -/
def Rests (usr : Str) (n : Nat) (r : Handler × StorageServiceResp) : Prop :=
  ∃ k, k ≤ n ∧ Knows usr k r.1

section Handlers
variable {α : Type} {usr : Str} {gives : Service (Handler × StorageServiceResp) → Nat → Prop}
  {k n : Nat} {env : Env} {h : Handler} {resp : StorageServiceResp}

/-- How move, rename and removal end. -/
theorem tame_change {gives : Service α → Nat → Prop} {post : Nat → α → Prop}
    {reverted : Option Handler} {stored : Bool × Str → Service α}
    {again : Bool × Handler → Service α} (knows : Knows usr k h) (le : k ≤ n)
    (done : ∀ new, Stored k new → Tame usr gives post false k (stored (true, new)))
    (back : ∀ h, reverted = some h → Knows usr k h)
    (later : ∀ read j m, Knows usr j read.2 → j ≤ m → Tame usr gives post false m (again read)) :
    Tame usr gives post false n ((writeMetadataToKv env h).bind fun written =>
      if written.1 then stored written
      else (Dialogue.ofOption reverted).bind fun h => (readMetadata env h).bind again) := by
  refine tame_write knows (fun new text _ => done new text) fun new m le' => ?_
  refine tame_ofOption fun h back' => ?_
  exact tame_read (back h back') (le.trans le') fun read j m' known small _ =>
    later read j m' known small

theorem tame_move {path newDir : Str} {attempts : Nat} (knows : Knows usr k h) (le : k ≤ n) :
    Tame usr gives (Rests usr) false n (handleMove env path newDir attempts h resp) := by
  induction attempts generalizing h resp k n with
  | zero => exact ⟨k, le, knows⟩
  | succ attempts ih =>
    rw [handleMove]
    refine tame_ofOption fun old found => ?_
    obtain ⟨known, spelled, -⟩ := knows.validate found
    split
    · exact ⟨k, le, known⟩
    · rename_i valid
      have name := spelled (by simpa using valid)
      refine tame_ofOption fun new located => ?_
      obtain ⟨known', -⟩ := known.validate located
      split
      · exact ⟨k, le, known'⟩
      · refine tame_ofOption fun h' moved => ?_
        have changed := known'.moveEntry name moved
        refine tame_change changed le (fun text stored => ⟨k, le_rfl, changed.stored stored⟩)
          (fun h back => changed.revertMove name back) fun read j m read' small => ?_
        split
        · exact ih read' small
        · exact ⟨j, small, read'⟩

theorem tame_rename {oldPath newName : Str} (new : ∀ c ∈ newName, pathChar c = true)
    {attempts : Nat} (knows : Knows usr k h) (le : k ≤ n) :
    Tame usr gives (Rests usr) false n (handleRename env oldPath newName attempts h resp) := by
  induction attempts generalizing h resp k n with
  | zero => exact ⟨k, le, knows⟩
  | succ attempts ih =>
    rw [handleRename]
    refine tame_ofOption fun found located => ?_
    obtain ⟨known, spelled, -⟩ := knows.validate located
    split
    · exact ⟨k, le, known⟩
    · rename_i valid
      refine tame_ofOption fun h' renamed => ?_
      have changed := known.renameEntry new renamed
      have name := spelled (by simpa using valid)
      refine tame_change changed le (fun text stored => ⟨k, le_rfl, changed.stored stored⟩)
        (fun h back => changed.revertRename name back) fun read j m read' small => ?_
      split
      · exact ih read' small
      · exact ⟨j, small, read'⟩

theorem toDecimal_ne_metadata (id : Nat) : toDecimal id ≠ kMetadataFp := by
  intro same
  have letter : 's' ∈ toDecimal id := by
    rw [same]
    decide +kernel
  exact absurd (isDigit_of_mem_toDecimal letter) (by decide)

/-- The content of an entry is not the metadata. -/
theorem content_elsewhere {usr' : Str} (id : Nat) :
    place (.dele usr' (toDecimal id)) ≠ (usr, kMetadataFp) :=
  fun same => toDecimal_ne_metadata id (congrArg Prod.snd same)

theorem tame_deleteEach {gives : Service (Bool × Handler × StorageServiceResp) → Nat → Prop}
    {delete : Str → Handler → StorageServiceResp → Service (Handler × StorageServiceResp)}
    (each : ∀ path h resp k n, Knows usr k h → k ≤ n →
      Tame usr (fun _ _ => True) (Rests usr) false n (delete path h resp))
    (paths : List Str) (knows : Knows usr k h) (le : k ≤ n) :
    Tame usr gives (fun m r => Rests usr m r.2) false n (deleteEach delete paths h resp) := by
  induction paths generalizing h resp k n with
  | nil => exact ⟨k, le, knows⟩
  | cons path paths ih =>
    rw [deleteEach]
    refine tame_bind (tame_imp (fun m r rests => ?_) (each path h resp k n knows le))
    obtain ⟨j, small, known⟩ := rests
    split
    · exact ⟨j, small, known⟩
    · exact ih known small

/-- A directory is emptied first. -/
theorem tame_empty {gives : Service (Bool × Handler × StorageServiceResp) → Nat → Prop}
    {delete : Str → Handler → StorageServiceResp → Service (Handler × StorageServiceResp)}
    (each : ∀ path h resp k n, Knows usr k h → k ≤ n →
      Tame usr (fun _ _ => True) (Rests usr) false n (delete path h resp))
    (nonempty : Bool) (paths : Option (List Str)) (knows : Knows usr k h) (le : k ≤ n) :
    Tame usr gives (fun m r => Rests usr m r.2) false n (if nonempty then
      (Dialogue.ofOption paths).bind fun paths => deleteEach delete paths h resp
      else .done (true, h, resp)) := by
  split
  · exact tame_ofOption fun paths _ => tame_deleteEach each paths knows le
  · exact ⟨k, le, knows⟩

/-- The content of a file is deleted next. -/
theorem tame_dele {gives : Service Bool → Nat → Prop} {post : Nat → Bool → Prop} {usr' : Str}
    (isFile : Bool) (id : Nat) (next : ∀ deleted m, n ≤ m → post m deleted) :
    Tame usr gives post false n (if isFile then
      (Dialogue.question (.dele usr' (toDecimal id))).bind fun reply =>
        .done (decide (reply.status = .finished)) else .done true) := by
  split
  · exact tame_elsewhere (content_elsewhere id) fun reply m le => next _ m le
  · exact next true n le_rfl

theorem tame_delete {fuel attempts : Nat} {expectKvFailure : Bool} {fp : Str}
    (knows : Knows usr k h) (le : k ≤ n) :
    Tame usr gives (Rests usr) false n
      (handleDelete env fuel attempts expectKvFailure fp h resp) := by
  induction fuel generalizing attempts expectKvFailure fp h resp k n gives with
  | zero => trivial
  | succ fuel ih =>
    cases attempts with
    | zero => exact ⟨k, le, knows⟩
    | succ attempts =>
      rw [handleDelete]
      refine tame_ofOption fun found located => ?_
      obtain ⟨known, spelled, -⟩ := knows.validate located
      split
      · exact ⟨k, le, known⟩
      · rename_i valid
        have name := spelled (by simpa using valid)
        refine tame_ofOption fun curDir object => ?_
        have each : ∀ path h resp k n, Knows usr k h → k ≤ n → Tame usr (fun _ _ => True)
            (Rests usr) false n (handleDelete env fuel 1 expectKvFailure path h resp) :=
          fun path h resp k n knows le => ih knows le
        refine tame_bind (tame_imp (fun m emptied rests => ?_) (tame_empty each _ _ known le))
        obtain ⟨j, small, known⟩ := rests
        split
        · exact ⟨j, small, known⟩
        · refine tame_bind (tame_dele _ _ fun deleted m' le' => ?_)
          split
          · exact ⟨j, small.trans le', known⟩
          · refine tame_ofOption fun h' removed => ?_
            have changed := known.removeEntry removed
            refine tame_change changed (small.trans le')
              (fun text stored => ⟨j, le_rfl, (changed.free _).stored stored⟩)
              (fun h back => changed.revertRemove name back) fun read i m read' small' => ?_
            split
            · exact ih read' small'
            · exact ⟨i, small', read'⟩

end Handlers

end SharedMetadata
