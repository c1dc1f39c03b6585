import PennCloud.Login
import PennCloud.MadeIds
import PennCloud.Runs

/-!
# Ids are never reused

Any number of handlers of one user, in any order of their calls. Each opens with
the stored metadata and then serves requests. A file id is fresh because the CPUT
compares the whole text, which says the last id.
-/

namespace SharedMetadata

open Text KvInterface UnorderedMap StorageMetadata StorageHandler MetadataText MetadataIds Runs

/-! The checks of the web forms -/

def validChar (c : Char) : Bool :=
  if c.toNat ≤ 0x20 ∨ 0x7e < c.toNat then false
  else if !c.isAlpha && !c.isDigit && c ≠ '.' && c ≠ '-' && c ≠ '_' then false
  else true

/-- `valid_filename`. -/
def validFilename (name : Str) : Bool := name.all validChar

/-- The form of the request lets its new name pass: `valid_filename` where an entry is made, and the
alphabet of `kRenameRegex` where one is renamed. -/
def Checked (req : StorageServiceReq) : Prop :=
  (creates req = true → validFilename (lastName (creationPath req)) = true) ∧
  ∀ oldPath newName, req.request = .renameReq oldPath newName → newName.all pathChar = true

theorem pathChar_of_validChar {c : Char} (valid : validChar c = true) : pathChar c = true := by
  unfold validChar at valid
  unfold pathChar
  simp only [Char.isAlphanum]
  grind

theorem Checked.named {req : StorageServiceReq} (checked : Checked req) : Named req := by
  refine ⟨fun makes c mem => ?_, fun oldPath newName renames c mem => ?_⟩
  · exact pathChar_of_validChar (List.all_eq_true.mp (checked.1 makes) c mem)
  · exact List.all_eq_true.mp (checked.2 oldPath newName renames) c mem

/-! The handlers and the store -/

/-- What a handler is doing. While it is to make an entry, its CPUT has not been FINISHED. -/
inductive Activity where
  | absent
  | opening (program : Service (Bool × Handler))
  | serving (env : Env) (req : StorageServiceReq) (making : Bool)
      (program : Service (Handler × StorageServiceResp))

/-- The handler between two requests. -/
def Activity.handler : Activity → Option Handler
  | .opening (.done (true, h)) => some h
  | .serving _ _ _ (.done (h, _)) => some h
  | _ => none

/-- A creation or an upload whose CPUT was FINISHED, with the program that made the call. -/
structure Commit (ι : Type) where
  who : ι
  env : Env
  req : StorageServiceReq
  program : Service (Handler × StorageServiceResp)

def Commit.Gives {ι : Type} (c : Commit ι) (id : Nat) : Prop :=
  SharedMetadata.Gives c.env c.req c.program id

structure System (ι : Type) where
  text : Str
  activity : ι → Activity
  commits : List (Commit ι)

/-- A new handler opens, a handler turns to a request, or a call of a handler is answered. -/
inductive Event (ι : Type) where
  | start (who : ι) (env : Env) (fd : Int)
  | request (who : ι) (env : Env) (req : StorageServiceReq)
  | call (who : ι) (outcome : Outcome)

def Event.Checked {ι : Type} : Event ι → Prop
  | .request _ _ req => SharedMetadata.Checked req
  | _ => True

/-- `initialize_usr`. -/
def initialMetadata (usr : Str) : Str :=
  "Latest ID: 1\nRoot folder: /".toList ++ (usr ++ " ID 1 Items 0\n".toList)

def initial (ι : Type) (usr : Str) : System ι := ⟨initialMetadata usr, fun _ => .absent, []⟩

section Step
variable {ι : Type} [DecidableEq ι]

def System.set (s : System ι) (who : ι) (activity : Activity) : System ι :=
  { s with activity := Function.update s.activity who activity }

/-- The answer to the call that the program waits for. -/
def respond {α : Type} (usr text : Str) (outcome : Outcome) :
    Service α → Option (KvCall × KvReply × Str × Service α)
  | .ask call next => (answer usr text call outcome).map fun r => (call, r.1, r.2, next r.1)
  | _ => none

def step (usr : Str) (s : System ι) : Event ι → Option (System ι)
  | .start who env fd =>
    some (s.set who (.opening (readMetadata env { usr := usr, backendFd := fd })))
  | .request who env req => (s.activity who).handler.map fun h =>
    s.set who (.serving env req (creates req) (handleRequest env h req))
  | .call who outcome =>
    match s.activity who with
    | .absent => none
    | .opening program => (respond usr s.text outcome program).map fun (_, _, text, rest) =>
      { s with text := text }.set who (.opening rest)
    | .serving env req making program =>
      (respond usr s.text outcome program).map fun (call, reply, text, rest) =>
        let stored := stores usr call reply
        { s with
          text := text
          commits := if making && stored then ⟨who, env, req, program⟩ :: s.commits
            else s.commits }.set who (.serving env req (making && !stored) rest)

end Step

/-! What is always so -/

section Order
variable {ι : Type}

/-- A handler that is opened knows the last id. -/
def Opened (usr : Str) (n : Nat) (r : Bool × Handler) : Prop :=
  r.1 = true → ∃ k, k ≤ n ∧ Knows usr k r.2

/-- The program of a handler keeps the metadata in order since some earlier last id. -/
def Behaves (usr : Str) (n : Nat) : Activity → Prop
  | .absent => True
  | .opening program => ∃ k, k ≤ n ∧ Tame usr (fun _ _ => True) (Opened usr) false k program
  | .serving env req making program =>
    ∃ k, k ≤ n ∧ Tame usr (SharedMetadata.Gives env req) (Rests usr) making k program

/-- The metadata with the last id `n`, above which no id was given. -/
structure Ordered (usr : Str) (n : Nat) (s : System ι) : Prop where
  stored : Stored n s.text
  behaves : ∀ who, Behaves usr n (s.activity who)
  given : ∀ c ∈ s.commits, ∃ id, id ≤ n ∧ ∀ other, c.Gives other ↔ other = id
  distinct : s.commits.Pairwise fun a b => ∀ id, a.Gives id → ¬ b.Gives id

section Behaves
variable {usr : Str} {n : Nat}

theorem Behaves.mono {m : Nat} {activity : Activity} (le : n ≤ m)
    (behaves : Behaves usr n activity) : Behaves usr m activity := by
  cases activity with
  | absent => trivial
  | opening program =>
    obtain ⟨k, small, tame⟩ := behaves
    exact ⟨k, small.trans le, tame⟩
  | serving env req making program =>
    obtain ⟨k, small, tame⟩ := behaves
    exact ⟨k, small.trans le, tame⟩

theorem Behaves.knows {activity : Activity} {h : Handler} (behaves : Behaves usr n activity)
    (ready : activity.handler = some h) : ∃ k, k ≤ n ∧ Knows usr k h := by
  cases activity with
  | absent => cases ready
  | opening program =>
    obtain ⟨k, small, tame⟩ := behaves
    cases program with
    | done r =>
      obtain ⟨opened, h'⟩ := r
      cases opened <;> cases ready
      obtain ⟨j, le, knows⟩ := tame rfl
      exact ⟨j, le.trans small, knows⟩
    | stuck => cases ready
    | ask call next => cases ready
  | serving env req making program =>
    obtain ⟨k, small, tame⟩ := behaves
    cases program with
    | done r =>
      cases ready
      obtain ⟨j, le, knows⟩ := tame
      exact ⟨j, le.trans small, knows⟩
    | stuck => cases ready
    | ask call next => cases ready

/-- A new handler behaves. -/
theorem tame_open (env : Env) (fd : Int) : Tame usr (fun _ _ => True) (Opened usr) false n
    (readMetadata env { usr := usr, backendFd := fd }) := by
  refine tame_gets (fun m text le stored => ?_) fun status m bad le => ?_
  · have new : Sound usr 0 none text
        { usr := usr, backendFd := fd, metadataStr := text } := ⟨rfl, rfl, rfl, nofun⟩
    have parses : Tame usr (fun _ _ => True) (Opened usr) false m (.ofOption
        (Handler.parseMetadataFile env { usr := usr, backendFd := fd, metadataStr := text })) := by
      cases parsed : Handler.parseMetadataFile env
          { usr := usr, backendFd := fd, metadataStr := text } with
      | none => trivial
      | some read =>
        obtain ⟨-, known⟩ := new.parseMetadataFile (Nat.zero_le m) stored parsed
        exact fun _ => ⟨m, le_rfl, text, known, fun j again => again.unique stored⟩
    exact parses
  · rw [if_pos bad]
    exact nofun

theorem Tame.respond {α : Type} {gives : Service α → Nat → Prop} {post : Nat → α → Prop}
    {making : Bool} {k : Nat} {program rest : Service α} {text text' : Str} {outcome : Outcome}
    {call : KvCall} {reply : KvReply} (tame : Tame usr gives post making k program) (le : k ≤ n)
    (stored : Stored n text)
    (responded : respond usr text outcome program = some (call, reply, text', rest)) :
    ∃ m, n ≤ m ∧ Stored m text' ∧ (making = true → stores usr call reply = true →
      n < m ∧ ∀ id, gives program id ↔ id = m) ∧
      Tame usr gives post (making && !stores usr call reply) m rest := by
  cases program with
  | done r => cases responded
  | stuck => cases responded
  | ask query next =>
    obtain ⟨r, answered, same⟩ := Option.map_eq_some_iff.mp responded
    cases same
    exact tame n text outcome r.1 r.2 le stored answered

/-- Two lines, cut around the name of the user. -/
theorem unlines_around (latest root ident items first second name : Str) :
    latest ++ (first ++ '\n' :: (root ++ ['/'])) ++
      (name ++ (ident ++ (first ++ (items ++ (second ++ ['\n']))))) =
    unlines [latest ++ first,
      root ++ ('/' :: name ++ (ident ++ (first ++ (items ++ second))))] := by
  simp [unlines]

/-- The first metadata are in order. -/
theorem stored_initialMetadata (valid : Login.validUsername usr = true) :
    Stored 1 (initialMetadata usr) := by
  refine ⟨[headerLine rootWords ('/' :: usr) 1 0], ?_, ?_⟩
  · have first : "Latest ID: 1\nRoot folder: /".toList =
        latestWords ++ (toDecimal 1 ++ '\n' :: (rootWords ++ ['/'])) := by decide +kernel
    have last : " ID 1 Items 0\n".toList =
        " ID ".toList ++ (toDecimal 1 ++ (" Items ".toList ++ (toDecimal 0 ++ ['\n']))) := by
      decide +kernel
    exact (congrArg₂ (fun a b => a ++ (usr ++ b)) first last).trans (unlines_around _ _ _ _ _ _ _)
  · have dark : ∀ c ∈ '/' :: usr, isSpace c = false :=
      List.forall_mem_cons.mpr ⟨by decide, fun c mem =>
        Login.not_space_of_valid (Login.validUserchar_of_mem valid mem)⟩
    exact List.forall_mem_singleton.mpr (.root 0 dark le_rfl)

theorem ordered_initial (valid : Login.validUsername usr = true) :
    Ordered usr 1 (initial ι usr) where
  stored := stored_initialMetadata valid
  behaves _ := trivial
  given := nofun
  distinct := .nil

end Behaves

variable [DecidableEq ι] {usr : Str} {n : Nat} {s t : System ι}

theorem Ordered.set {m : Nat} {activity : Activity} (ordered : Ordered usr n s) (le : n ≤ m)
    (who : ι) (behaves : Behaves usr m activity) (other : ι) :
    Behaves usr m ((s.set who activity).activity other) := by
  by_cases same : other = who
  · subst same
    simpa only [System.set, Function.update_self] using behaves
  · simpa only [System.set, Function.update_of_ne same] using (ordered.behaves other).mono le

theorem ordered_step {e : Event ι} (checked : e.Checked) (ordered : Ordered usr n s)
    (stepped : step usr s e = some t) : ∃ m, n ≤ m ∧ Ordered usr m t := by
  cases e with
  | start who env fd =>
    cases stepped
    exact ⟨n, le_rfl, ordered.stored,
      ordered.set le_rfl who ⟨n, le_rfl, tame_open env fd⟩, ordered.given, ordered.distinct⟩
  | request who env req =>
    obtain ⟨h, ready, rfl⟩ := Option.map_eq_some_iff.mp stepped
    obtain ⟨k, le, knows⟩ := (ordered.behaves who).knows ready
    exact ⟨n, le_rfl, ordered.stored, ordered.set le_rfl who
      ⟨n, le_rfl, tame_request (Checked.named checked) knows le⟩, ordered.given, ordered.distinct⟩
  | call who outcome =>
    have behaves := ordered.behaves who
    rw [SharedMetadata.step] at stepped
    split at stepped
    · cases stepped
    · rename_i program here
      obtain ⟨⟨call, reply, text, rest⟩, responded, rfl⟩ := Option.map_eq_some_iff.mp stepped
      rw [here] at behaves
      obtain ⟨k, small, tame⟩ := behaves
      obtain ⟨m, le, stored, -, tame'⟩ := tame.respond small ordered.stored responded
      refine ⟨m, le, stored, ordered.set le who ⟨m, le_rfl, by simpa using tame'⟩,
        fun c mem => ?_, ordered.distinct⟩
      obtain ⟨id, small, gives⟩ := ordered.given c mem
      exact ⟨id, small.trans le, gives⟩
    · rename_i env req making program here
      obtain ⟨⟨call, reply, text, rest⟩, responded, rfl⟩ := Option.map_eq_some_iff.mp stepped
      rw [here] at behaves
      obtain ⟨k, small, tame⟩ := behaves
      obtain ⟨m, le, stored, made, tame'⟩ := tame.respond small ordered.stored responded
      have old : ∀ c ∈ s.commits, ∃ id, id ≤ m ∧ ∀ other, c.Gives other ↔ other = id := by
        intro c mem
        obtain ⟨id, small, gives⟩ := ordered.given c mem
        exact ⟨id, small.trans le, gives⟩
      refine ⟨m, le, stored, ordered.set le who ⟨m, le_rfl, tame'⟩, ?_, ?_⟩
      · show ∀ c ∈ (if making && stores usr call reply then _ else s.commits), _
        split
        · rename_i committed
          obtain ⟨-, gives⟩ := made (Bool.and_eq_true_iff.mp committed).1
            (Bool.and_eq_true_iff.mp committed).2
          exact List.forall_mem_cons.mpr ⟨⟨m, le_rfl, gives⟩, old⟩
        · exact old
      · show (if making && stores usr call reply then _ else s.commits).Pairwise _
        split
        · rename_i committed
          obtain ⟨advanced, gives⟩ := made (Bool.and_eq_true_iff.mp committed).1
            (Bool.and_eq_true_iff.mp committed).2
          refine List.pairwise_cons.mpr ⟨fun c mem id now before => ?_, ordered.distinct⟩
          obtain ⟨id', small, gives'⟩ := ordered.given c mem
          have same := (gives id).mp now
          have same' := (gives' id).mp before
          omega
        · exact ordered.distinct

theorem ordered_run {events : List (Event ι)} (checked : ∀ e ∈ events, e.Checked)
    (ordered : Ordered usr n s) (ran : run (step usr) s events = some t) :
    ∃ m, n ≤ m ∧ Ordered usr m t := by
  induction events generalizing s n with
  | nil =>
    cases ran
    exact ⟨n, le_rfl, ordered⟩
  | cons e events ih =>
    obtain ⟨first, later⟩ := List.forall_mem_cons.mp checked
    obtain ⟨r, stepped, ran⟩ := run_cons_eq_some.mp ran
    obtain ⟨m, le, ordered'⟩ := ordered_step first ordered stepped
    obtain ⟨m', le', ordered''⟩ := ih later ordered' ran
    exact ⟨m', le.trans le', ordered''⟩

/-- The last id that is stored never decreases and bounds the ids that are stored, and no two
creations or uploads that were committed are given the same id. -/
theorem ids_never_reused (valid : Login.validUsername usr = true) {before after : List (Event ι)}
    (checked : ∀ e ∈ before ++ after, e.Checked)
    (reached : run (step usr) (initial ι usr) before = some s)
    (later : run (step usr) s after = some t) :
    ∃ m n, latestIds s.text = [m] ∧ latestIds t.text = [n] ∧ m ≤ n ∧
      (∀ id ∈ entryIds t.text, id ≤ n) ∧ (∀ c ∈ t.commits, ∃ id, c.Gives id) ∧
      t.commits.Pairwise fun a b => ∀ id, a.Gives id → ¬ b.Gives id := by
  obtain ⟨first, second⟩ := List.forall_mem_append.mp checked
  obtain ⟨m, -, ordered⟩ := ordered_run first (ordered_initial valid) reached
  obtain ⟨n, le, ordered'⟩ := ordered_run second ordered later
  refine ⟨m, n, latestIds_stored ordered.stored, latestIds_stored ordered'.stored, le,
    fun id mem => entryIds_stored ordered'.stored mem, fun c mem => ?_, ordered'.distinct⟩
  obtain ⟨id, -, gives⟩ := ordered'.given c mem
  exact ⟨id, (gives id).mpr rfl⟩

end Order

/-! Two handlers of one user make an entry each, from the same metadata -/

def raceEnv : Env := ⟨.stored Ptr, 20⟩

def makeDir (path : Str) : StorageServiceReq := ⟨.dirCreate, .dirCreateOrQueryReq path⟩

def openTwo : List (Event Bool) :=
  [.start false raceEnv 3, .call false .served, .start true raceEnv 4, .call true .served]

/-- The second handler loses the race, reads the metadata again and retries. -/
def race : List (Event Bool) :=
  [.request false raceEnv (makeDir ['/', 'a']), .request true raceEnv (makeDir ['/', 'b']),
    .call false .served, .call true .served, .call true .served, .call true .served]

theorem checked_race : ∀ e ∈ openTwo ++ race, e.Checked := by
  have dir : ∀ path, validFilename (lastName path) = true → Checked (makeDir path) :=
    fun path valid => ⟨fun _ => valid, nofun⟩
  simp only [openTwo, race, List.cons_append, List.nil_append, List.forall_mem_cons]
  exact ⟨trivial, trivial, trivial, trivial, dir _ (by decide), dir _ (by decide), trivial, trivial,
    trivial, trivial, nofun⟩

theorem ids_never_reused_race : ∃ s t : System Bool,
    run (step ['b', 'o', 'b']) (initial Bool ['b', 'o', 'b']) openTwo = some s ∧
    run (step ['b', 'o', 'b']) s race = some t ∧ t.commits.length = 2 ∧
    ∃ m n, latestIds s.text = [m] ∧ latestIds t.text = [n] ∧ m ≤ n ∧
      (∀ id ∈ entryIds t.text, id ≤ n) ∧ (∀ c ∈ t.commits, ∃ id, c.Gives id) ∧
      t.commits.Pairwise fun a b => ∀ id, a.Gives id → ¬ b.Gives id := by
  have outcome : ((run (step ['b', 'o', 'b']) (initial Bool ['b', 'o', 'b']) openTwo).bind fun s =>
      (run (step ['b', 'o', 'b']) s race).map fun t => t.commits.length) = some 2 := by
    decide +kernel
  obtain ⟨s, opened, outcome⟩ := Option.bind_eq_some_iff.mp outcome
  obtain ⟨t, raced, two⟩ := Option.map_eq_some_iff.mp outcome
  exact ⟨s, t, opened, raced, two, ids_never_reused (by decide) checked_race opened raced⟩

end SharedMetadata
