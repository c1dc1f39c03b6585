import PennCloud.StorageAlone
import PennCloud.StorageAttempts

/-!
# Two requests of one user

Two handlers of a user change the tree at the same time. A handler whose CPUT is
refused reads the new text into the tree that it still holds: entries that the
other took away come back. Where every text that is read again has all entries of the
one before, unchanged, the requests take effect one after the other.
-/

namespace StorageConflict

open Text KvInterface UnorderedMap StorageMetadata StorageHandler StorageCommit Dialogue
  Interleaving Runs StorageTree StorageCreate StorageReload StorageEffects StorageParts
  StorageAttempts StorageAlone MetadataParsing MetadataMerging
open MetadataRoundTrip (deepEnv)
open SharedMetadata (validFilename)

/-- The entry at a path of the tree that a text says: its id, and whether it is a file. -/
def entryAt (env : Env) (usr text path : Str) : Option (Nat × Bool) :=
  (Handler.parseMetadataFile env { usr := usr, backendFd := 0, metadataStr := text }).bind
    fun parsed => (parsed.2.validatePathAndGetDir path).bind fun found =>
      if found.valid then (found.handler.deref found.dir).map fun d => (d.id, d.isFile) else none

/-- The backend for the calls of one user. What is said of contents is up to it. -/
def shared {κ : Type} (content : κ → KvCall → KvReply × κ) (store : Str × κ) (call : KvCall) :
    KvReply × (Str × κ) :=
  match metadata store.1 call with
  | some (reply, text) => (reply, (text, store.2))
  | none =>
    let (reply, contents) := content store.2 call
    (reply, (store.1, contents))

/-- Two handlers of a user, in processes with their own environment. -/
structure Requests (κ : Type) where
  usr : Str
  env : Bool → Env
  fd : Bool → Int
  req : Bool → StorageServiceReq
  content : κ → KvCall → KvReply × κ
  contents : κ

def Requests.party {κ : Type} (r : Requests κ) (who : Bool) : Service StorageServiceResp :=
  serve (r.env who) r.usr (r.fd who) (r.req who)

abbrev Served (κ : Type) := Session (Str × κ) KvCall KvReply StorageServiceResp

section Requests
variable {κ : Type}

def Requests.start (r : Requests κ) (text : Str) : Served κ :=
  Session.start (text, r.contents) r.party

/-- The calls of the two requests in the order of a schedule. -/
def Requests.run (r : Requests κ) (text : Str) (schedule : List Bool) : Option (Served κ) :=
  Runs.run (step (shared r.content)) (r.start text) schedule

/-- Both requests are answered with SUCCESS. -/
def Succeeded (s : Served κ) : Prop :=
  ∀ who, ∃ resp, s.party who = .done resp ∧ resp.getStatus = .success

/-- The text that a handler has read or stored last. -/
def lastSeen : List Exchange → Option Str
  | [] => none
  | first :: calls => some (calls.foldl look first.2.value)

/-- Where the next call reads the metadata again: the text that the handler has seen last, and the
one that is stored. -/
def reload (s : Served κ) (who : Bool) : Option (Str × Str) :=
  match s.party who with
  | .ask (.gets _ key) _ =>
    if key = kMetadataFp then (lastSeen (transcript s who)).map fun seen => (seen, s.state.1)
    else none
  | _ => none

/-- What is read again has all entries of what the handler has seen last, unchanged. -/
def Kept (s : Served κ) (who : Bool) : Prop :=
  ∀ texts, reload s who = some texts → Keeps texts.1 texts.2

def Requests.Kept (r : Requests κ) (text : Str) (schedule : List Bool) : Prop :=
  Along (step (shared r.content)) StorageConflict.Kept (r.start text) schedule

/-- The last CPUT that was not refused is one of the other handler. -/
def StoredFirst (s : Served κ) (first : Bool) : Prop :=
  ∃ before call reply after, s.log = before ++ (!first, call, reply) :: after ∧
    MetadataCput call ∧ reply.status = .finished ∧
    ∀ e ∈ after, MetadataCput e.2.1 → e.2.2.status ≠ .finished

/-- The tree is the one of the two requests run one after the other, in the order of their
CPUTs. -/
def Serial (r : Requests κ) (text : Str) (s : Served κ) : Prop :=
  ∃ first middle final resp resp', StoredFirst s first ∧
    alone answer text (r.party first) = some (resp, middle) ∧
    alone answer middle (r.party !first) = some (resp', final) ∧
    ∀ env path, INT_MAX < env.fuel →
      entryAt env r.usr s.state.1 path = entryAt env r.usr final path

end Requests

/-! The tree of a text -/

section Text
variable {t : Tree} {h : Handler} {env : Env} {latest : Nat} {text usr path : Str}

theorem deref_iff (wf : t.WellFormed) (exact : Exact t h) {x : Nat} {kind : Bool} :
    ((h.validatePathAndGetDir path).bind fun found =>
      if found.valid then (found.handler.deref found.dir).map fun d => (d.id, d.isFile) else none) =
        some (x, kind) ↔ ∃ n, Target t path x ∧ t.node x = some n ∧ n.isFile = kind := by
  constructor
  · intro said
    obtain ⟨found, looked, said⟩ := Option.bind_eq_some_iff.mp said
    split at said
    · rename_i valid
      obtain ⟨d, object, same⟩ := Option.map_eq_some_iff.mp said
      have there : found.dir ≠ none := by
        intro null
        rw [null] at object
        cases object
      obtain ⟨id, target, dir, rfl⟩ :=
        target_of_found wf exact.toHolds exact.filesEmpty looked valid there
      obtain ⟨n, here⟩ := target.node wf
      obtain ⟨d', object', shows⟩ := exact.laid id n here
      rw [dir] at object
      cases object.symm.trans object'
      cases same
      exact ⟨n, shows.ident ▸ target, shows.ident ▸ here, shows.isFile.symm⟩
    · cases said
  · rintro ⟨n, target, here, rfl⟩
    obtain ⟨parentDir, name, looked⟩ := validate_target wf exact.toHolds exact.filesEmpty target
    obtain ⟨d, object, shows⟩ := exact.laid x n here
    rw [looked, Option.bind_some, if_pos rfl]
    refine Option.map_eq_some_iff.mpr ⟨d, object, ?_⟩
    rw [shows.ident, shows.isFile]

/-- Texts of one tree have the same entries. -/
theorem entryAt_congr {text' : Str} {latest' : Nat} (known : MetadataOf t latest text)
    (known' : MetadataOf t latest' text') (enough : INT_MAX < env.fuel) :
    entryAt env usr text path = entryAt env usr text' path := by
  obtain ⟨h, parsed, exact, -⟩ := known.says env usr 0 enough
  obtain ⟨h', parsed', exact', -⟩ := known'.says env usr 0 enough
  rw [entryAt, entryAt, parsed, parsed', Option.bind_some, Option.bind_some]
  refine Option.ext fun e => ?_
  obtain ⟨x, kind⟩ := e
  exact (deref_iff known.wf exact).trans (deref_iff known.wf exact').symm

end Text

/-! The order of what is stored -/

section Order
variable {t : Tree} {latest : Nat} {text last : Str} {req : Bool → StorageServiceReq}
  {log : List (Bool × Str × Str)}

/-- What comes last ends with the party that it is of. -/
theorem ends_with {who : Bool} {rest : List (Bool × Str × Str)} (some : rest ≠ [])
    (own : ∀ e ∈ rest, e.1 = who) : ∃ init p, rest = init ++ [(who, p)] := by
  refine ⟨rest.dropLast, (rest.getLast some).2, ?_⟩
  rw [← own _ (List.getLast_mem some)]
  exact (List.dropLast_append_getLast some).symm

/-- A request that is carried out while another one is interrupted is before it in the order. -/
theorem serial_of_interrupted {first second : StorageServiceReq} (apart : Apart first second)
    {seen middle : Str} {one rest : List (Str × Str)} {p : Str × Str} {left t₂ : Tree} {n₂ : Nat}
    (effect : Effect first seen (one ++ p :: rest)) (some : one ≠ [])
    (known : MetadataOf t latest text) (before : Successive text one middle)
    (interrupted : Interrupted first t left middle p.1) (known' : MetadataOf left latest middle)
    (takes : Takes second left latest t₂ n₂) (known₂ : MetadataOf t₂ n₂ p.1)
    (later : Successive p.1 (p :: rest) last) :
    ∃ t₁ n₁ t₃ n₃, Takes second t latest t₁ n₁ ∧ Takes first t₁ n₁ t₃ n₃ ∧
      MetadataOf t₃ n₃ last := by
  rcases interrupted.cause with same | ⟨emptied, -⟩
  · rw [same] at known₂ later
    obtain ⟨rfl, rfl⟩ := known'.unique known₂
    obtain ⟨-, takes⟩ := takes_same known.wf interrupted.part takes (.refl t₂) rfl
    obtain ⟨t₄, n₄, takes₄, known₄⟩ :=
      effect.takes (successive_append.mpr ⟨_, before, later⟩) known
    exact ⟨t, n₂, t₄, n₄, takes, takes₄, known₄⟩
  · obtain ⟨t₃, n₃, takes', known₃⟩ :=
      effect.resumed rfl some (List.cons_ne_nil _ _) later known₂
    obtain ⟨t₁, takes₁, wf, emptied₁⟩ := takes_whole known.wf known.used emptied apart takes
      (interrupted.kept known' known₂)
    exact ⟨t₁, n₂, t₃, n₃, takes₁, emptied₁.onward wf takes', known₃⟩

/-- What two requests store comes to what they make of the tree one after the other. A deletion may
be interrupted by the other request, which is before it in the order of the last CPUTs. -/
theorem serial_of_effects (apart : ∀ who, Apart (req who) (req !who))
    (known : MetadataOf t latest text)
    (effect : ∀ who, ∃ seen, Effect (req who) seen (entriesOf log who))
    (successive : Successive text (log.map Prod.snd) last) :
    ∃ first init p t₁ n₁ t₂ n₂, log = init ++ [(!first, p)] ∧
      Takes (req first) t latest t₁ n₁ ∧ Takes (req !first) t₁ n₁ t₂ n₂ ∧
      MetadataOf t₂ n₂ last := by
  have both : ∀ who, entriesOf log who ≠ [] := fun who => (effect who).elim fun _ e => e.some
  obtain ⟨who, one, two, rest, rfl, some, some', own, own', next⟩ := exists_blocks both
  obtain ⟨_, first⟩ := effect who
  obtain ⟨_, second⟩ := effect !who
  have none : entriesOf one (!who) = [] := entriesOf_other own
  have none' : entriesOf two who = [] := by
    rw [← entriesOf_other own', Bool.not_not]
  rw [entriesOf_append, entriesOf_append, entriesOf_own own, none', List.nil_append] at first
  rw [entriesOf_append, entriesOf_append, entriesOf_own own', none, List.nil_append] at second
  rw [List.map_append, List.map_append] at successive
  obtain ⟨a, before, behind⟩ := successive_append.mp successive
  obtain ⟨b, during, later⟩ := successive_append.mp behind
  cases rest with
  | nil =>
    obtain rfl : last = b := later
    rw [show entriesOf ([] : List (Bool × Str × Str)) who = [] from rfl, List.append_nil] at first
    rw [show entriesOf ([] : List (Bool × Str × Str)) (!who) = [] from rfl, List.append_nil] at second
    obtain ⟨t₁, n₁, takes, known₁⟩ := first.takes before known
    obtain ⟨t₂, n₂, takes', known₂⟩ := second.takes during known₁
    obtain ⟨init, p, rfl⟩ := ends_with some' own'
    exact ⟨who, one ++ init, p, t₁, n₁, t₂, n₂, by simp, takes, takes', known₂⟩
  | cons e rest =>
    obtain ⟨self, p⟩ := e
    obtain rfl : self = who := next _ _ rfl
    rw [entriesOf_cons_own] at first
    rw [entriesOf_cons_other] at second
    have start : one.map Prod.snd ≠ [] := fun no => some (List.map_eq_nil_iff.mp no)
    have start' : two.map Prod.snd ≠ [] := fun no => some' (List.map_eq_nil_iff.mp no)
    obtain ⟨left, known', interrupted⟩ := first.parts rfl start before known
    obtain rfl : p.1 = b := later.1
    cases others : entriesOf rest !self with
    | nil =>
      have own'' := own_of_entriesOf others
      rw [others, List.append_nil] at second
      rw [entriesOf_own own''] at first
      obtain ⟨t₂, n₂, takes, known₂⟩ := second.takes during known'
      obtain ⟨t₁, n₁, t₃, n₃, takes₁, takes₃, known₃⟩ := serial_of_interrupted (apart self) first
        start known before interrupted known' takes known₂ later
      obtain ⟨init, q, whole⟩ := ends_with (List.cons_ne_nil _ _)
        (List.forall_mem_cons.mpr ⟨show (self, p).1 = self from rfl, own''⟩)
      refine ⟨!self, one ++ (two ++ init), q, t₁, n₁, t₃, n₃, ?_, takes₁, ?_, known₃⟩
      · rw [whole, Bool.not_not, List.append_assoc, List.append_assoc]
      · rwa [Bool.not_not]
    | cons q more =>
      -- a request that is interrupted has lost an entry, which the other would have to bring back
      rw [others] at second
      obtain ⟨left', known₂, interrupted'⟩ := second.parts rfl start' during known'
      exact absurd ((interrupted.kept known' known₂).antisymm interrupted'.part) interrupted'.lost

end Order

/-! The calls of a party -/

section Party
variable {κ : Type} {t : Tree} {latest : Nat} {env : Env} {usr text : Str} {fd : Int}
  {req : StorageServiceReq} {content : κ → KvCall → KvReply × κ} {store store' : Str × κ}
  {call : KvCall} {reply : KvReply} {calls : List Exchange}

/-- A CPUT of the metadata stores its text in place of the one that is there, or nothing. -/
theorem stored_of_metadata {new : Str} (said : metadata text call = some (reply, new)) :
    stored (call, reply) = none ∧ new = text ∨ stored (call, reply) = some (text, new) := by
  cases call with
  | gets usr key =>
    rw [metadata] at said
    split at said
    · cases said
      exact .inl ⟨rfl, rfl⟩
    · cases said
  | puts | dele => cases said
  | cput usr key prevValue newValue =>
    rw [metadata] at said
    split at said
    · rename_i metadata
      split at said
      · rename_i same
        cases said
        refine .inr ?_
        rw [stored, if_pos ⟨metadata, rfl⟩, same]
      · cases said
        refine .inl ⟨if_neg ?_, rfl⟩
        rintro ⟨-, no⟩
        cases no
    · cases said

/-- The calls of contents store no metadata. -/
theorem stored_of_content (other : metadata text call = none) : stored (call, reply) = none := by
  cases call with
  | gets | puts | dele => rfl
  | cput usr key prevValue newValue =>
    rw [metadata] at other
    split at other
    · cases other
    · rename_i content
      exact if_neg fun both => content both.1

theorem stored_shared (gave : gives (shared content) store call reply store') :
    stored (call, reply) = none ∧ store'.1 = store.1 ∨
      stored (call, reply) = some (store.1, store'.1) := by
  rw [gives, shared] at gave
  split at gave
  · rename_i said
    cases gave
    exact stored_of_metadata said
  · rename_i other
    cases gave
    exact .inl ⟨stored_of_content other, rfl⟩

theorem successive_of_course (course : Course (gives (shared content)) store calls store') :
    Successive store.1 (stores calls) store'.1 := by
  induction course with
  | done store => rfl
  | @ask store middle last call reply rest now later ih =>
    rcases stored_shared now with ⟨nothing, same⟩ | something
    · rwa [stores, List.filterMap_cons_none nothing, ← same]
    · rw [stores, List.filterMap_cons_some something]
      exact ⟨rfl, ih⟩

/-- The metadata that are read are those that are stored. -/
theorem gets_shared {usr : Str} (gave : gives (shared content) store (.gets usr kMetadataFp) reply
    store') : reply = ⟨.finished, store.1⟩ ∧ store' = store := by
  rw [gives, shared, metadata, if_pos rfl] at gave
  cases gave
  exact ⟨rfl, rfl⟩

theorem nonempty_of_metadata (known : MetadataOf t latest text) : text ≠ [] := by
  rintro rfl
  obtain ⟨h, parsed, -, -⟩ := known.says ⟨Iteration.stored Ptr, INT_MAX + 1⟩ [] 0
    (Nat.lt_succ_self _)
  cases parseMetadataFile_fst parsed

theorem keeping_mem {seen usr : Str} {reply : KvReply} (keeping : Keeping seen calls)
    (mem : (.gets usr kMetadataFp, reply) ∈ calls) : ∃ text, Keeps text reply.value := by
  induction calls generalizing seen with
  | nil => cases mem
  | cons call calls ih =>
    rcases List.mem_cons.mp mem with rfl | later
    · exact ⟨seen, keeping.1 usr reply rfl⟩
    · exact ih keeping.2 later

theorem mutates_of_ordinary (ordinary : Ordinary req) : Mutates req := by
  obtain ⟨type, request⟩ := req
  cases type with
  | fileDownload | dirQuery | queryAllDir => exact ordinary.elim
  | _ => exact ⟨nofun, nofun, nofun⟩

/-- What a party has stored that was answered with SUCCESS. -/
theorem effect_of_served {resp : StorageServiceResp} (ordinary : Ordinary req)
    (below : [] ∉ sites req) (enough : INT_MAX < env.fuel)
    (ran : Conversation (serve env usr fd req) calls resp) (success : resp.getStatus = .success)
    (reads : ∀ usr reply, (.gets usr kMetadataFp, reply) ∈ calls → reply.status = .finished) :
    ∃ reply rest, calls = (.gets usr kMetadataFp, reply) :: rest ∧
      ∀ t latest, MetadataOf t latest reply.value → Keeping reply.value rest →
        Effect req reply.value (stores calls) := by
  obtain ⟨reply, rest, read, rfl, whole, parsed, -, served⟩ := conversation_read ran
  refine ⟨reply, rest, rfl, fun t latest known keeping => ?_⟩
  by_cases good : read.1
  swap
  · simp only [good, Bool.not_false, if_true] at served
    obtain ⟨-, rfl⟩ := conversation_done.mp served
    cases success
  simp only [good, Bool.not_true, Bool.false_eq_true, if_false] at served
  obtain ⟨asked, last, handled, rfl, requested, ended⟩ := conversation_bind.mp served
  obtain ⟨rfl, rfl⟩ := conversation_done.mp ended
  rw [List.append_nil] at keeping reads ⊢
  obtain ⟨-, parsed⟩ := parsed good
  obtain ⟨_, next⟩ := read
  cases good
  obtain ⟨⟨t', latest', has⟩, text⟩ := HasRead.reload (restored_new t usr fd) known
    (keeps_self known) enough parsed
  have committed : Committed env req next asked := by
    obtain ⟨deleted, outcome⟩ := outcome_request (mutates_of_ordinary ordinary) success requested
    by_cases deletes : Deletes req
    · exact deleted deletes
    · rcases outcome deletes with ⟨committed, -⟩ | ⟨-, -, -, c, mem, ⟨usr', gets⟩, fails⟩
      · exact committed
      · obtain ⟨call, reply'⟩ := c
        obtain rfl : call = .gets usr' kMetadataFp := gets
        obtain ⟨_, _, _, t₁, n₁, -, known₁, -⟩ := keeping_mem keeping mem
        have finished := reads _ _ (List.mem_cons_of_mem _ mem)
        simp [failedReload, finished, nonempty_of_metadata known₁] at fails
  rw [← text] at keeping ⊢
  show Effect req next.metadataStr (stores asked)
  exact effect_of_committed ordinary below enough committed has keeping

end Party

/-! The runs of two requests -/

section Run
variable {κ : Type} {r : Requests κ} {t : Tree} {latest : Nat} {text : Str} {schedule : List Bool}
  {s : Served κ}

/-- What is stored, with the party that stored it. -/
def storedBy (log : List (Bool × Exchange)) : List (Bool × Str × Str) :=
  log.filterMap fun e => (stored e.2).map fun p => (e.1, p)

theorem storedBy_none {who : Bool} {c : Exchange} (nothing : stored c = none)
    (log : List (Bool × Exchange)) : storedBy ((who, c) :: log) = storedBy log :=
  List.filterMap_cons_none (by rw [nothing]; rfl)

theorem storedBy_some {who : Bool} {c : Exchange} {p : Str × Str} (something : stored c = some p)
    (log : List (Bool × Exchange)) : storedBy ((who, c) :: log) = (who, p) :: storedBy log :=
  List.filterMap_cons_some (by rw [something]; rfl)

theorem map_storedBy (log : List (Bool × Exchange)) :
    (storedBy log).map Prod.snd = stores (log.map Prod.snd) := by
  induction log with
  | nil => rfl
  | cons e log ih =>
    obtain ⟨self, c⟩ := e
    rw [List.map_cons, stores]
    cases what : stored c with
    | none =>
      rw [storedBy_none what, List.filterMap_cons_none what]
      exact ih
    | some p =>
      rw [storedBy_some what, List.filterMap_cons_some what, List.map_cons]
      exact congrArg _ ih

theorem entriesOf_storedBy (log : List (Bool × Exchange)) (who : Bool) :
    entriesOf (storedBy log) who = stores (entriesOf log who) := by
  induction log with
  | nil => rfl
  | cons e log ih =>
    obtain ⟨self, c⟩ := e
    by_cases own : self = who
    · subst own
      rw [entriesOf_cons_own, stores]
      cases what : stored c with
      | none =>
        rw [storedBy_none what, List.filterMap_cons_none what]
        exact ih
      | some p =>
        rw [storedBy_some what, List.filterMap_cons_some what, entriesOf_cons_own]
        exact congrArg _ ih
    · obtain rfl : who = !self := Bool.eq_not.mpr fun same => own same.symm
      rw [entriesOf_cons_other, ← ih]
      cases what : stored c with
      | none => rw [storedBy_none what]
      | some p => rw [storedBy_some what, entriesOf_cons_other]

/-- Each party reads what keeps the entries that it has seen. -/
theorem keeping_of_run (ran : r.run text schedule = some s) (kept : r.Kept text schedule)
    {who : Bool} {first : Exchange} {rest : List Exchange}
    (calls : transcript s who = first :: rest) : Keeping first.2.value rest := by
  have preserved : ∀ (s : Served κ) who t, (∀ who first rest, transcript s who = first :: rest →
      Keeping first.2.value rest) → StorageConflict.Kept s who →
        step (shared r.content) s who = some t → ∀ who first rest,
          transcript t who = first :: rest → Keeping first.2.value rest := by
    intro s who t before kept stepped party first rest calls
    obtain ⟨query, next, asks, -, -, -, log⟩ := step_some stepped
    rw [transcript_step log party] at calls
    by_cases self : party = who
    · subst self
      rw [if_pos rfl] at calls
      cases old : transcript s party with
      | nil =>
        rw [old] at calls
        cases calls
        trivial
      | cons first' rest' =>
        rw [old] at calls
        cases calls
        refine keeping_append.mpr ⟨before party _ _ old, fun usr reply same => ?_, trivial⟩
        cases same
        refine kept (_, s.state.1) ?_
        rw [reload, asks]
        simp only [if_true, old]
        rfl
    · rw [if_neg self, List.append_nil] at calls
      exact before party first rest calls
  refine run_invariant_along preserved (fun who first rest calls => ?_) kept ran who first rest calls
  cases calls

/-- The text after some of what is stored is the first one, or was stored. -/
theorem successive_cases {a b : Str} {l : List (Str × Str)} (successive : Successive a l b) :
    b = a ∨ ∃ p ∈ l, b = p.2 := by
  induction l generalizing a with
  | nil => exact .inl successive
  | cons p l ih =>
    rcases ih successive.2 with rfl | ⟨q, mem, rfl⟩
    · exact .inr ⟨p, List.mem_cons_self, rfl⟩
    · exact .inr ⟨q, List.mem_cons_of_mem _ mem, rfl⟩

/-- Every read of the metadata is answered. -/
theorem reads_finished (ran : r.run text schedule = some s) {who : Bool} {usr : Str}
    {reply : KvReply} (mem : (.gets usr kMetadataFp, reply) ∈ transcript s who) :
    reply.status = .finished := by
  obtain ⟨e, logged, same⟩ := List.mem_map.mp mem
  have asked : (KvCall.gets usr kMetadataFp, reply) ∈ s.log.map Prod.snd :=
    List.mem_map.mpr ⟨e, (List.mem_filter.mp logged).1, same⟩
  obtain ⟨_, _, now⟩ := (course_of_run ran).step_of_mem asked
  rw [(gets_shared now).1]

/-- What a party stores, where the text that it reads first is that of a tree. -/
theorem effect_of_party (ordinary : ∀ who, Ordinary (r.req who))
    (below : ∀ who, [] ∉ sites (r.req who)) (enough : ∀ who, INT_MAX < (r.env who).fuel)
    (ran : r.run text schedule = some s) (succeeded : Succeeded s) (kept : r.Kept text schedule)
    (who : Bool) : ∃ reply rest, transcript s who = (.gets r.usr kMetadataFp, reply) :: rest ∧
      (Proper reply.value → Effect (r.req who) reply.value (stores (transcript s who))) := by
  obtain ⟨resp, ended, success⟩ := succeeded who
  obtain ⟨reply, rest, calls, effect⟩ := effect_of_served (ordinary who) (below who) (enough who)
    (conversation_of_run ran ended) success fun _ _ => reads_finished ran
  refine ⟨reply, rest, calls, fun ⟨t, latest, known⟩ => ?_⟩
  exact effect t latest known (keeping_of_run ran kept calls)

/-- The first of all calls reads the text that was there. -/
theorem first_read (ran : r.run text schedule = some s) {usr : Str}
    (opens : ∀ who, ∃ reply rest, transcript s who = (.gets usr kMetadataFp, reply) :: rest) :
    ∃ who later, s.log = (who, (.gets usr kMetadataFp, ⟨.finished, text⟩)) :: later := by
  have course := course_of_run ran
  cases log : s.log with
  | nil =>
    obtain ⟨reply, rest, calls⟩ := opens true
    rw [transcript, log] at calls
    cases calls
  | cons e later =>
    obtain ⟨self, c⟩ := e
    obtain ⟨reply, rest, calls⟩ := opens self
    rw [transcript, log, entriesOf_cons_own] at calls
    cases calls
    rw [log] at course
    cases course with
    | ask now after =>
      obtain ⟨rfl, -⟩ := gets_shared now
      exact ⟨self, later, rfl⟩

/-- What each party of a run has stored. The first to read reads the text that was there, and the
other one this text, or one that the first has stored. -/
theorem effects_of_run (ordinary : ∀ who, Ordinary (r.req who))
    (below : ∀ who, [] ∉ sites (r.req who)) (enough : ∀ who, INT_MAX < (r.env who).fuel)
    (known : MetadataOf t latest text) (ran : r.run text schedule = some s)
    (succeeded : Succeeded s) (kept : r.Kept text schedule) (who : Bool) :
    ∃ seen, Effect (r.req who) seen (entriesOf (storedBy s.log) who) := by
  have course := course_of_run ran
  have party := effect_of_party ordinary below enough ran succeeded kept
  obtain ⟨one, later, log⟩ := first_read ran fun who => by
    obtain ⟨reply, rest, calls, -⟩ := party who
    exact ⟨reply, rest, calls⟩
  rw [entriesOf_storedBy]
  have first : Effect (r.req one) text (stores (transcript s one)) := by
    obtain ⟨reply, rest, calls, effect⟩ := party one
    have head := calls
    rw [transcript, log, entriesOf_cons_own] at head
    cases head
    exact effect ⟨t, latest, known⟩
  by_cases self : who = one
  · subst self
    exact ⟨text, first⟩
  · obtain rfl : who = !one := Bool.eq_not.mpr self
    obtain ⟨reply, rest, calls, effect⟩ := party !one
    refine ⟨reply.value, effect ?_⟩
    obtain ⟨before, after, split, own⟩ := exists_first calls
    rw [split, List.map_append, List.map_cons] at course
    obtain ⟨middle, early, late⟩ := course_append.mp course
    cases late with
    | ask now rest =>
      obtain ⟨rfl, -⟩ := gets_shared now
      rcases successive_cases (successive_of_course early) with same | ⟨p, mem, same⟩
      · rw [show middle.1 = text from same]
        exact ⟨t, latest, known⟩
      · rw [same]
        refine first.proper p ?_
        rw [Bool.not_not] at own
        rw [transcript, split, entriesOf_append, entriesOf_own own, stores_append]
        exact List.mem_append_left _ mem

theorem cput_of_stored {c : Exchange} {p : Str × Str} (something : stored c = some p) :
    MetadataCput c.1 ∧ c.2.status = .finished := by
  obtain ⟨call, reply⟩ := c
  cases call with
  | cput usr key old new =>
    rw [stored] at something
    split at something
    · rename_i both
      exact ⟨⟨usr, old, new, by rw [both.1]⟩, both.2⟩
    · cases something
  | gets | puts | dele => cases something

theorem stored_of_cput {c : Exchange} (put : MetadataCput c.1) (finished : c.2.status = .finished) :
    stored c ≠ none := by
  obtain ⟨call, reply⟩ := c
  obtain ⟨usr, old, new, rfl⟩ := put
  rw [stored, if_pos ⟨rfl, finished⟩]
  exact Option.some_ne_none _

theorem storedFirst_of_last {first : Bool} {init : List (Bool × Str × Str)} {p : Str × Str}
    (last : storedBy s.log = init ++ [(!first, p)]) : StoredFirst s first := by
  obtain ⟨before, rest, split, -, final⟩ := List.filterMap_eq_append_iff.mp last
  obtain ⟨middle, ⟨self, call, reply⟩, after, rfl, -, found, nothing⟩ :=
    List.filterMap_eq_cons_iff.mp final
  obtain ⟨q, something, same⟩ := Option.map_eq_some_iff.mp found
  obtain rfl : self = !first := congrArg Prod.fst same
  obtain ⟨put, finished⟩ := cput_of_stored something
  refine ⟨before ++ middle, call, reply, after, by rw [split, List.append_assoc], put, finished,
    fun e mem put' finished' => ?_⟩
  have none := List.filterMap_eq_nil_iff.mp nothing e mem
  exact stored_of_cput put' finished' (Option.map_eq_none_iff.mp none)

theorem site_of_ordinary {req : StorageServiceReq} (ordinary : Ordinary req) :
    ∃ site, site ∈ sites req := by
  rw [Ordinary.eq_def] at ordinary
  split at ordinary
  · exact ⟨_, List.mem_cons_self⟩
  · exact ⟨_, List.mem_cons_self⟩
  · exact ⟨_, List.mem_cons_self⟩
  · exact ⟨_, List.mem_cons_self⟩
  · exact ⟨_, List.mem_cons_self⟩
  · exact ⟨_, List.mem_cons_self⟩
  · exact ⟨_, List.mem_cons_self⟩
  · exact ⟨_, List.mem_cons_self⟩
  · exact ordinary.elim

/-- Where every text that is read again has all entries of the one that was seen before, unchanged,
requests that keep away from each other's paths take effect one after the other. -/
theorem serial_of_kept (ordinary : ∀ who, Ordinary (r.req who))
    (apart : Apart (r.req true) (r.req false)) (enough : ∀ who, INT_MAX < (r.env who).fuel)
    (known : MetadataOf t latest text) (ran : r.run text schedule = some s)
    (succeeded : Succeeded s) (kept : r.Kept text schedule) : Serial r text s := by
  have apart' : ∀ who, Apart (r.req who) (r.req !who) := by
    rintro (_ | _)
    · exact apart.symm
    · exact apart
  have below : ∀ who, [] ∉ sites (r.req who) := by
    intro who
    obtain ⟨site, mem⟩ := site_of_ordinary (ordinary !who)
    exact (apart' who).notRoot mem
  have successive : Successive text ((storedBy s.log).map Prod.snd) s.state.1 := by
    rw [map_storedBy]
    exact successive_of_course (course_of_run ran)
  obtain ⟨first, init, p, t₁, n₁, t₂, n₂, log, takes, takes', known₂⟩ :=
    serial_of_effects apart' known (effects_of_run ordinary below enough known ran succeeded kept)
      successive
  obtain ⟨resp, middle, one, -, known₁⟩ :=
    alone_takes (ordinary first) known (enough first) r.usr (r.fd first) takes
  obtain ⟨resp', final, two, -, known₃⟩ :=
    alone_takes (ordinary !first) known₁ (enough !first) r.usr (r.fd !first) takes'
  exact ⟨first, middle, final, resp, resp', storedFirst_of_last log, one, two,
    fun env path enough => entryAt_congr known₂ known₃ enough⟩

end Run

/-! The files of bob -/

/-- The root folder of bob, without entries. -/
def rootText : Str := "Latest ID: 3\nRoot folder: /bob ID 1 Items 0\n".toList

/-- A file in the root folder. -/
def fileText : Str := "Latest ID: 4\nRoot folder: /bob ID 1 Items 1\nf ID 4 F\n".toList

/-- One handler of bob changes the file, the other creates a directory. -/
def bob (change : StorageServiceReq) : Requests Unit where
  usr := "bob".toList
  env _ := deepEnv
  fd _ := 5
  req
    | true => change
    | false => ⟨.dirCreate, .dirCreateOrQueryReq "/g".toList⟩
  content _ _ := (⟨.finished, []⟩, ())
  contents := ()

def delete : StorageServiceReq := ⟨.fileDele, .deleteReq "/f".toList⟩
def upload : StorageServiceReq := ⟨.fileUpload, .fileUploadReq "/f".toList "text".toList⟩

theorem ordinary_upload (who : Bool) : Ordinary ((bob upload).req who) := by
  cases who
  · show validFilename _ = true
    decide
  · show validFilename _ = true
    decide

theorem ordinary_delete (who : Bool) : Ordinary ((bob delete).req who) := by
  cases who
  · exact ordinary_upload false
  · trivial

theorem deepEnv_fuel : INT_MAX < deepEnv.fuel := Nat.lt_succ_self _

theorem rootText_metadata : MetadataOf bobsRoot 3 rootText := by
  obtain ⟨text, printed, written⟩ :=
    written_of_holds wellFormed_bobsRoot.toRooted holds_bobsRoot rfl deepEnv_fuel
  have concrete : rootHandler.getMetadataStr deepEnv = some rootText := by decide +kernel
  cases printed.symm.trans concrete
  refine ⟨wellFormed_bobsRoot, named_bobsRoot, fun here => ?_, by decide, written⟩
  rw [(node_bobsRoot.mp here).1]
  decide

/-- The upload makes the file. -/
theorem fileText_metadata :
    MetadataOf (withEntry bobsRoot 4 1 "f".toList true) 4 fileText := by
  have free : ¬ ∃ id, bobsRoot.Leads bobsRoot.root (components "/f".toList) id := by
    rintro ⟨id, leads⟩
    generalize named : components "/f".toList = names at leads
    cases leads with
    | here =>
      revert named
      decide
    | step child parent rest =>
      rw [(node_bobsRoot.mp child).2] at parent
      cases parent
  have takes : Takes upload bobsRoot 3 (withEntry bobsRoot 4 1 "f".toList true) 4 :=
    .made rfl (by decide) (.here 1) (node_bobsRoot.mpr ⟨rfl, rfl⟩) rfl free (by decide)
  obtain ⟨resp, text, ran, -, known⟩ := alone_takes (ordinary_upload true) rootText_metadata
    deepEnv_fuel "bob".toList 5 takes
  have concrete : (alone answer rootText
      (serve deepEnv "bob".toList 5 ((bob upload).req true))).map Prod.snd = some fileText := by
    decide +kernel
  rw [ran] at concrete
  cases concrete
  exact known

def statusOf (s : Served Unit) (who : Bool) : Option Status :=
  match s.party who with
  | .done resp => some resp.getStatus
  | _ => none

theorem succeeded_of_status {s : Served Unit} (h : statusOf s true = some .success)
    (h' : statusOf s false = some .success) : Succeeded s := by
  have each : ∀ who, statusOf s who = some .success := fun who => by cases who <;> assumption
  intro who
  have status := each who
  unfold statusOf at status
  split at status
  · rename_i resp ended
    exact ⟨resp, ended, Option.some.inj status⟩
  · cases status

/-- The CPUT of the directory is refused, and the metadata that are read again have the file. -/
theorem serial_upload : ∃ s,
    (bob upload).run rootText [true, false, true, false, false, false, true] = some s ∧
      Serial (bob upload) rootText s := by
  have statuses : ((bob upload).run rootText [true, false, true, false, false, false, true]).map
      (fun s => (statusOf s true, statusOf s false)) = some (some .success, some .success) := by
    decide +kernel
  obtain ⟨s, ran, ends⟩ := Option.map_eq_some_iff.mp statuses
  have reloads : Along (step (shared (bob upload).content))
      (fun s who => reload s who = none ∨ reload s who = some (rootText, fileText))
      ((bob upload).start rootText) [true, false, true, false, false, false, true] := by
    decide +kernel
  have kept : (bob upload).Kept rootText [true, false, true, false, false, false, true] := by
    refine along_mono (fun s who known texts reads => ?_) reloads
    rcases known with none | some
    · cases none.symm.trans reads
    · cases some.symm.trans reads
      refine ⟨_, _, _, _, rootText_metadata, fileText_metadata, rfl, fun {id n} here => ?_⟩
      have known : id ≠ 4 := by
        rw [(node_bobsRoot.mp here).1]
        decide
      exact (node_withEntry_ne known).trans here
  exact ⟨s, ran, serial_of_kept ordinary_upload (by decide) (fun _ => deepEnv_fuel)
    rootText_metadata ran
    (succeeded_of_status (congrArg Prod.fst ends) (congrArg Prod.snd ends)) kept⟩

/-- The file is deleted while the other handler creates its directory, which puts it back. -/
theorem not_serial_delete : ∃ s t latest, (∀ who, Ordinary ((bob delete).req who)) ∧
    Apart ((bob delete).req true) ((bob delete).req false) ∧
    (∀ who, INT_MAX < ((bob delete).env who).fuel) ∧ MetadataOf t latest fileText ∧
    (bob delete).run fileText [true, false, true, true, false, false, false] = some s ∧
    Succeeded s ∧ ¬ Serial (bob delete) fileText s := by
  have outcome : ((bob delete).run fileText [true, false, true, true, false, false, false]).map
      (fun s => (statusOf s true, statusOf s false,
        entryAt deepEnv "bob".toList s.state.1 "/f".toList)) =
        some (some .success, some .success, some (4, true)) := by decide +kernel
  obtain ⟨s, ran, ends⟩ := Option.map_eq_some_iff.mp outcome
  have gone : ∀ first, ((alone answer fileText
      ((bob delete).party first)).bind fun r =>
        (alone answer r.2 ((bob delete).party !first)).map fun r' =>
          entryAt deepEnv "bob".toList r'.2 "/f".toList) = some none := by decide +kernel
  refine ⟨s, _, _, ordinary_delete, by decide, fun _ => deepEnv_fuel, fileText_metadata, ran,
    succeeded_of_status (congrArg Prod.fst ends) (congrArg (fun e => e.2.1) ends), ?_⟩
  rintro ⟨first, middle, final, resp, resp', -, one, other, same⟩
  have absent := gone first
  rw [one, Option.bind_some, other, Option.map_some, Option.some.injEq] at absent
  have present : entryAt deepEnv "bob".toList s.state.1 "/f".toList = some (4, true) :=
    congrArg (fun e => e.2.2) ends
  cases (present.symm.trans (same deepEnv "/f".toList deepEnv_fuel)).trans absent

end StorageConflict
