import PennCloud.EntryPaths
import PennCloud.FreshIds
import PennCloud.HandlerObjects
import PennCloud.StorageMove

/-!
# What a creation stores

A creation or an upload adds one entry to the parent that the failing lookup has
found, and stores what can be printed. An entry that was added to a file is not
printed, so that nothing but the last id is new in what is stored.
-/

namespace StorageCreate

open Text KvInterface UnorderedMap StorageMetadata StorageHandler StorageCommit Dialogue
  StorageTree MetadataText MetadataPrinting MetadataParsing MetadataRoundTrip HandlerText StorageMove
  HandlerObjects
open SharedMetadata (validFilename creationPath creates lastName_slash lastName_name
  pathChar_of_validChar)

/-! The tree with one more entry -/

/-- The tree with a new entry in a directory. -/
def withEntry (t : Tree) (id q : Nat) (name : Str) (isFile : Bool) : Tree where
  root := t.root
  node c := if c = id then some ⟨name, isFile, some q⟩ else t.node c

section Tree
variable {t : Tree} {id q : Nat} {name : Str} {isFile : Bool}

theorem node_withEntry_self : (withEntry t id q name isFile).node id = some ⟨name, isFile, some q⟩ :=
  if_pos rfl

theorem node_withEntry_ne {c : Nat} (other : c ≠ id) :
    (withEntry t id q name isFile).node c = t.node c :=
  if_neg other

theorem node_withEntry {c : Nat} {m : Node} (here : (withEntry t id q name isFile).node c = some m) :
    c = id ∧ m = ⟨name, isFile, some q⟩ ∨ c ≠ id ∧ t.node c = some m := by
  by_cases same : c = id
  · subst same
    cases node_withEntry_self.symm.trans here
    exact .inl ⟨rfl, rfl⟩
  · exact .inr ⟨same, (node_withEntry_ne same).symm.trans here⟩

theorem old_ne_new (new : t.node id = none) {c : Nat} {m : Node} (here : t.node c = some m) :
    c ≠ id := by
  rintro rfl
  cases new.symm.trans here

theorem depth_withEntry (new : t.node id = none) {c k : Nat} (depth : t.Depth c k) :
    (withEntry t id q name isFile).Depth c k := by
  induction depth with
  | root => exact .root
  | entry here parent above directory depth ih =>
    exact .entry ((node_withEntry_ne (old_ne_new new here)).trans here) parent
      ((node_withEntry_ne (old_ne_new new above)).trans above) directory ih

theorem wellFormed_withEntry (wf : t.WellFormed) (new : t.node id = none) (small : id ≤ INT_MAX)
    {o : Node} (above : t.node q = some o) (directory : o.isFile = false)
    (free : ∀ c n, t.node c = some n → n.parent = some q → n.name ≠ name) (isFile : Bool) :
    (withEntry t id q name isFile).WellFormed where
  root := by
    obtain ⟨top, here⟩ := wf.root
    exact ⟨top, (node_withEntry_ne (old_ne_new new here)).trans here⟩
  rooted here := by
    rcases node_withEntry here with ⟨rfl, rfl⟩ | ⟨-, here⟩
    · obtain ⟨k, depth⟩ := wf.rooted above
      exact ⟨k + 1, .entry node_withEntry_self rfl
        ((node_withEntry_ne (old_ne_new new above)).trans above) directory
        (depth_withEntry new depth)⟩
    · obtain ⟨k, depth⟩ := wf.rooted here
      exact ⟨k, depth_withEntry new depth⟩
  inInt here := by
    rcases node_withEntry here with ⟨rfl, rfl⟩ | ⟨-, here⟩
    · exact small
    · exact wf.inInt here
  distinct first second up named := by
    rcases node_withEntry first with ⟨rfl, rfl⟩ | ⟨-, old⟩
    · rcases node_withEntry second with ⟨rfl, rfl⟩ | ⟨-, other⟩
      · rfl
      · exact absurd named.symm (free _ _ other up.symm)
    · rcases node_withEntry second with ⟨rfl, rfl⟩ | ⟨-, other⟩
      · exact absurd named (free _ _ old up)
      · exact wf.distinct old other up named

theorem spelled_withEntry (spelled : Spelled t) (new : t.node id = none) (wf : t.WellFormed)
    (letters : ∀ c ∈ name, pathChar c = true) (q : Nat) (isFile : Bool) :
    Spelled (withEntry t id q name isFile) where
  names c m here := by
    rcases node_withEntry here with ⟨rfl, rfl⟩ | ⟨-, here⟩
    · exact letters
    · exact spelled.names c m here
  root n here := by
    obtain ⟨top, root⟩ := wf.root
    exact spelled.root n ((node_withEntry_ne (old_ne_new new root)).symm.trans here)

end Tree

/-! The object of the new entry -/

section Object
variable {t : Tree} {h : Handler}

/-- A creation does what the parser does with a new item, and takes the next id. -/
theorem createEntry_eq (parent : Ptr) (item : Item) (unknown : h.directories.lookup item.id = none)
    (small : item.id ≤ INT_MAX) : createEntry h (some parent) item.name item.id item.isFile =
      (attach h parent item).map fun h => { h with latestId := h.latestId.map (· + 1) } := by
  rw [createEntry, if_neg (Nat.not_lt.mpr small), attach, Handler.findOrCreateDirMapping, unknown]
  simp only [Handler.free, Handler.allocate, Option.map_bind]
  rfl

/-- A handler that holds the tree has read a part of the tree with the new entry. -/
theorem grown_of_exact (wf : t.WellFormed) (exact : Exact t h) (tidy : Tidy h) {id : Nat}
    (new : t.node id = none) (q : Nat) (name : Str) (isFile : Bool) :
    Grown (withEntry t id q name isFile) h.directories.keys { usr := h.usr, backendFd := 0 } h := by
  have keys : ∀ c, c ∈ h.directories.keys ↔ (t.node c).isSome := fun c => by
    rw [← exact.ids c, AList.lookup_isSome, AList.mem_keys]
  have known : ∀ {c}, c ∈ h.directories.keys → ∃ n, t.node c = some n := fun mem =>
    Option.isSome_iff_exists.mp ((keys _).mp mem)
  have old : ∀ {c n}, c ∈ h.directories.keys → (withEntry t id q name isFile).node c = some n →
      t.node c = some n := by
    intro c n mem here
    obtain ⟨m, node⟩ := known mem
    rwa [node_withEntry_ne (old_ne_new new node)] at here
  obtain ⟨top, root⟩ := wf.root
  constructor
  case top =>
    refine ⟨(keys _).mpr (Option.isSome_iff_exists.mpr ⟨_, root⟩), fun mem here parent => ?_⟩
    obtain ⟨d, above, -⟩ := wf.directory (old mem here) parent
    exact (keys _).mpr (Option.isSome_iff_exists.mpr ⟨d, above⟩)
  case within =>
    intro c mem
    obtain ⟨n, here⟩ := known mem
    rw [node_withEntry_ne (old_ne_new new here), here]
    rfl
  case tidy => exact tidy
  case known =>
    intro c
    rw [exact.ids, keys]
    exact (or_iff_left nofun).symm
  case pointers => nofun
  case unread => nofun
  case read =>
    intro c n mem here
    have here := old mem here
    obtain ⟨d, object, shows⟩ := exact.laid c n here
    have entries := exact.laid.lookup_iff wf.toRooted exact.filesEmpty here object
    refine ⟨d, object, shows.relativePath, shows.ident, shows.isFile, shows.isRoot, shows.parent,
      fun none => ?_, fun e m listed child up => ?_, fun name free => ?_⟩
    · have self : c = t.root := by
        by_contra below
        obtain ⟨p, -, parent, -⟩ := wf.parent_of here below
        rw [none] at parent
        cases parent
      subst self
      exact exact.top d object
    · exact (entries _ _).mpr ⟨e, m, old listed child, up, rfl, rfl⟩
    · refine Option.eq_none_iff_forall_ne_some.mpr fun p entry => ?_
      obtain ⟨e, m, child, up, named, -⟩ := (entries name p).mp entry
      refine free e m ((keys e).mpr (by rw [child]; rfl)) ?_ up named
      rw [node_withEntry_ne (old_ne_new new child), child]

/-- An entry of a directory is made as one of the tree. -/
theorem created_in_directory (wf : t.WellFormed) (exact : Exact t h) (tidy : Tidy h) {id q : Nat}
    {o : Node} {name : Str} (new : t.node id = none) (small : id ≤ INT_MAX)
    (above : t.node q = some o) (directory : o.isFile = false)
    (free : ∀ c n, t.node c = some n → n.parent = some q → n.name ≠ name) (isFile : Bool) :
    ∃ h', createEntry h (some (ptrOf h q)) name id isFile = some h' ∧
      Holds (withEntry t id q name isFile) h' (ptrOf h') ∧
      h'.latestId = h.latestId.map (· + 1) := by
  have wf' := wellFormed_withEntry wf new small above directory free isFile
  have unknown : h.directories.lookup id = none := by
    rw [← Option.not_isSome_iff_eq_none, exact.ids, new]
    simp
  have mem : ∀ c n, t.node c = some n → c ∈ h.directories.keys := by
    intro c n here
    rw [← AList.mem_keys, ← AList.lookup_isSome, exact.ids, here]
    rfl
  have absent : id ∉ h.directories.keys := by
    intro known
    rw [← AList.mem_keys, ← AList.lookup_isSome, unknown] at known
    cases known
  obtain ⟨h', made, grown, kept⟩ : ∃ h', attach h (ptrOf h q) ⟨name, id, isFile⟩ = some h' ∧
      Grown (withEntry t id q name isFile) (id :: h.directories.keys)
        { usr := h.usr, backendFd := 0 } h' ∧ Kept h.directories.keys h h' :=
    grown_attach wf' (grown_of_exact wf exact tidy new q name isFile) (mem q o above)
      ((node_withEntry_ne (old_ne_new new above)).trans above) node_withEntry_self rfl rfl rfl absent
  have all : ∀ c, c ∈ id :: h.directories.keys ↔
      ((withEntry t id q name isFile).node c).isSome := by
    intro c
    refine ⟨grown.within c, fun some => ?_⟩
    obtain ⟨n, here⟩ := Option.isSome_iff_exists.mp some
    rcases node_withEntry here with ⟨rfl, -⟩ | ⟨-, here⟩
    · exact List.mem_cons_self
    · exact List.mem_cons_of_mem _ (mem c n here)
  have root : h'.root = some (ptrOf h' (withEntry t id q name isFile).root) := by
    obtain ⟨top, root⟩ := wf.root
    rw [kept.root, exact.root, ← kept.ptr _ (mem _ _ root)]
    rfl
  have held : Exact (withEntry t id q name isFile) h' := exact_of_grown wf' grown all root nofun
    (fun c n _ => fitsEntry_new _ c n) fun _ _ => rfl
  refine ⟨{ h' with latestId := h'.latestId.map (· + 1) }, ?_, ⟨held.root, held.laid⟩, ?_⟩
  · rw [createEntry_eq _ ⟨name, id, isFile⟩ unknown small, made]
    rfl
  · show h'.latestId.map (· + 1) = _
    rw [kept.latestId]

/-- An entry of a file changes nothing of the tree. -/
theorem created_in_file (exact : Exact t h) (tidy : Tidy h) {id q : Nat}
    {o : Node} (new : t.node id = none) (small : id ≤ INT_MAX) (above : t.node q = some o)
    (file : o.isFile = true) (name : Str) (isFile : Bool) :
    ∃ h', createEntry h (some (ptrOf h q)) name id isFile = some h' ∧ Holds t h' (ptrOf h) ∧
      h'.latestId = h.latestId.map (· + 1) := by
  have unknown : h.directories.lookup id = none := by
    rw [← Option.not_isSome_iff_eq_none, exact.ids, new]
    simp
  obtain ⟨d, object, -⟩ := exact.laid q o above
  have made : attach h (ptrOf h q) ⟨name, id, isFile⟩ =
      some (attached h (ptrOf h q) d ⟨name, id, isFile⟩) :=
    attach_new unknown object (Nat.ne_of_lt (tidy.bounded _ d object))
  refine ⟨{ attached h (ptrOf h q) d ⟨name, id, isFile⟩ with latestId := h.latestId.map (· + 1) },
    ?_, ⟨exact.root, fun x n here => ?_⟩, rfl⟩
  · rw [createEntry_eq _ ⟨name, id, isFile⟩ unknown small, made]
    rfl
  obtain ⟨e, stored, shows⟩ := exact.laid x n here
  show ∃ d', (attached h (ptrOf h q) d ⟨name, id, isFile⟩).memory.lookup _ = some d' ∧ _
  rw [memory_attached, if_neg (Nat.ne_of_lt (tidy.bounded _ e stored))]
  by_cases same : ptrOf h x = ptrOf h q
  · rw [if_pos same]
    obtain rfl := exact.laid.injective here above same
    cases object.symm.trans stored
    cases above.symm.trans here
    refine ⟨_, rfl, shows.relativePath, shows.ident, shows.isFile, shows.isRoot, shows.parent,
      fun directory => ?_⟩
    rw [file] at directory
    cases directory
  · rw [if_neg same]
    exact ⟨e, stored, shows⟩

end Object

/-! What is stored -/

def Writes : KvCall → Prop
  | .gets _ _ => False
  | _ => True

/-- The KV store accepts all writes. -/
def AcceptingWrites (calls : List Exchange) : Prop :=
  ∀ c ∈ calls, Writes c.1 → c.2.status = .finished

/-- Where the creation or the upload is answered with SUCCESS, the metadata that it has stored for
its user, in place of the text that the handler has read, are those of the tree with the one new
entry. -/
def CreatesExactly (env : Env) (t : Tree) (latest : Nat) (h : Handler) (req : StorageServiceReq) :
    Prop :=
  ∀ resp calls r, Conversation (handleCreationAndQuery env req (kMaxAttempt + 1) h resp) calls r →
    AcceptingWrites calls → r.2.getStatus = .success →
      ∃ q text reply after, t.Leads t.root (components (creationPath req)).dropLast q ∧
        calls = (.cput h.usr kMetadataFp h.metadataStr text, reply) :: after ∧
        (∀ c ∈ after, ¬ MetadataCput c.1) ∧
        Says (withEntry t (latest + 1) q (lastName (creationPath req))
          (decide (req.type = .fileUpload))) (latest + 1) text

/-- The parent of the new entry is not a file. -/
def ParentFits (t : Tree) (path : Str) : Prop :=
  ∀ q o, t.Leads t.root (components path).dropLast q → t.node q = some o → o.isFile = false

theorem lastName_way (token rest : Str) (noSlash : '/' ∉ token) :
    (way token rest).2 = lastName (token ++ rest) := by
  induction rest generalizing token with
  | nil => rw [way, List.append_nil, lastName_name noSlash]
  | cons c rest ih =>
    rw [way]
    by_cases slash : c = '/'
    · subst slash
      rw [if_pos rfl, lastName_slash]
      split <;> exact ih [] List.not_mem_nil
    · rw [if_neg slash, ih _ (by simp [noSlash, Ne.symm slash])]
      simp

section Stored
variable {t : Tree} {h : Handler} {env : Env} {latest : Nat} {req : StorageServiceReq}

/-- What follows the stored metadata: the content of an upload. -/
def finish (env : Env) (req : StorageServiceReq) (id : Nat) (h : Handler)
    (resp : StorageServiceResp) : Service (Handler × StorageServiceResp) :=
  if req.type = .fileUpload then putContent env (creationPath req) req.uploadContent id h resp
  else .done (h, populateSuccessResp h resp)

/-- Where the content is stored too, the request is answered with SUCCESS and without another CPUT
of the metadata. -/
theorem finish_answered (env : Env) (req : StorageServiceReq) (id : Nat) (h : Handler)
    (resp : StorageServiceResp) : ∃ calls r, Conversation (finish env req id h resp) calls r ∧
      AcceptingWrites calls ∧ r.2.getStatus = .success := by
  unfold finish
  split
  · refine ⟨[(.puts h.usr (toDecimal id) req.uploadContent, ⟨.finished, []⟩)],
      (h, populateSuccessResp h resp), .ask (.done _), fun c mem _ => ?_, rfl⟩
    rw [List.mem_singleton.mp mem]
  · exact ⟨[], (h, populateSuccessResp h resp), .done _, List.forall_mem_nil _, rfl⟩

theorem finish_calls {id : Nat} {resp : StorageServiceResp} {calls : List Exchange}
    {r : Handler × StorageServiceResp} (ran : Conversation (finish env req id h resp) calls r)
    (accepting : AcceptingWrites calls) : ∀ c ∈ calls, ¬ MetadataCput c.1 := by
  unfold finish at ran
  split at ran
  · obtain ⟨asked, rest, reply, rfl, question, done⟩ := conversation_bind.mp ran
    rw [conversation_question.mp question] at accepting ⊢
    have finished : reply.status = .finished := accepting _ List.mem_cons_self trivial
    simp only [finished, if_true] at done
    obtain ⟨rfl, -⟩ := conversation_done.mp done
    intro c mem put
    rw [List.append_nil, List.mem_singleton] at mem
    obtain ⟨usr, old, new, same⟩ := put
    rw [mem] at same
    cases same
  · obtain ⟨rfl, -⟩ := conversation_done.mp ran
    exact List.forall_mem_nil _

theorem path_of_creation (makes : req.type = .fileUpload ∨ req.type = .dirCreate) :
    (if decide (req.type = .fileUpload) = true then req.uploadPath else req.dirPath) =
      creationPath req ∧ decide (req.type = .dirQuery) = false := by
  rcases makes with upload | create
  · simp [creationPath, upload]
  · simp [creationPath, create]

/-- A creation whose path exists, or has no parent, fails. -/
theorem creation_refused (env : Env) (makes : req.type = .fileUpload ∨ req.type = .dirCreate)
    {found : Found} (looked : h.validatePathAndGetDir (creationPath req) = some found)
    (refused : found.valid = true ∨ found.parentDir = none) (resp : StorageServiceResp) :
    ∃ errorMsg, handleCreationAndQuery env req (kMaxAttempt + 1) h resp =
      .done (found.handler, resp.fail errorMsg) := by
  obtain ⟨path, query⟩ := path_of_creation makes
  rw [handleCreationAndQuery]
  simp only [path, query, looked, Dialogue.ofOption, Dialogue.bind, Bool.false_and,
    Bool.false_eq_true, if_false, Bool.not_false, Bool.true_and]
  by_cases valid : found.valid = true
  · exact ⟨_, if_pos valid⟩
  · rw [if_neg valid, refused.resolve_left valid]
    exact ⟨_, if_pos rfl⟩

/-- A creation in a parent makes the entry and stores the metadata. -/
theorem creation_made (env : Env) (makes : req.type = .fileUpload ∨ req.type = .dirCreate) {p : Ptr}
    {name : Str} (looked : h.validatePathAndGetDir (creationPath req) = some ⟨false, some p, none, name, h⟩)
    (known : h.latestId = some latest) :
    ∃ again : Handler → Service (Handler × StorageServiceResp), ∀ resp,
      handleCreationAndQuery env req (kMaxAttempt + 1) h resp =
        (Dialogue.ofOption (createEntry h (some p) name (latest + 1)
          (decide (req.type = .fileUpload)))).bind fun h' =>
          (writeMetadataToKv env h').bind fun written =>
            if written.1 then finish env req (latest + 1) { h' with metadataStr := written.2 } resp
            else again h' := by
  obtain ⟨path, query⟩ := path_of_creation makes
  refine ⟨fun h' => (Dialogue.ofOption (revertCreate h' (some p) name (latest + 1))).bind fun h =>
    (readMetadata env h).bind fun read =>
      if read.1 then handleCreationAndQuery env req kMaxAttempt read.2 .cleared
      else .done (read.2, .cleared), fun resp => ?_⟩
  rw [handleCreationAndQuery]
  simp only [path, query, looked, Dialogue.ofOption, Dialogue.bind, Bool.false_and,
    Bool.false_eq_true, if_false, Bool.not_false, Bool.true_and, Option.isNone_some, known]
  refine congrArg _ (funext fun h' => congrArg _ (funext fun written => ?_))
  unfold finish
  by_cases upload : req.type = .fileUpload <;> simp [upload, populateSuccessResp]

/-- What holds of the metadata that a creation stores holds of what is printed. -/
theorem createsExactly_stored (makes : req.type = .fileUpload ∨ req.type = .dirCreate) {p : Ptr}
    {name : Str} {h' : Handler}
    (looked : h.validatePathAndGetDir (creationPath req) = some ⟨false, some p, none, name, h⟩)
    (known : h.latestId = some latest)
    (made : createEntry h (some p) name (latest + 1) (decide (req.type = .fileUpload)) = some h') :
    CreatesExactly env t latest h req ↔ ∀ text, h'.getMetadataStr env = some text →
      ∃ q, t.Leads t.root (components (creationPath req)).dropLast q ∧
        Says (withEntry t (latest + 1) q (lastName (creationPath req))
          (decide (req.type = .fileUpload))) (latest + 1) text := by
  obtain ⟨again, run⟩ := creation_made env makes looked known
  simp only [made, Dialogue.ofOption, Dialogue.bind] at run
  constructor
  · intro exact text printed
    obtain ⟨calls, r, ran, accepting, success⟩ := finish_answered env req (latest + 1)
      { h' with metadataStr := text } .cleared
    have answered : Conversation (handleCreationAndQuery env req (kMaxAttempt + 1) h .cleared)
        ((.cput h'.usr kMetadataFp h'.metadataStr text, ⟨.finished, []⟩) :: calls) r := by
      rw [run, writeMetadataToKv, printed]
      exact .ask ran
    obtain ⟨q, text', reply, after, leads, same, -, said⟩ := exact _ _ _ answered
      (fun c mem writes => by
        rcases List.mem_cons.mp mem with rfl | later
        · rfl
        · exact accepting c later writes) success
    have kept := sameText_createEntry made
    rw [kept.usr, kept.metadataStr] at same
    cases same
    exact ⟨q, leads, said⟩
  · intro stored resp calls r ran accepting success
    rw [run] at ran
    obtain ⟨text, reply, rest, printed, rfl, written⟩ := conversation_write ran
    obtain ⟨here, later⟩ := List.forall_mem_cons.mp accepting
    have finished : reply.status = .finished := here trivial
    simp only [finished, decide_true, if_true] at written
    obtain ⟨q, leads, said⟩ := stored text printed
    have same := sameText_createEntry made
    refine ⟨q, text, reply, rest, leads, ?_, finish_calls written later, said⟩
    rw [same.usr, same.metadataStr]

end Stored

section Exact
variable {t : Tree} {h : Handler} {env : Env} {latest : Nat} {req : StorageServiceReq}

/-- An entry of a file is not stored. -/
theorem not_createsExactly_in_file (wf : t.WellFormed) (named : Named t) (exact : Exact t h)
    (tidy : Tidy h) (known : h.latestId = some latest) (unused : t.node (latest + 1) = none)
    (enough : INT_MAX < env.fuel) (makes : req.type = .fileUpload ∨ req.type = .dirCreate)
    (small : latest + 1 ≤ INT_MAX) {b : Nat} {o : Node} {name : Str}
    (looked : h.validatePathAndGetDir (creationPath req) =
      some ⟨false, some (ptrOf h b), none, name, h⟩) (above : t.node b = some o)
    (file : o.isFile = true) : ¬ CreatesExactly env t latest h req := by
  obtain ⟨h', made, holds, latest'⟩ :=
    created_in_file exact tidy unused small above file name (decide (req.type = .fileUpload))
  rw [createsExactly_stored makes looked known made]
  intro all
  rw [known] at latest'
  obtain ⟨text, printed, said⟩ := said_of_holds wf named.spelled holds latest' small enough
  obtain ⟨q, -, other⟩ := all text printed
  refine not_said_of_lost said unused ?_ other
  rw [node_withEntry_self]
  rfl

/-- A creation or an upload that is answered with SUCCESS stores the tree with the one new entry,
and with nothing else changed, if and only if the parent of the entry is not a file. -/
theorem creates_exactly_iff (wf : t.WellFormed) (named : Named t) (exact : Exact t h) (tidy : Tidy h)
    (known : h.latestId = some latest) (used : ∀ id n, t.node id = some n → id ≤ latest)
    (next : latest < INT_MAX) (enough : INT_MAX < env.fuel)
    (makes : req.type = .fileUpload ∨ req.type = .dirCreate)
    (last : lastName (creationPath req) ≠ [])
    (valid : validFilename (lastName (creationPath req)) = true) :
    CreatesExactly env t latest h req ↔ ParentFits t (creationPath req) := by
  have letters : ∀ c ∈ lastName (creationPath req), pathChar c = true := fun c mem =>
    pathChar_of_validChar (List.all_eq_true.mp valid c mem)
  have name : (way [] (creationPath req)).2 = lastName (creationPath req) :=
    lastName_way [] _ List.not_mem_nil
  have notTrailing : ¬ Trailing (creationPath req) := by
    rw [← way_eq_nil, name]
    exact last
  have names := components_of_named notTrailing
  have init : (components (creationPath req)).dropLast = (way [] (creationPath req)).1 := by
    rw [names, List.dropLast_concat]
  have refused : (∃ found, h.validatePathAndGetDir (creationPath req) = some found ∧
      (found.valid = true ∨ found.parentDir = none)) → CreatesExactly env t latest h req := by
    rintro ⟨found, looked, no⟩ resp calls r ran - success
    obtain ⟨errorMsg, run⟩ := creation_refused env makes looked no resp
    rw [run] at ran
    obtain ⟨-, rfl⟩ := conversation_done.mp ran
    cases success
  by_cases missing : ∃ id, t.Leads t.root (components (creationPath req)) id
  · -- the path exists, so its parent is a directory
    obtain ⟨id, leads⟩ := missing
    refine ⟨fun _ q o way node => ?_, fun _ => refused ?_⟩
    · rw [names] at leads
      rw [init] at way
      obtain ⟨b, before, final⟩ := leads.of_append
      obtain rfl := way.unique wf before
      obtain ⟨n, here, parent, -⟩ := final.last
      obtain ⟨o', above, directory⟩ := wf.directory here parent
      cases node.symm.trans above
      exact directory
    · rcases validate_entryAt wf.toRooted exact.toHolds (entryAt_of_named notTrailing leads) with
        ⟨looked, -⟩ | ⟨n, p, -, -, looked⟩
      · exact ⟨_, looked, .inl rfl⟩
      · exact ⟨_, looked, .inl rfl⟩
  · obtain ⟨parentDir, name', looked, new, lost⟩ :=
      validate_missing wf exact.toHolds exact.filesEmpty missing
    by_cases reached : ∃ b, t.Leads t.root (way [] (creationPath req)).1 b
    · obtain ⟨b, leads⟩ := reached
      obtain ⟨rfl, rfl⟩ := new notTrailing b leads
      obtain ⟨top, root⟩ := wf.root
      obtain ⟨o, above⟩ := leads.node root
      have unused : t.node (latest + 1) = none := by
        cases here : t.node (latest + 1) with
        | none => rfl
        | some n => exact absurd (used _ n here) (by omega)
      have free : ∀ c n, t.node c = some n → n.parent = some b →
          n.name ≠ (way [] (creationPath req)).2 := by
        intro c n child parent same
        refine missing ⟨c, ?_⟩
        rw [names, ← same]
        exact leads.append (.step child parent (.here c))
      have small : latest + 1 ≤ INT_MAX := next
      cases kind : o.isFile with
      | false =>
        obtain ⟨h', made, holds, latest'⟩ :=
          created_in_directory wf exact tidy unused small above kind free
            (decide (req.type = .fileUpload))
        rw [createsExactly_stored makes looked known made]
        refine ⟨fun _ q o' way node => ?_, fun _ text printed => ⟨b, ?_, ?_⟩⟩
        · rw [init] at way
          obtain rfl := way.unique wf leads
          cases node.symm.trans above
          exact kind
        · rw [init]
          exact leads
        · rw [known] at latest'
          have wf' := wellFormed_withEntry wf unused small above kind free
            (decide (req.type = .fileUpload))
          have spelled := spelled_withEntry named.spelled unused wf (name ▸ letters) b
            (decide (req.type = .fileUpload))
          obtain ⟨text', printed', said⟩ := said_of_holds wf' spelled holds latest' small enough
          cases printed.symm.trans printed'
          rw [name] at said
          exact said
      | true =>
        constructor
        · intro created
          exact absurd created (not_createsExactly_in_file wf named exact tidy known unused enough
            makes small looked above kind)
        · intro fits
          have directory := fits b o (by rw [init]; exact leads) above
          rw [kind] at directory
          cases directory
    · rw [lost reached] at looked
      refine ⟨fun _ q o way node => ?_, fun _ => refused ⟨_, looked, .inr rfl⟩⟩
      rw [init] at way
      exact absurd ⟨q, way⟩ reached

end Exact

/-- A handler that has parsed the tree of bob. -/
theorem bob_parsed : ∃ h, Exact bobsTree h ∧ Tidy h ∧ h.latestId = some 3 := by
  have enough : INT_MAX < deepEnv.fuel := Nat.lt_succ_self _
  obtain ⟨text, -, said⟩ := said_of_holds wellFormed_bobsTree named_bobsTree.spelled holds_bobsTree
    rfl (by decide) enough
  obtain ⟨h, parsed, exact, latest⟩ := said deepEnv [] 0 enough
  exact ⟨h, exact, (tidy_new _ _ _).parseMetadataFile parsed, latest⟩

theorem used_bobsTree : ∀ id n, bobsTree.node id = some n → id ≤ 3 := by
  intro id n here
  rcases node_bobsTree.mp here with ⟨rfl, -⟩ | ⟨rfl, -⟩ | ⟨rfl, -⟩ <;> decide

/-- A folder below the folder of bob. -/
theorem creates_exactly_folder : ∃ h, Exact bobsTree h ∧ Tidy h ∧
    CreatesExactly deepEnv bobsTree 3 h ⟨.dirCreate, .dirCreateOrQueryReq "/d/e".toList⟩ := by
  obtain ⟨h, exact, tidy, latest⟩ := bob_parsed
  have init : (components "/d/e".toList).dropLast = [['d']] := by decide +kernel
  refine ⟨h, exact, tidy, (creates_exactly_iff wellFormed_bobsTree named_bobsTree exact tidy latest
    used_bobsTree (by decide) (Nat.lt_succ_self _) (.inr rfl) (by decide +kernel)
    (by decide +kernel)).mpr fun q o leads here => ?_⟩
  have way : bobsTree.Leads 1 [['d']] 2 := .step node_folder rfl (.here 2)
  obtain rfl : q = 2 := (init ▸ leads : bobsTree.Leads 1 [['d']] q).unique wellFormed_bobsTree way
  cases here
  rfl

/-- An upload below the file of bob is answered with SUCCESS and not stored. -/
theorem not_creates_exactly_in_file : ∃ h, Exact bobsTree h ∧ Tidy h ∧ h.latestId = some 3 ∧
    validFilename (lastName "/d/f/x".toList) = true ∧
    ¬ CreatesExactly deepEnv bobsTree 3 h ⟨.fileUpload, .fileUploadReq "/d/f/x".toList ['h', 'i']⟩ := by
  obtain ⟨h, exact, tidy, latest⟩ := bob_parsed
  refine ⟨h, exact, tidy, latest, by decide +kernel, ?_⟩
  have way : way [] "/d/f/x".toList = ([['d'], ['f']], ['x']) := by decide +kernel
  have names : components "/d/f/x".toList = [['d'], ['f']] ++ [['x']] := by decide +kernel
  have leads : bobsTree.Leads 1 [['d'], ['f']] 3 :=
    .step node_folder rfl (.step node_file rfl (.here 3))
  have missing : ¬ ∃ id, bobsTree.Leads bobsTree.root (components "/d/f/x".toList) id := by
    rintro ⟨id, whole⟩
    rw [names] at whole
    obtain ⟨b, before, final⟩ := whole.of_append
    obtain rfl : b = 3 := before.unique wellFormed_bobsTree leads
    obtain ⟨n, here, parent, -⟩ := final.last
    rcases node_bobsTree.mp here with ⟨rfl, rfl⟩ | ⟨rfl, rfl⟩ | ⟨rfl, rfl⟩ <;> cases parent
  obtain ⟨parentDir, name, looked, new, -⟩ :=
    validate_missing wellFormed_bobsTree exact.toHolds exact.filesEmpty missing
  obtain ⟨rfl, -⟩ := new (by decide +kernel) 3 (by rw [way]; exact leads)
  exact not_createsExactly_in_file wellFormed_bobsTree named_bobsTree exact tidy latest rfl
    (Nat.lt_succ_self _) (.inl rfl) (by decide) looked node_file rfl

end StorageCreate
