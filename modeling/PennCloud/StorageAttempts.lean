import PennCloud.StorageParts

/-!
# What the attempts of a request store

A request that succeeds stores the metadata with its change last. Before that it may
have been refused and have read the metadata again, and a deletion has stored the
metadata without each entry of the directory. Where every reload keeps the entries of
the text before, what is stored in the end is what the request makes of the text that
stood first.
-/

namespace StorageAttempts

open Text KvInterface UnorderedMap StorageMetadata StorageHandler StorageCommit Dialogue
  StorageTree MetadataText MetadataPrinting MetadataParsing HandlerText HandlerObjects
  MetadataMerging StorageCreate StorageDelete StorageMove StorageRename StorageReload StorageEffects
  StorageParts
open StorageFailure (leaf_readded)

/-! The metadata that were stored -/

/-- The old and the new text of a CPUT of the metadata that was not refused. -/
def stored : Exchange → Option (Str × Str)
  | (.cput _ key old new, reply) =>
    if key = kMetadataFp ∧ reply.status = .finished then some (old, new) else none
  | _ => none

def stores (calls : List Exchange) : List (Str × Str) := calls.filterMap stored

/-- The text that was read or stored last, after a call. -/
def look (seen : Str) : Exchange → Str
  | (.gets _ key, reply) => if key = kMetadataFp then reply.value else seen
  | (.cput _ key _ new, reply) =>
    if key = kMetadataFp ∧ reply.status = .finished then new else seen
  | _ => seen

/-- Each text is stored in place of the one before. -/
def Successive : Str → List (Str × Str) → Str → Prop
  | text, [], last => last = text
  | text, (old, new) :: later, last => old = text ∧ Successive new later last

@[simp] theorem stores_append (calls later : List Exchange) :
    stores (calls ++ later) = stores calls ++ stores later := List.filterMap_append

section Successive
variable {a b c d : Str} {l l' : List (Str × Str)}

theorem successive_append : Successive a (l ++ l') c ↔ ∃ b, Successive a l b ∧ Successive b l' c := by
  induction l generalizing a with
  | nil =>
    constructor
    · exact fun later => ⟨a, rfl, later⟩
    · rintro ⟨b, rfl, later⟩
      exact later
  | cons p l ih =>
    rw [List.cons_append, Successive, ih]
    constructor
    · rintro ⟨same, b, first, later⟩
      exact ⟨b, ⟨same, first⟩, later⟩
    · rintro ⟨b, ⟨same, first⟩, later⟩
      exact ⟨same, b, first, later⟩

theorem Successive.start (first : Successive a l c) (second : Successive b l c) : a = b := by
  cases l with
  | nil => exact (show c = a from first).symm.trans second
  | cons p l => exact first.1.symm.trans second.1

theorem Successive.last (first : Successive a l c) (second : Successive b l d) (some : l ≠ []) :
    a = b ∧ c = d := by
  induction l generalizing a b with
  | nil => exact absurd rfl some
  | cons p l ih =>
    refine ⟨first.1.symm.trans second.1, ?_⟩
    cases l with
    | nil => exact (show c = p.2 from first.2).trans (show d = p.2 from second.2).symm
    | cons q l => exact (ih first.2 second.2 (List.cons_ne_nil _ _)).2

end Successive

/-- The text is that of some tree. -/
def Proper (text : Str) : Prop := ∃ t latest, MetadataOf t latest text

/-- The tree of the second text has all entries of that of the first, unchanged. -/
def Keeps (text text' : Str) : Prop :=
  ∃ t latest t' latest', MetadataOf t latest text ∧ MetadataOf t' latest' text' ∧ Extends t' t

/-- Every text that is read keeps the entries of the one that was read or stored before. -/
def Keeping : Str → List Exchange → Prop
  | _, [] => True
  | seen, call :: calls =>
    (∀ usr reply, call = (.gets usr kMetadataFp, reply) → Keeps seen reply.value) ∧
      Keeping (look seen call) calls

theorem keeping_append {seen : Str} {calls later : List Exchange} :
    Keeping seen (calls ++ later) ↔ Keeping seen calls ∧ Keeping (calls.foldl look seen) later := by
  induction calls generalizing seen with
  | nil => exact (and_iff_right trivial).symm
  | cons call calls ih =>
    rw [List.cons_append, Keeping, Keeping, ih, List.foldl_cons, and_assoc]

/-! One attempt -/

/-- On the way to what is left a part of the tree is stored each time. -/
def Between (t : Tree) (latest : Nat) (left : Tree) (text : Str) (l : List (Str × Str)) : Prop :=
  ∀ l₁ l₂ last, l = l₁ ++ l₂ → l₁ ≠ [] → Successive text l₁ last →
    ∃ middle, MetadataOf middle latest last ∧ Extends t middle ∧ Extends middle left ∧ middle ≠ t

theorem between_nil {t left : Tree} {latest : Nat} {text : Str} : Between t latest left text [] := by
  intro l₁ l₂ last split some
  exact absurd (List.append_eq_nil_iff.mp split.symm).1 some

/-- One more part is stored. -/
theorem Between.cut {t t' left : Tree} {latest : Nat} {text new : Str} {l : List (Str × Str)}
    {p : Str × Str} (between : Between t latest left text l) (whole : Successive text (l ++ [p]) new)
    (known : MetadataOf t' latest new) (part : Extends t left) (smaller : Extends left t')
    (lost : t' ≠ t) : Between t latest t' text (l ++ [p]) := by
  intro l₁ l₂ last split some first
  rcases List.append_eq_append_iff.mp split with ⟨later, rfl, single⟩ | ⟨later, rfl, -⟩
  · rcases List.singleton_eq_append_iff.mp single with ⟨rfl, rfl⟩ | ⟨rfl, rfl⟩
    · rw [List.append_nil] at some first
      obtain ⟨middle, stored, larger, above, other⟩ :=
        between _ _ _ (List.append_nil l).symm some first
      exact ⟨middle, stored, larger, above.trans smaller, other⟩
    · obtain ⟨-, rfl⟩ := whole.last first some
      exact ⟨t', known, part.trans smaller, .refl _, lost⟩
  · obtain ⟨middle, stored, larger, above, other⟩ := between _ _ _ rfl some first
    exact ⟨middle, stored, larger, above.trans smaller, other⟩

/-- What an attempt from a tree does: a deletion has stored what is left without the entries of the
directory, one after the other, before the change of the request itself is stored. -/
structure Attempted (req : StorageServiceReq) (t : Tree) (latest : Nat) (h : Handler)
    (made : List Exchange) (h' : Handler) (back : Option Handler) (left : Tree) : Prop where
  usr : h'.usr = h.usr
  metadata : MetadataOf left latest h'.metadataStr
  seen : made.foldl look h.metadataStr = h'.metadataStr
  stored : Successive h.metadataStr (stores made) h'.metadataStr
  proper : ∀ p ∈ stores made, Proper p.2
  takenBack : ∃ restored, back = some restored ∧ Restored left restored ∧ SameText h' restored
  takes : ∃ t' latest', Takes req left latest t' latest' ∧ Prints t' latest' h'
  whole : stores made = [] → left = t
  emptied : stores made ≠ [] → Emptied req t left
  between : Between t latest left h.metadataStr (stores made)

section Attempt
variable {t t' : Tree} {h h' : Handler} {env : Env} {latest : Nat} {req : StorageServiceReq}

theorem attempted_of_took {back : Option Handler} (read : HasRead t latest h)
    (took : Took req t latest h h' back) : Attempted req t latest h [] h' back t := by
  obtain ⟨same, ⟨restored, taken, whole, text⟩, takes⟩ := took
  refine ⟨same.usr, ?_, same.metadataStr.symm, same.metadataStr, List.forall_mem_nil _,
    ⟨restored, taken, whole, text.usr.trans same.usr.symm,
      text.metadataStr.trans same.metadataStr.symm⟩, takes, fun _ => rfl, fun some => absurd rfl some,
    between_nil⟩
  rw [same.metadataStr]
  exact read.metadata

/-! A deletion -/

/-- The calls for the entries below have stored what is left without them. -/
structure Storing (t₀ : Tree) (text : Str) (latest : Nat) (t : Tree) (h : Handler)
    (calls : List Exchange) : Prop where
  metadata : MetadataOf t latest h.metadataStr
  seen : calls.foldl look text = h.metadataStr
  stored : Successive text (stores calls) h.metadataStr
  proper : ∀ p ∈ stores calls, Proper p.2
  part : Extends t₀ t
  between : Between t₀ latest t text (stores calls)

/-- The removal of a content is no call about the metadata. -/
theorem Storing.dele {t₀ : Tree} {text usr key : Str} {calls : List Exchange} {reply : KvReply}
    (storing : Storing t₀ text latest t h calls) :
    Storing t₀ text latest t h (calls ++ [(.dele usr key, reply)]) := by
  have silent : stores (calls ++ [(KvCall.dele usr key, reply)]) = stores calls := by
    rw [stores_append]
    exact List.append_nil _
  refine ⟨storing.metadata, ?_, ?_, ?_, storing.part, ?_⟩
  · rw [List.foldl_append, storing.seen]
    rfl
  · rw [silent]
    exact storing.stored
  · rw [silent]
    exact storing.proper
  · rw [silent]
    exact storing.between

theorem Storing.content {t₀ : Tree} {text usr : Str} {expectKvFailure : Bool} {curDir : Dirent}
    {calls content : List Exchange} (storing : Storing t₀ text latest t h calls)
    (gone : RemovesContent usr expectKvFailure curDir content) :
    Storing t₀ text latest t h (calls ++ content) := by
  rw [RemovesContent] at gone
  split at gone
  · obtain ⟨reply, rfl, -⟩ := gone
    exact storing.dele
  · subst gone
    rwa [List.append_nil]

/-- The metadata without an entry are stored. -/
theorem Storing.cput {t₀ : Tree} {text new usr : Str} {calls : List Exchange} {reply : KvReply}
    {x : Nat} {n : Node} (storing : Storing t₀ text latest t h calls)
    (finished : reply.status = .finished) (here : t.node x = some n)
    (known : MetadataOf (t.without x) latest new) (same : h'.metadataStr = new) :
    Storing t₀ text latest (t.without x) h'
      (calls ++ [(.cput usr kMetadataFp h.metadataStr new, reply)]) := by
  have last : stores [(KvCall.cput usr kMetadataFp h.metadataStr new, reply)] =
      [(h.metadataStr, new)] := by
    rw [stores, List.filterMap_cons, StorageAttempts.stored, if_pos ⟨rfl, finished⟩]
    rfl
  have whole : Successive text (stores calls ++ [(h.metadataStr, new)]) new :=
    successive_append.mpr ⟨_, storing.stored, rfl, rfl⟩
  have smaller : Extends t (t.without x) := extends_of_cut (cut_without t x)
  subst same
  refine ⟨known, ?_, ?_, ?_, storing.part.trans smaller, ?_⟩
  · rw [List.foldl_append, storing.seen, List.foldl_cons, look, if_pos ⟨rfl, finished⟩]
    rfl
  · rw [stores_append, last]
    exact whole
  · intro p mem
    rw [stores_append, last] at mem
    rcases List.mem_append.mp mem with old | new
    · exact storing.proper p old
    · rw [List.mem_singleton.mp new]
      exact ⟨_, latest, known⟩
  · rw [stores_append, last]
    refine storing.between.cut whole known storing.part smaller fun same => ?_
    have kept := storing.part.node here
    rw [← same] at kept
    exact (node_without.mp kept).1 .self

theorem reaches_anyRead {β World : Type} {step : World → KvCall → KvReply → World → Prop}
    {f : Bool × Handler → Service β} {w : World} {post : World → β → Prop}
    (next : ∀ read w', (f read).Reaches True step w' post) :
    ((readMetadata env h).bind f).Reaches True step w post := by
  rw [readMetadata, Dialogue.bind_assoc]
  refine reaches_question fun reply w' _ => ?_
  by_cases finished : reply.status = .finished
  · rw [if_neg (not_not.mpr finished), if_neg (by rw [finished]; decide)]
    cases Handler.parseMetadataFile env { h with metadataStr := reply.value } with
    | none => trivial
    | some r => exact next r w'
  · rw [if_pos finished]
    exact next _ w'

/-- Whatever the answers, what is left without a leaf is stored, or the deletion has failed. A
single attempt that is refused fails. -/
theorem deletesLeaf_any (enough : INT_MAX < env.fuel) {t₀ : Tree} {text : Str}
    {expectKvFailure : Bool} :
    DeletesLeaf True (recorded fun _ _ => True) (Storing t₀ text latest) (fun _ => True) env latest
      expectKvFailure 0 := by
  intro t h h₁ x b n fuel path found curDir resp calls serves same finds leaf parentDir name
    ident kind storing
  obtain ⟨h', removed, kept, holds, remains⟩ :=
    leaf_removed serves.wf serves.exact serves.tidy finds.here finds.parent leaf
  rw [← parentDir, ← name, ← ident] at removed
  have below := serves.wf.ne_root finds.here finds.parent
  have stored : ∀ calls, Storing t₀ text latest t h₁ calls →
      (storeRemoved env fuel 0 path found curDir.id h₁ resp).Reaches True (recorded fun _ _ => True)
        calls (Continues (Storing t₀ text latest) (fun _ => True) t h₁ (t.Under x)) := by
    intro calls storing
    refine reaches_ofOption removed (reaches_written (serves.wf.without below).toRooted holds
      (kept.latestId.trans serves.known) enough ?_)
    rintro new reply after written ⟨-, rfl⟩
    rw [show h'.metadataStr = h₁.metadataStr from kept.metadataStr]
    by_cases finished : reply.status = .finished
    · rw [decide_eq_true finished]
      refine .inl ⟨rfl, t.without x, cut_without t x, ?_, storing.cput finished
        finds.here (storing.metadata.without finds.here finds.parent written) rfl⟩
      rw [ident]
      exact remains new
    · rw [decide_eq_false finished]
      cases revertRemove h' found.parentDir found.relativePath curDir.id
          (h₁.directories.lookup curDir.id) with
      | none => trivial
      | some back =>
        refine reaches_anyRead fun read after' => ?_
        split
        · cases fuel with
          | zero => trivial
          | succ fuel => exact .inr ⟨rfl, trivial⟩
        · exact .inr ⟨rfl, trivial⟩
  rw [deleteEmptied]
  cases file : curDir.isFile with
  | false => exact stored calls storing
  | true =>
    rw [if_pos rfl, Dialogue.bind_assoc]
    refine reaches_question ?_
    rintro reply after ⟨-, rfl⟩
    rw [Dialogue.bind]
    split
    · exact .inr ⟨rfl, trivial⟩
    · exact stored _ storing.dele

/-- The entries below were deleted one after the other, and the entry itself is taken out. -/
theorem attempted_delete {type : StorageServiceType} {path : Str} {found : Found} {curDir : Dirent}
    {fuel : Nat} {resp resp' : StorageServiceResp} {nested content : List Exchange}
    {emptied : Handler} {expectKvFailure : Bool} (read : HasRead t latest h)
    (enough : INT_MAX < env.fuel) (kind : type = .fileDele ∨ type = .dirDele)
    (notRoot : path ≠ "/".toList) (looked : h.validatePathAndGetDir path = some found)
    (valid : found.valid = true) (object : found.handler.deref found.dir = some curDir)
    (emptying : Conversation (emptyFirst env fuel expectKvFailure found curDir resp) nested
      (true, emptied, resp'))
    (contentGone : RemovesContent h.usr expectKvFailure curDir content)
    (removed : removeEntry emptied found.parentDir found.relativePath curDir.id = some h') :
    ∃ left, Attempted ⟨type, .deleteReq path⟩ t latest h (nested ++ content) h'
      (revertRemove h' found.parentDir found.relativePath curDir.id
        (emptied.directories.lookup curDir.id)) left := by
  have serves := read.serves
  have wf := serves.wf
  have there : found.dir ≠ none := by
    intro null
    rw [null] at object
    cases object
  obtain ⟨id, p, n, finds, rfl⟩ := finds_of_found wf serves.exact.toHolds serves.exact.filesEmpty
    notRoot looked valid there
  have below := wf.ne_root finds.here finds.parent
  obtain ⟨d, stored, shows⟩ := serves.exact.laid id n finds.here
  cases object.symm.trans stored
  obtain ⟨k, depth⟩ := wf.rooted finds.here
  have each : DeletesEntries True (recorded fun _ _ => True) (Storing t h.metadataStr latest)
      (fun _ => True) latest id k (handleDelete env fuel 1 expectKvFailure) := by
    intro t' h' c b m path resp w serves depth up finds storing
    obtain ⟨o, above, directory⟩ := serves.wf.directory finds.here up
    exact reaches_delete_below enough (deletesLeaf_any enough) (deletesLeaf_any enough) serves
      (.entry finds.here up above directory depth) (.inl trivial) finds storing
  have start : Storing t h.metadataStr latest t h [] :=
    ⟨read.metadata, rfl, rfl, List.forall_mem_nil _, .refl t, between_nil⟩
  have done := (reaches_emptyFirst enough each serves finds.here depth rfl rfl shows
    start).conversation emptying (course_recorded fun _ _ => trivial)
  obtain ⟨-, left, cut, remains, storing⟩ := done.resolve_right fun no => Bool.noConfusion no.1
  have remains : Remains left h emptied := remains
  have nestedStored : Storing t h.metadataStr latest left emptied nested := storing
  have storing := nestedStored.content contentGone
  have closed : t.Closed fun c => t.Under id c ∧ c ≠ id := closed_below wf.toRooted id
  have serves' : Serves left latest emptied :=
    serves.cut cut closed (fun no => wf.not_under_root below no.1) remains
  have finds' : left.Finds path id p n := cut_finds wf.toRooted cut closed finds fun no => no.2 rfl
  obtain ⟨o, above, -⟩ := serves'.wf.directory finds'.here finds'.parent
  rw [← remains.pointers p o above, shows.ident] at removed
  obtain ⟨h₁, removed₁, kept, holds, -⟩ := leaf_removed serves'.wf serves'.exact serves'.tidy
    finds'.here finds'.parent (leaf_of_cut wf.toRooted cut)
  cases removed.symm.trans removed₁
  obtain ⟨back, readd, restored⟩ := leaf_readded serves' finds'.here finds'.parent removed
  have same := sameText_removeEntry removed
  have known := storing.metadata
  refine ⟨left, same.usr.trans remains.usr, ?_, ?_, ?_, storing.proper, ?_, ?_, ?_,
    fun _ => .below kind finds cut, storing.between⟩
  · rw [same.metadataStr]
    exact known
  · rw [storing.seen, same.metadataStr]
  · rw [same.metadataStr]
    exact storing.stored
  · refine ⟨back, ?_, restored_of_exact serves'.wf restored.exact restored.tidy,
      sameText_revertRemove readd⟩
    rw [shows.ident, ← remains.pointers p o above]
    exact readd
  · refine ⟨left.without id, latest, .deleted kind finds',
      serves'.wf.without (serves'.wf.ne_root finds'.here finds'.parent),
      named_without serves'.named id, fun node => ?_, known.small, ⟨_, holds⟩,
      kept.latestId.trans serves'.known⟩
    exact known.used (node_without.mp node).2
  · intro none
    have nothing := storing.stored
    rw [none] at nothing
    have unchanged : emptied.metadataStr = h.metadataStr := nothing
    rw [unchanged] at known
    exact (read.metadata.unique known).1

/-- Each attempt at a request is one from the tree that the handler has. -/
theorem attempted_of_changes {made : List Exchange} {back : Option Handler} {expectKvFailure : Bool}
    (ordinary : Ordinary req) (below : [] ∉ sites req) (read : HasRead t latest h)
    (enough : INT_MAX < env.fuel)
    (changes : Changes env expectKvFailure h req.request made h' back) :
    ∃ left, Attempted req t latest h made h' back left := by
  by_cases deletes : Deletes req
  · obtain ⟨type, request⟩ := req
    cases changes with
    | delete looked valid object emptying contentGone removed =>
      exact attempted_delete read enough deletes
        (notRoot_of_sites below (List.mem_singleton_self _)) looked valid object emptying contentGone
        removed
    | upload | create | rename | move =>
      rcases deletes with rfl | rfl
      · exact ordinary.elim
      · exact ordinary.elim
  · obtain ⟨rfl, took⟩ := took_of_changes ordinary below deletes read enough changes
    exact ⟨t, attempted_of_took read took⟩

end Attempt

/-! All attempts -/

section Effect
variable {t t' left : Tree} {h h' : Handler} {env : Env} {latest : Nat} {req : StorageServiceReq}

/-- Where a request was interrupted: a part of the tree is stored, and the next text that is
replaced is the same, or was read again when everything below the deleted entry was gone. -/
structure Interrupted (req : StorageServiceReq) (t left : Tree) (text next : Str) : Prop where
  part : Extends t left
  lost : left ≠ t
  cause : next = text ∨ Emptied req t left ∧ Keeps text next

/-- What another request makes of the part that was left has all of the part. -/
theorem Interrupted.kept {left t₂ : Tree} {m n₂ : Nat} {text next : Str}
    (interrupted : Interrupted req t left text next) (known : MetadataOf left m text)
    (known₂ : MetadataOf t₂ n₂ next) : Extends t₂ left := by
  rcases interrupted.cause with rfl | ⟨-, s, m, s', m', known₃, known₄, larger⟩
  · obtain ⟨rfl, -⟩ := known.unique known₂
    exact .refl t₂
  · obtain ⟨rfl, -⟩ := known.unique known₃
    obtain ⟨rfl, -⟩ := known₂.unique known₄
    exact larger

/-- What a request stores from the text that it has seen: the request takes the tree of the text
before to the one of the last text, also where others store something in between. -/
structure Effect (req : StorageServiceReq) (seen : Str) (l : List (Str × Str)) : Prop where
  some : l ≠ []
  proper : ∀ p ∈ l, Proper p.2
  head : ∀ p later, l = p :: later → Keeps seen p.1
  takes : ∀ {text last t latest}, Successive text l last → MetadataOf t latest text →
    ∃ t' latest', Takes req t latest t' latest' ∧ MetadataOf t' latest' last
  parts : ∀ {l₁ p l₂ text last t latest}, l = l₁ ++ p :: l₂ → l₁ ≠ [] → Successive text l₁ last →
    MetadataOf t latest text →
      ∃ left, MetadataOf left latest last ∧ Interrupted req t left last p.1
  resumed : ∀ {l₁ l₂ text last t latest}, l = l₁ ++ l₂ → l₁ ≠ [] → l₂ ≠ [] →
    Successive text l₂ last → MetadataOf t latest text →
      ∃ t' latest', Takes req t latest t' latest' ∧ MetadataOf t' latest' last

theorem Keeps.trans {a b c : Str} (first : Keeps a b) (second : Keeps b c) : Keeps a c := by
  obtain ⟨t, latest, t', latest', known, known', larger⟩ := first
  obtain ⟨s, n, t'', latest'', known₁, known'', larger'⟩ := second
  obtain ⟨rfl, rfl⟩ := known'.unique known₁
  exact ⟨t, latest, t'', latest'', known, known'', larger'.trans larger⟩

theorem keeps_self {text : Str} (known : MetadataOf t latest text) : Keeps text text :=
  ⟨t, latest, t, latest, known, known, .refl t⟩

theorem Effect.earlier {seen seen' : Str} {l : List (Str × Str)} (effect : Effect req seen' l)
    (keeps : Keeps seen seen') : Effect req seen l where
  some := effect.some
  proper := effect.proper
  head p later same := keeps.trans (effect.head p later same)
  takes := effect.takes
  parts := effect.parts
  resumed := effect.resumed

/-- The last CPUT. -/
theorem effect_last {new : Str} (known : MetadataOf left latest h'.metadataStr)
    (takes : ∃ t' latest', Takes req left latest t' latest' ∧ MetadataOf t' latest' new) :
    Effect req h'.metadataStr [(h'.metadataStr, new)] := by
  obtain ⟨t', latest', takes, stored⟩ := takes
  refine ⟨List.cons_ne_nil _ _, fun p mem => ?_, fun p later same => ?_, ?_, ?_, ?_⟩
  · rw [List.mem_singleton.mp mem]
    exact ⟨t', latest', stored⟩
  · cases same
    exact keeps_self known
  · rintro text last t latest ⟨rfl, rfl⟩ metadata
    obtain ⟨rfl, rfl⟩ := known.unique metadata
    exact ⟨t', latest', takes, stored⟩
  · intro l₁ p l₂ text last t latest split some
    rcases List.singleton_eq_append_iff.mp split with ⟨none, -⟩ | ⟨-, none⟩
    · exact absurd none some
    · cases none
  · intro l₁ l₂ text last t latest split some some'
    rcases List.singleton_eq_append_iff.mp split with ⟨none, -⟩ | ⟨-, none⟩
    · exact absurd none some
    · exact absurd none some'

/-! What was stored by an attempt that was refused, or before its last CPUT, comes first. -/

section After
variable {made : List Exchange} {back : Option Handler} {l l₁ l₂ : List (Str × Str)}
  {p : Str × Str} {s : Tree} {n : Nat} {text last : Str}

/-- The stored text is the last one of the attempt. -/
theorem Attempted.ended (attempted : Attempted req t latest h made h' back left)
    (read : HasRead t latest h) (some : stores made ≠ [])
    (first : Successive text (stores made) last) (known : MetadataOf s n text) :
    s = t ∧ n = latest ∧ last = h'.metadataStr ∧ text = h.metadataStr := by
  obtain ⟨rfl, rfl⟩ := attempted.stored.last first some
  obtain ⟨rfl, rfl⟩ := read.metadata.unique known
  exact ⟨rfl, rfl, rfl, rfl⟩

theorem Attempted.lost (attempted : Attempted req t latest h made h' back left)
    (some : stores made ≠ []) : left ≠ t := by
  obtain ⟨middle, known, -, -, other⟩ :=
    attempted.between _ _ _ (List.append_nil _).symm some attempted.stored
  obtain ⟨rfl, -⟩ := attempted.metadata.unique known
  exact other

/-- What a later attempt has left is left of the tree of this one. -/
theorem Attempted.interrupted (attempted : Attempted req t latest h made h' back left)
    (read : HasRead t latest h) (some : stores made ≠ []) {left' : Tree} {next : Str}
    (later : Interrupted req left left' last next) : Interrupted req t left' last next := by
  obtain ⟨part, -, cause⟩ := later
  have emptied := attempted.emptied some
  refine ⟨emptied.larger.trans part, ?_, cause.imp_right fun again =>
    ⟨emptied.trans read.serves.wf again.1, again.2⟩⟩
  rintro rfl
  exact attempted.lost some (part.antisymm emptied.larger)

/-- The attempt is over, and the next one begins. -/
theorem Attempted.complete (attempted : Attempted req t latest h made h' back left)
    (some : stores made ≠ []) {next : Str} (keeps : Keeps h'.metadataStr next) :
    MetadataOf left latest h'.metadataStr ∧ Interrupted req t left h'.metadataStr next :=
  have emptied := attempted.emptied some
  ⟨attempted.metadata, emptied.larger, attempted.lost some, .inr ⟨emptied, keeps⟩⟩

/-- The attempt itself was interrupted. -/
theorem Attempted.inside (attempted : Attempted req t latest h made h' back left)
    (read : HasRead t latest h) (whole : stores made = l₁ ++ p :: l₂) (some : l₁ ≠ [])
    (successive : Successive text l₁ last) (known : MetadataOf s n text) :
    ∃ left', MetadataOf left' n last ∧ Interrupted req s left' last p.1 := by
  have stored := attempted.stored
  rw [whole] at stored
  obtain ⟨middle, before, next, -⟩ := successive_append.mp stored
  obtain ⟨rfl, rfl⟩ := before.last successive some
  obtain ⟨rfl, rfl⟩ := read.metadata.unique known
  obtain ⟨left', known', part, -, other⟩ := attempted.between _ _ _ whole some before
  exact ⟨left', known', part, other, .inl next⟩

theorem Effect.after_takes (effect : Effect req h'.metadataStr l) (read : HasRead t latest h)
    (attempted : Attempted req t latest h made h' back left)
    (successive : Successive text (stores made ++ l) last) (known : MetadataOf s n text) :
    ∃ t' latest', Takes req s n t' latest' ∧ MetadataOf t' latest' last := by
  obtain ⟨middle, first, later⟩ := successive_append.mp successive
  by_cases none : stores made = []
  · rw [none] at first
    obtain rfl : middle = text := first
    exact effect.takes later known
  · obtain ⟨rfl, rfl, rfl, -⟩ := attempted.ended read none first known
    obtain ⟨t', latest', takes, stored⟩ := effect.takes later attempted.metadata
    exact ⟨t', latest', (attempted.emptied none).onward read.serves.wf takes, stored⟩

theorem Effect.after_parts (effect : Effect req h'.metadataStr l) (read : HasRead t latest h)
    (attempted : Attempted req t latest h made h' back left)
    (split : stores made ++ l = l₁ ++ p :: l₂) (some : l₁ ≠ [])
    (successive : Successive text l₁ last) (known : MetadataOf s n text) :
    ∃ left', MetadataOf left' n last ∧ Interrupted req s left' last p.1 := by
  rcases List.append_eq_append_iff.mp split with ⟨m, rfl, rest⟩ | ⟨m, whole, rest⟩
  · obtain ⟨middle, first, later⟩ := successive_append.mp successive
    by_cases none : stores made = []
    · rw [none] at first some
      obtain rfl : middle = text := first
      exact effect.parts rest some later known
    · obtain ⟨rfl, rfl, rfl, rfl⟩ := attempted.ended read none first known
      by_cases last' : m = []
      · subst last'
        obtain rfl : last = h'.metadataStr := later
        exact ⟨left, attempted.complete none (effect.head p l₂ rest)⟩
      · obtain ⟨left', known', interrupted⟩ := effect.parts rest last' later attempted.metadata
        exact ⟨left', known', attempted.interrupted read none interrupted⟩
  · cases m with
    | nil =>
      rw [List.append_nil] at whole
      subst whole
      obtain ⟨rfl, rfl, rfl, rfl⟩ := attempted.ended read some successive known
      exact ⟨left, attempted.complete some (effect.head p l₂ rest.symm)⟩
    | cons q m =>
      cases rest
      exact attempted.inside read whole some successive known

theorem Effect.after_resumed (effect : Effect req h'.metadataStr l) (read : HasRead t latest h)
    (attempted : Attempted req t latest h made h' back left) (split : stores made ++ l = l₁ ++ l₂)
    (some : l₁ ≠ []) (some' : l₂ ≠ []) (successive : Successive text l₂ last)
    (known : MetadataOf s n text) :
    ∃ t' latest', Takes req s n t' latest' ∧ MetadataOf t' latest' last := by
  have wf := read.serves.wf
  rcases List.append_eq_append_iff.mp split with ⟨m, rfl, rest⟩ | ⟨m, whole, rest⟩
  · by_cases last' : m = []
    · subst last'
      rw [List.nil_append] at rest
      exact effect.takes (rest ▸ successive) known
    · exact effect.resumed rest last' some' successive known
  · by_cases last' : m = []
    · subst last'
      rw [List.nil_append] at rest
      exact effect.takes (rest ▸ successive) known
    · subst rest
      have stored := attempted.stored
      rw [whole] at stored
      obtain ⟨a, before, during⟩ := successive_append.mp stored
      obtain ⟨middle, first, later⟩ := successive_append.mp successive
      obtain ⟨rfl, rfl⟩ := during.last first last'
      obtain ⟨part, known', larger, above, -⟩ := attempted.between _ _ _ whole some before
      obtain ⟨rfl, rfl⟩ := known.unique known'
      obtain ⟨t', latest', takes, ended⟩ := effect.takes later attempted.metadata
      have emptied := attempted.emptied fun none => some
        (List.append_eq_nil_iff.mp (whole.symm.trans none)).1
      exact ⟨t', latest', (emptied.between wf known.wf larger above).onward known.wf takes, ended⟩

theorem Effect.after (effect : Effect req h'.metadataStr l) (read : HasRead t latest h)
    (attempted : Attempted req t latest h made h' back left) :
    Effect req h.metadataStr (stores made ++ l) where
  some := List.append_ne_nil_of_right_ne_nil _ effect.some
  proper p mem := by
    rcases List.mem_append.mp mem with old | new
    · exact attempted.proper p old
    · exact effect.proper p new
  head p later same := by
    have first := attempted.stored
    cases stored : stores made with
    | nil =>
      rw [stored] at first same
      rw [← show h'.metadataStr = h.metadataStr from first]
      exact effect.head p later same
    | cons q rest =>
      rw [stored] at first same
      cases same
      rw [show p.1 = h.metadataStr from first.1]
      exact keeps_self read.metadata
  takes := effect.after_takes read attempted
  parts := effect.after_parts read attempted
  resumed := effect.after_resumed read attempted

end After

theorem stores_refused {usr old new : Str} {reply : KvReply} (failed : reply.status ≠ .finished)
    (calls : List Exchange) :
    stores ((.cput usr kMetadataFp old new, reply) :: calls) = stores calls := by
  rw [stores, List.filterMap_cons, stored, if_neg fun both => failed both.2]
  rfl

theorem stores_finished {usr old new : Str} {reply : KvReply} (finished : reply.status = .finished)
    (calls : List Exchange) :
    stores ((.cput usr kMetadataFp old new, reply) :: calls) = (old, new) :: stores calls := by
  rw [stores, List.filterMap_cons, stored, if_pos ⟨rfl, finished⟩]
  rfl

/-- Calls that are no CPUTs of the metadata store nothing. -/
theorem stores_others {calls : List Exchange} (others : ∀ c ∈ calls, ¬ MetadataCput c.1) :
    stores calls = [] := by
  refine List.filterMap_eq_nil_iff.mpr fun c mem => ?_
  obtain ⟨call, reply⟩ := c
  cases call with
  | cput usr key old new =>
    refine if_neg fun both => others _ mem ⟨usr, old, new, ?_⟩
    rw [both.1]
  | gets | puts | dele => rfl

/-- A handler that took its change back reads a text that keeps the entries. -/
theorem HasRead.reload {back next : Handler} {text text' : Str} (restored : Restored left back)
    (known : MetadataOf left latest text) (keeps : Keeps text text') (enough : INT_MAX < env.fuel)
    (parsed : Handler.parseMetadataFile env { back with metadataStr := text' } =
      some (true, next)) :
    (∃ t' latest', HasRead t' latest' next) ∧ next.metadataStr = text' := by
  obtain ⟨t₀, latest₀, t', latest', known₀, known', larger⟩ := keeps
  obtain ⟨rfl, rfl⟩ := known.unique known₀
  obtain ⟨next', parsed', serves, same⟩ := restored.reload larger known' enough
  cases parsed.symm.trans parsed'
  have text : next.metadataStr = text' := same.metadataStr
  exact ⟨⟨t', latest', serves, text.symm ▸ known'⟩, text⟩

/-- What a request that was committed has stored, where every reload keeps the entries. -/
theorem effect_of_committed {expectKvFailure : Bool} {calls : List Exchange}
    (ordinary : Ordinary req) (below : [] ∉ sites req) (enough : INT_MAX < env.fuel)
    (committed : CommittedAfter env req expectKvFailure h calls) (read : HasRead t latest h)
    (keeping : Keeping h.metadataStr calls) : Effect req h.metadataStr (stores calls) := by
  obtain ⟨earlier, expect, last, made, h', back, new, reply, after, refused, changes, printed, rfl,
    finished, others, -⟩ := committed
  induction refused generalizing t latest with
  | none expect h =>
    obtain ⟨left, attempted⟩ := attempted_of_changes ordinary below read enough changes
    rw [List.nil_append, stores_append, stores_finished finished, stores_others others]
    refine (effect_last attempted.metadata ?_).after read attempted
    obtain ⟨t', latest', takes, prints⟩ := attempted.takes
    exact ⟨t', latest', takes, prints.metadata enough printed⟩
  | @again expect expect' h h₁ back₁ next last new₁ made₁ calls reply₁ reload changes' printed' failed
      finished' parsed later ih =>
    obtain ⟨left, attempted⟩ := attempted_of_changes ordinary below read enough changes'
    obtain ⟨restored, taken, whole, same⟩ := attempted.takenBack
    cases taken
    rw [List.append_assoc, keeping_append, attempted.seen] at keeping
    have seen : look h₁.metadataStr (.cput h.usr kMetadataFp h₁.metadataStr new₁, reply₁) =
        h₁.metadataStr := if_neg fun both => failed both.2
    obtain ⟨-, -, keeps, keeping⟩ := keeping
    rw [seen] at keeps keeping
    obtain ⟨⟨t₁, latest₁, read₁⟩, text⟩ := HasRead.reload whole attempted.metadata
      (keeps _ _ rfl) enough parsed
    have usr : next.usr = h.usr :=
      (sameText_parseMetadataFile parsed).usr.trans (same.usr.trans attempted.usr)
    have effect := ih read₁ changes (by rw [text, usr]; exact keeping)
    rw [usr, text] at effect
    have kept : stores (made₁ ++ (.cput h.usr kMetadataFp h₁.metadataStr new₁, reply₁) ::
        (.gets h.usr kMetadataFp, reload) :: calls ++
          (made ++ (.cput h.usr kMetadataFp h'.metadataStr new, reply) :: after)) = stores made₁ ++
        stores (calls ++ (made ++ (.cput h.usr kMetadataFp h'.metadataStr new, reply) :: after)) := by
      rw [List.append_assoc, stores_append, List.cons_append, stores_refused failed]
      rfl
    rw [kept]
    exact (effect.earlier (keeps _ _ rfl)).after read attempted

end Effect

end StorageAttempts
