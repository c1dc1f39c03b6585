import PennCloud.HandlerText
import PennCloud.MetadataRoundTrip
import PennCloud.StorageCommit
import PennCloud.PathResolution
import PennCloud.TreeChanges

/-!
# What a move stores

A move changes the links of one object and stores the tree that can be reached from
the root folder. It is the tree with the entry in its new directory where that is a
directory outside of what is moved and has no other entry of the name. An entry that
was put into a file or below itself is lost, and so is an entry that was replaced.
-/

namespace StorageMove

open Text KvInterface UnorderedMap StorageMetadata StorageHandler StorageCommit Dialogue
  StorageTree MetadataText MetadataPrinting MetadataParsing MetadataRoundTrip HandlerText

/-! The links of the moved object -/

section Links
variable {t : Tree} {h : Handler} {ptr : Nat → Ptr} {env : Env}

/-- A change of one object among others. -/
def onlyAt (a x : Nat) (f : Dirent → Dirent) (d : Dirent) : Dirent := if x = a then f d else d

/-- The object of an entry after the links changed. -/
def relinked (ptr : Nat → Ptr) (id p q : Nat) (name : Str) (object : Nat → Dirent) (x : Nat) :
    Dirent :=
  onlyAt q x (Dirent.addEntry name (some (ptr id))) (onlyAt p x (Dirent.deleteEntry name)
    (onlyAt id x (Dirent.updateParent (some (ptr q))) (object x)))

/-- A field that a change leaves alone. -/
theorem onlyAt_field {α : Type} (field : Dirent → α) {f : Dirent → Dirent}
    (same : ∀ d, field (f d) = field d) (a x : Nat) (d : Dirent) :
    field (onlyAt a x f d) = field d := by
  unfold onlyAt
  split
  · exact same d
  · rfl

theorem relinked_field {α : Type} (field : Dirent → α)
    (add : ∀ name entry d, field (Dirent.addEntry name entry d) = field d)
    (delete : ∀ name d, field (Dirent.deleteEntry name d) = field d)
    (move : ∀ parent d, field (Dirent.updateParent parent d) = field d) (id p q : Nat) (name : Str)
    (object : Nat → Dirent) (x : Nat) :
    field (relinked ptr id p q name object x) = field (object x) := by
  rw [relinked, onlyAt_field field (add _ _), onlyAt_field field (delete _),
    onlyAt_field field (move _)]

theorem relinked_parent (id p q : Nat) (name : Str) (object : Nat → Dirent) (x : Nat) :
    (relinked ptr id p q name object x).parent =
      if x = id then some (ptr q) else (object x).parent := by
  rw [relinked, onlyAt_field Dirent.parent (f := Dirent.addEntry _ _) fun _ => rfl,
    onlyAt_field Dirent.parent (f := Dirent.deleteEntry _) fun _ => rfl, onlyAt]
  split <;> rfl

theorem onlyAt_deleteEntry (a x : Nat) (name other : Str) (d : Dirent) :
    (onlyAt a x (Dirent.deleteEntry name) d).entries.lookup other =
      if x = a ∧ other = name then none else d.entries.lookup other := by
  rw [onlyAt]
  by_cases left : x = a
  · by_cases same : other = name
    · rw [if_pos left, if_pos ⟨left, same⟩, same, Dirent.deleteEntry, AList.lookup_erase]
    · rw [if_pos left, if_neg (fun no => same no.2), Dirent.deleteEntry, AList.lookup_erase_ne same]
  · rw [if_neg left, if_neg (fun no => left no.1)]

theorem onlyAt_addEntry (a x : Nat) (name other : Str) (entry : Option Ptr) (d : Dirent) :
    (onlyAt a x (Dirent.addEntry name entry) d).entries.lookup other =
      if x = a ∧ other = name then some entry else d.entries.lookup other := by
  rw [onlyAt]
  by_cases there : x = a
  · by_cases same : other = name
    · rw [if_pos there, if_pos ⟨there, same⟩, same, Dirent.addEntry, AList.lookup_insert]
    · rw [if_pos there, if_neg (fun no => same no.2), Dirent.addEntry, AList.lookup_insert_ne same]
  · rw [if_neg there, if_neg (fun no => there no.1)]

theorem relinked_entries (id p q : Nat) (name : Str) (object : Nat → Dirent) (x : Nat)
    (other : Str) : (relinked ptr id p q name object x).entries.lookup other =
      if x = q ∧ other = name then some (some (ptr id))
      else if x = p ∧ other = name then none else (object x).entries.lookup other := by
  have moved := onlyAt_field (fun d => d.entries.lookup other)
    (f := Dirent.updateParent (some (ptr q))) (fun _ => rfl) id x (object x)
  rw [relinked, onlyAt_addEntry, onlyAt_deleteEntry, moved]

/-- A move of entries that exist changes their objects. -/
theorem moveEntry_objects (wf : t.Rooted) (laid : Laid t h ptr) (enough : INT_MAX < env.fuel)
    {object : Nat → Dirent} (objects : Objects t h ptr object) {id p q : Nat} {n m o : Node}
    (here : t.node id = some n) (before : t.node p = some m) (above : t.node q = some o)
    (name : Str) :
    ∃ h', moveEntry env h (some (ptr p)) (some (ptr id)) (some (ptr q)) name = some h' ∧
      SameBut h h' ∧ Objects t h' ptr (relinked ptr id p q name object) := by
  have apart : ∀ a b m n, t.node a = some m → t.node b = some n → ptr a = ptr b → a = b :=
    fun a b m n first second => laid.injective first second
  obtain ⟨path, -, computed⟩ := laid.path wf enough above
  obtain ⟨h₁, first, same₁, objects₁⟩ := objects.update apart here
    (Dirent.updateParent (some (ptr q)))
  obtain ⟨h₂, second, same₂, objects₂⟩ := objects₁.update apart before (Dirent.deleteEntry name)
  obtain ⟨h₃, third, same₃, objects₃⟩ := objects₂.update apart above
    (Dirent.addEntry name (some (ptr id)))
  refine ⟨h₃, ?_, (same₁.trans same₂).trans same₃, objects₃⟩
  simp only [moveEntry, computed, Option.bind_some, first, second, third]

theorem relinked_of_move (wf : t.Rooted) (laid : Laid t h ptr) (enough : INT_MAX < env.fuel)
    {id p q : Nat} {n m o : Node} (here : t.node id = some n) (before : t.node p = some m)
    (above : t.node q = some o) :
    ∃ h', moveEntry env h (some (ptr p)) (some (ptr id)) (some (ptr q)) n.name = some h' ∧
      SameBut h h' ∧ Relinked t ptr id p q n.name n.name h h' := by
  obtain ⟨object, objects⟩ := laid.objects
  obtain ⟨h', moved, same, after⟩ :=
    moveEntry_objects wf laid enough objects here before above n.name
  refine ⟨h', moved, same, same.root, same.latestId, fun {x k d} node known => ?_⟩
  obtain rfl : object x = d := Option.some.inj ((objects x k node).symm.trans known)
  have field : ∀ {α : Type} (field : Dirent → α),
      (∀ name entry d, field (Dirent.addEntry name entry d) = field d) →
      (∀ name d, field (Dirent.deleteEntry name d) = field d) →
      (∀ parent d, field (Dirent.updateParent parent d) = field d) →
      field (relinked ptr id p q n.name object x) = field (object x) :=
    fun field add delete move => relinked_field field add delete move id p q n.name object x
  refine ⟨_, after x k node, field Dirent.id (fun _ _ _ => rfl) (fun _ _ => rfl) fun _ _ => rfl,
    field Dirent.isFile (fun _ _ _ => rfl) (fun _ _ => rfl) fun _ _ => rfl,
    field Dirent.isRoot (fun _ _ _ => rfl) (fun _ _ => rfl) fun _ _ => rfl, ?_,
    relinked_parent id p q n.name object x, relinked_entries id p q n.name object x⟩
  rw [field Dirent.relativePath (fun _ _ _ => rfl) (fun _ _ => rfl) fun _ _ => rfl]
  split
  · rename_i moved
    subst moved
    obtain ⟨d, known', shows⟩ := laid x k node
    cases known.symm.trans known'
    cases here.symm.trans node
    exact shows.relativePath
  · rfl

end Links

/-! What is stored -/

/-- The KV store accepts every CPUT. -/
def Accepting (calls : List Exchange) : Prop :=
  ∀ c ∈ calls, MetadataCput c.1 → c.2.status = .finished

/-- Where the move is answered with SUCCESS, it has stored the tree with the entry in the other
directory as the metadata of its user, in place of the text that the handler has read. -/
def MovesExactly (env : Env) (t : Tree) (latest : Nat) (h : Handler) (path newDir : Str)
    (id q : Nat) : Prop :=
  ∀ resp calls r, Conversation (handleMove env path newDir (kMaxAttempt + 1) h resp) calls r →
    Accepting calls → r.2.getStatus = .success →
      ∃ text reply, calls = [(.cput h.usr kMetadataFp h.metadataStr text, reply)] ∧
        Says (t.move id q) latest text

section Stored
variable {t : Tree} {h h' : Handler} {env : Env} {path newDir : Str} {parentDir dir newParent : Option Ptr}
  {newEntry : Option Ptr} {relativePath newName : Str}

/-- A request that stores the metadata first: what holds of its only call, where that is accepted,
holds of what is printed. -/
theorem stores_iff (same : SameText h h')
    {program : StorageServiceResp → Service (Handler × StorageServiceResp)}
    {again : Service (Handler × StorageServiceResp)}
    (run : ∀ resp, program resp = (writeMetadataToKv env h').bind fun written =>
      if written.1 then .done ({ h' with metadataStr := written.2 }, populateSuccessResp h' resp)
      else again) {Q : Str → Prop} :
    (∀ resp calls r, Conversation (program resp) calls r → Accepting calls →
      r.2.getStatus = .success → ∃ text reply,
        calls = [(.cput h.usr kMetadataFp h.metadataStr text, reply)] ∧ Q text) ↔
    ∀ text, h'.getMetadataStr env = some text → Q text := by
  constructor
  · intro exact text printed
    have answered : Conversation (program .cleared)
        [(.cput h'.usr kMetadataFp h'.metadataStr text, ⟨.finished, []⟩)]
        ({ h' with metadataStr := text }, populateSuccessResp h' .cleared) := by
      rw [run, writeMetadataToKv, printed]
      exact .ask (.done _)
    obtain ⟨text', reply, only, stored⟩ := exact _ _ _ answered
      (fun c mem _ => by rw [List.mem_singleton.mp mem]) rfl
    rw [same.usr, same.metadataStr] at only
    cases only
    exact stored
  · intro stored resp calls r ran accepting success
    rw [run] at ran
    obtain ⟨text, reply, rest, printed, rfl, written⟩ := conversation_write ran
    have finished : reply.status = .finished :=
      accepting _ List.mem_cons_self ⟨_, _, _, rfl⟩
    simp only [finished, decide_true, if_true] at written
    obtain ⟨rfl, -⟩ := conversation_done.mp written
    refine ⟨text, reply, ?_, stored text printed⟩
    rw [same.usr, same.metadataStr]

/-- The only call of a move that is accepted stores the tree with the changed links. -/
theorem movesExactly_iff
    (source : h.validatePathAndGetDir path = some ⟨true, parentDir, dir, relativePath, h⟩)
    (target : h.validatePathAndGetDir newDir = some ⟨true, newParent, newEntry, newName, h⟩)
    (moved : moveEntry env h parentDir dir newEntry relativePath = some h') {latest id q : Nat} :
    MovesExactly env t latest h path newDir id q ↔
      ∀ text, h'.getMetadataStr env = some text → Says (t.move id q) latest text := by
  have run : ∀ resp, handleMove env path newDir (kMaxAttempt + 1) h resp =
      (writeMetadataToKv env h').bind fun written =>
        if written.1 then .done ({ h' with metadataStr := written.2 }, populateSuccessResp h' resp)
        else (Dialogue.ofOption (revertMove h' parentDir dir newEntry relativePath)).bind fun h =>
          (readMetadata env h).bind fun read =>
            if read.1 then handleMove env path newDir kMaxAttempt read.2 .cleared
            else .done (read.2, .cleared) := by
    intro resp
    simp only [handleMove, source, Dialogue.ofOption, Dialogue.bind, Bool.not_true,
      Bool.false_eq_true, if_false, target, moved]
  exact stores_iff (sameText_moveEntry moved) run

end Stored

/-! A walk that does not end -/

section Endless
variable {h : Handler} {env : Env}

/-- The directories among the entries are put into the queue. -/
theorem mem_writeEntries {pairs : List (Str × Option Ptr)} {r : Str × List (Option Ptr)}
    (written : writeEntries h pairs = some r) {name : Str} {p : Option Ptr} {d : Dirent}
    (mem : (name, p) ∈ pairs) (object : h.deref p = some d) (directory : d.isFile = false) :
    p ∈ r.2 := by
  induction pairs generalizing r with
  | nil => cases mem
  | cons e pairs ih =>
    obtain ⟨other, p'⟩ := e
    rw [writeEntries] at written
    obtain ⟨d', object', rest⟩ := Option.bind_eq_some_iff.mp written
    obtain ⟨r', written', rfl⟩ := Option.map_eq_some_iff.mp rest
    rcases List.mem_cons.mp mem with same | later
    · cases same
      cases object.symm.trans object'
      simp [directory]
    · have queued := ih written' later
      show p ∈ (if d'.isFile then r'.2 else p' :: r'.2)
      split
      · exact queued
      · exact List.mem_cons_of_mem _ queued

theorem mem_writeFolder {header : Str} {a : Ptr} {r : Str × List (Option Ptr)}
    (written : writeFolder env h header (some a) = some r) (name : Str) {d c : Dirent}
    {p : Option Ptr} (object : h.memory.lookup a = some d)
    (entry : d.entries.lookup name = some p) (child : h.deref p = some c)
    (directory : c.isFile = false) : p ∈ r.2 := by
  obtain ⟨d', object', rest⟩ := Option.bind_eq_some_iff.mp written
  obtain ⟨path, -, rest⟩ := Option.bind_eq_some_iff.mp rest
  obtain ⟨r', written', rfl⟩ := Option.map_eq_some_iff.mp rest
  cases object.symm.trans object'
  exact mem_writeEntries written' ((env.it.mem_pairs _ _).mpr entry) child directory

/-- A queue never empties that has a directory which puts another such directory into it. -/
theorem writeQueue_endless {again : Option Ptr → Prop}
    (turn : ∀ p, again p → ∀ header r, writeFolder env h header p = some r → ∃ p' ∈ r.2, again p')
    {fuel : Nat} {queue : List (Option Ptr)} (queued : ∃ p ∈ queue, again p) :
    writeQueue env h fuel queue = none := by
  induction fuel generalizing queue with
  | zero =>
    obtain ⟨p, mem, -⟩ := queued
    cases queue with
    | nil => cases mem
    | cons a queue => rfl
  | succ fuel ih =>
    cases queue with
    | nil =>
      obtain ⟨p, mem, -⟩ := queued
      cases mem
    | cons a queue =>
      rw [writeQueue]
      cases written : writeFolder env h "Folder: ".toList a with
      | none => rfl
      | some r =>
        have later : ∃ p ∈ queue ++ r.2, again p := by
          obtain ⟨p, mem, loops⟩ := queued
          rcases List.mem_cons.mp mem with rfl | mem
          · obtain ⟨p', mem', loops'⟩ := turn p loops _ r written
            exact ⟨p', List.mem_append_right _ mem', loops'⟩
          · exact ⟨p, List.mem_append_left _ mem, loops⟩
        rw [Option.bind_some, ih later]
        rfl

theorem getMetadataStr_endless (again : Option Ptr → Prop)
    (turn : ∀ p, again p → ∀ header r, writeFolder env h header p = some r → ∃ p' ∈ r.2, again p')
    (root : again h.root) : h.getMetadataStr env = none := by
  rw [Handler.getMetadataStr]
  cases written : writeFolder env h "Root folder: ".toList h.root with
  | none => rfl
  | some r =>
    rw [Option.bind_some, writeQueue_endless turn (turn h.root root _ r written)]
    rfl

end Endless

/-! Moves of the root folder -/

section Root
variable {t : Tree} {h h' : Handler} {ptr : Nat → Ptr} {env : Env} {object : Nat → Dirent} {q : Nat}
  {o : Node}

/-- The root folder in a file: nothing that is printed has changed. -/
theorem laid_root_moved (named : Named t) (laid : Laid t h ptr) (objects : Objects t h ptr object)
    (above : t.node q = some o) (file : o.isFile = true) (wf : t.Rooted)
    (after : Objects t h' ptr (relinked ptr t.root t.root q [] object)) : Laid t h' ptr := by
  intro x n node
  obtain ⟨d, known, shows⟩ := laid x n node
  obtain rfl : object x = d := Option.some.inj ((objects x n node).symm.trans known)
  refine ⟨_, after x n node, ?_, ?_, ?_, ?_, fun y up => ?_, fun directory name p => ?_⟩
  · rw [relinked_field Dirent.relativePath (fun _ _ _ => rfl) (fun _ _ => rfl) fun _ _ => rfl]
    exact shows.relativePath
  · rw [relinked_field Dirent.id (fun _ _ _ => rfl) (fun _ _ => rfl) fun _ _ => rfl]
    exact shows.ident
  · rw [relinked_field Dirent.isFile (fun _ _ _ => rfl) (fun _ _ => rfl) fun _ _ => rfl]
    exact shows.isFile
  · rw [relinked_field Dirent.isRoot (fun _ _ _ => rfl) (fun _ _ => rfl) fun _ _ => rfl]
    exact shows.isRoot
  · rw [relinked_parent, if_neg (wf.ne_root node up)]
    exact shows.parent y up
  · have notFile : x ≠ q := by
      rintro rfl
      cases above.symm.trans node
      rw [file] at directory
      cases directory
    have nameless : ∀ p, (object x).entries.lookup [] ≠ some p := by
      intro p entry
      obtain ⟨c, m, child, -, spelled, -⟩ := (shows.entries directory [] p).mp entry
      exact (named c m child).1 spelled
    rw [relinked_entries, if_neg (fun no => notFile no.1), ← shows.entries directory]
    split
    · rename_i left
      rw [left.2]
      exact ⟨nofun, fun entry => absurd entry (nameless p)⟩
    · rfl

/-- The root folder below itself is printed again and again. -/
theorem endless_root_moved (named : Named t) (wf : t.Rooted) (laid : Laid t h ptr)
    (objects : Objects t h ptr object) (root : h'.root = some (ptr t.root))
    (above : t.node q = some o) (directory : o.isFile = false)
    (after : Objects t h' ptr (relinked ptr t.root t.root q [] object)) :
    h'.getMetadataStr env = none := by
  have isFile : ∀ x n, t.node x = some n →
      (relinked ptr t.root t.root q [] object x).isFile = n.isFile := by
    intro x n node
    obtain ⟨d, known, shows⟩ := laid x n node
    obtain rfl : object x = d := Option.some.inj ((objects x n node).symm.trans known)
    rw [relinked_field Dirent.isFile (fun _ _ _ => rfl) (fun _ _ => rfl) fun _ _ => rfl,
      shows.isFile]
  obtain ⟨name, top⟩ := wf.root
  -- the directories on the way from the root folder to the new one, and so on around
  refine getMetadataStr_endless
    (fun p => ∃ x n, p = some (ptr x) ∧ t.node x = some n ∧ t.Under x q) ?_
    ⟨t.root, _, root, top, wf.under_root above⟩
  rintro _ ⟨x, n, rfl, node, way⟩ header r written
  by_cases last : q = x
  · subst last
    refine ⟨some (ptr t.root), ?_, t.root, _, rfl, top, wf.under_root above⟩
    refine mem_writeFolder written [] (after q n node) ?_ (after _ _ top) (isFile _ _ top)
    rw [relinked_entries, if_pos ⟨rfl, rfl⟩]
  · obtain ⟨c, m, child, parent, way'⟩ := way.child last
    obtain ⟨d, known, shows⟩ := laid x n node
    obtain rfl : object x = d := Option.some.inj ((objects x n node).symm.trans known)
    have kind : n.isFile = false ∧ m.isFile = false := by
      obtain ⟨n', node', dir⟩ := wf.directory child parent
      cases node.symm.trans node'
      refine ⟨dir, ?_⟩
      by_cases final : q = c
      · subst final
        cases child.symm.trans above
        exact directory
      · obtain ⟨c', m', child', parent', -⟩ := way'.child final
        obtain ⟨m'', node'', dir'⟩ := wf.directory child' parent'
        cases child.symm.trans node''
        exact dir'
    refine ⟨some (ptr c), ?_, c, m, rfl, child, way'⟩
    refine mem_writeFolder written m.name (after x n node) ?_ (after c m child)
      ((isFile c m child).trans kind.2)
    rw [relinked_entries, if_neg (fun no => last no.1.symm),
      if_neg (fun no => (named c m child).1 no.2)]
    exact (shows.entries kind.1 _ _).mpr ⟨c, m, child, parent, rfl, rfl⟩

end Root

/-! Exact moves -/

/-- Two trees that a text says have the same ids. -/
theorem said_ids {t t' : Tree} {latest latest' : Nat} {text : Str} (first : Says t latest text)
    (second : Says t' latest' text) (id : Nat) : (t.node id).isSome ↔ (t'.node id).isSome := by
  obtain ⟨h, parsed, exact, -⟩ := first deepEnv [] 0 (Nat.lt_succ_self _)
  obtain ⟨h', parsed', exact', -⟩ := second deepEnv [] 0 (Nat.lt_succ_self _)
  cases parsed.symm.trans parsed'
  rw [← exact.ids, exact'.ids]

/-- A text says no tree that has another entry. -/
theorem not_said_of_lost {t t' : Tree} {latest latest' : Nat} {text : Str} (said : Says t' latest' text)
    {x : Nat} (gone : t'.node x = none) (there : (t.node x).isSome) : ¬ Says t latest text := by
  intro other
  have same := (said_ids said other x).mpr there
  rw [gone] at same
  cases same

/-- The entry can be put into the directory. -/
def Fits (t : Tree) (id q : Nat) : Prop :=
  (∀ o, t.node q = some o → o.isFile = false) ∧
    (id ≠ t.root → ¬ t.Under id q ∧ ∀ n c k, t.node id = some n → t.node c = some k →
      k.parent = some q → k.name = n.name → c = id)

section Exact
variable {t : Tree} {h : Handler} {ptr : Nat → Ptr} {env : Env} {latest : Nat}

theorem named_place (named : Named t) {id q : Nat} {n : Node} (here : t.node id = some n) :
    Named (t.place id q n.name) := by
  intro c m node
  obtain ⟨k, before, rfl⟩ := node_place node
  split
  · exact named id n here
  · exact named c k before

theorem named_without (named : Named t) (top : Nat) : Named (t.without top) :=
  fun c m node => named c m (node_without.mp node).2

/-- A move of an entry below the root folder stores the moved tree exactly where it fits. -/
theorem move_below_iff (wf : t.WellFormed) (named : Named t) (holds : Holds t h ptr)
    (known : h.latestId = some latest) (small : latest ≤ INT_MAX) (enough : INT_MAX < env.fuel)
    {id p q : Nat} {n o : Node} (here : t.node id = some n) (parent : n.parent = some p)
    (above : t.node q = some o) :
    ∃ h', moveEntry env h (some (ptr p)) (some (ptr id)) (some (ptr q)) n.name = some h' ∧
      ((∀ text, h'.getMetadataStr env = some text → Says (t.move id q) latest text) ↔
        Fits t id q) := by
  have below : id ≠ t.root := wf.ne_root here parent
  obtain ⟨m, before, -⟩ := wf.directory here parent
  obtain ⟨h', moved, same, relinked⟩ :=
    relinked_of_move wf.toRooted holds.laid enough here before above
  refine ⟨h', moved, ?_⟩
  rw [move_eq_place here]
  -- what is printed, where a part of the changed tree can be reached
  have printed : ∀ t' : Tree, t'.WellFormed → Named t' → t'.root = t.root → Laid t' h' ptr →
      ∃ text, h'.getMetadataStr env = some text ∧ Says t' latest text := by
    intro t' wf' named' root laid'
    refine said_of_holds wf' named'.spelled ⟨?_, laid'⟩ (same.latestId.trans known) small enough
    rw [same.root, holds.root, root]
  have lost : ∀ t' : Tree, (∃ text, h'.getMetadataStr env = some text ∧ Says t' latest text) →
      ∀ x, t'.node x = none → ((t.place id q n.name).node x).isSome →
        ¬ ∀ text, h'.getMetadataStr env = some text → Says (t.place id q n.name) latest text := by
    rintro t' ⟨text, stored, said⟩ x gone there all
    exact not_said_of_lost said gone there (all text stored)
  have moved' : (t.place id q n.name).node id = some ⟨n.name, n.isFile, some q⟩ :=
    node_place_self here
  constructor
  · intro all
    by_contra unfit
    by_cases reached : o.isFile = false ∧ ¬ t.Under id q
    · -- another entry is replaced
      obtain ⟨directory, apart⟩ := reached
      obtain ⟨c, k, there, up, spelled, other⟩ : ∃ c k, t.node c = some k ∧ k.parent = some q ∧
          k.name = n.name ∧ c ≠ id := by
        by_contra none
        refine unfit ⟨fun o' above' => ?_, fun _ => ⟨apart, fun n' c k here' there up spelled => ?_⟩⟩
        · cases above.symm.trans above'
          exact directory
        · cases here.symm.trans here'
          by_contra other
          exact none ⟨c, k, there, up, spelled, other⟩
      have gone : ((t.place id q n.name).without c).node c = none := by
        cases node : ((t.place id q n.name).without c).node c with
        | none => rfl
        | some m => exact absurd .self (node_without.mp node).1
      refine lost _ (printed _ (wf.place_without below above directory apart there up spelled)
        (named_without (named_place named here) c) rfl ?_) c gone ?_ all
      · refine laid_of_relinked holds.laid relinked rfl (fun x m node => ?_)
          (links_place_without wf here parent rfl there up spelled other)
        exact node_place (node_without.mp node).2
      · rw [node_place_ne other, there]
        rfl
    · -- the entry is lost
      have unreached : ∀ o', t.node q = some o' → o'.isFile = false → t.Under id q := by
        intro o' above' directory
        cases above.symm.trans above'
        by_contra apart
        exact reached ⟨directory, apart⟩
      have gone : (t.without id).node id = none := by
        cases node : (t.without id).node id with
        | none => rfl
        | some m => exact absurd .self (node_without.mp node).1
      refine lost _ (printed _ (wf.without below) (named_without named id) rfl ?_) id gone ?_ all
      · refine laid_of_relinked holds.laid relinked rfl (fun x m node => ?_)
          (links_without wf here parent rfl unreached)
        obtain ⟨apart, node⟩ := node_without.mp node
        refine ⟨m, node, ?_⟩
        rw [if_neg]
        rintro rfl
        exact apart .self
      · rw [moved']
        rfl
  · rintro ⟨directory, fits⟩ text stored
    obtain ⟨apart, free⟩ := fits below
    have free' : ∀ c k, t.node c = some k → k.parent = some q → k.name = n.name → c = id :=
      fun c k there up spelled => free n c k here there up spelled
    obtain ⟨text', stored', said⟩ := printed _
      (wf.place below above (directory o above) apart free') (named_place named here) rfl
      (laid_of_relinked holds.laid relinked rfl (fun x m node => node_place node)
        (links_place wf here parent rfl free'))
    cases stored.symm.trans stored'
    exact said

/-- A move of the root folder into a file is answered, one into a directory is not. -/
theorem move_root_iff (wf : t.WellFormed) (named : Named t) (holds : Holds t h ptr)
    (known : h.latestId = some latest) (small : latest ≤ INT_MAX) (enough : INT_MAX < env.fuel)
    {q : Nat} {o : Node} (above : t.node q = some o) :
    ∃ h', moveEntry env h (some (ptr t.root)) (some (ptr t.root)) (some (ptr q)) [] = some h' ∧
      ((∀ text, h'.getMetadataStr env = some text → Says (t.move t.root q) latest text) ↔
        Fits t t.root q) := by
  obtain ⟨name, top⟩ := wf.root
  obtain ⟨object, objects⟩ := holds.laid.objects
  obtain ⟨h', moved, same, after⟩ :=
    moveEntry_objects wf.toRooted holds.laid enough objects top top above []
  refine ⟨h', moved, ?_⟩
  have root : h'.root = some (ptr t.root) := same.root.trans holds.root
  cases kind : o.isFile with
  | false =>
    have endless : h'.getMetadataStr env = none :=
      endless_root_moved named wf.toRooted holds.laid objects root above kind after
    rw [endless]
    refine ⟨fun _ => ⟨fun o' above' => ?_, fun no => absurd rfl no⟩, nofun⟩
    cases above.symm.trans above'
    exact kind
  | true =>
    constructor
    · intro all
      obtain ⟨text, stored, said⟩ := said_of_holds wf named.spelled
        ⟨root, laid_root_moved named holds.laid objects above kind wf.toRooted after⟩
        (same.latestId.trans known) small enough
      obtain ⟨h₁, parsed, exact, -⟩ := said deepEnv [] 0 (Nat.lt_succ_self _)
      obtain ⟨h₂, parsed', exact', -⟩ := all text stored deepEnv [] 0 (Nat.lt_succ_self _)
      cases parsed.symm.trans parsed'
      have rerooted : (t.move t.root q).node t.root = some ⟨name, false, some q⟩ := by
        rw [move_eq_place top]
        exact node_place_self top
      obtain ⟨d, known', shows⟩ := exact'.laid t.root _ rerooted
      have none := exact.top d known'
      rw [shows.parent q rfl] at none
      cases none
    · rintro ⟨directory, -⟩
      have no := directory o above
      rw [kind] at no
      cases no

/-- A move that is accepted stores the tree with the entry and everything below it in the other
directory, and everything else as it was, if and only if the entry can be put there. -/
theorem moves_exactly_iff (wf : t.WellFormed) (named : Named t) (holds : Holds t h ptr)
    (known : h.latestId = some latest) (small : latest ≤ INT_MAX) (enough : INT_MAX < env.fuel)
    {path newDir : Str} {id q : Nat} (source : t.EntryAt path id) (target : t.EntryAt newDir q) :
    MovesExactly env t latest h path newDir id q ↔ Fits t id q := by
  obtain ⟨o, newParent, newName, above, located⟩ : ∃ o newParent newName, t.node q = some o ∧
      h.validatePathAndGetDir newDir = some ⟨true, newParent, some (ptr q), newName, h⟩ := by
    rcases validate_entryAt wf.toRooted holds target with ⟨located, rfl⟩ | ⟨o, _, above, -, located⟩
    · obtain ⟨name, top⟩ := wf.root
      exact ⟨_, _, _, top, located⟩
    · exact ⟨o, _, _, above, located⟩
  rcases validate_entryAt wf.toRooted holds source with ⟨found, rfl⟩ | ⟨n, p, here, parent, found⟩
  · obtain ⟨h', moved, stored⟩ := move_root_iff wf named holds known small enough above
    rw [movesExactly_iff found located moved]
    exact stored
  · obtain ⟨h', moved, stored⟩ := move_below_iff wf named holds known small enough here parent above
    rw [movesExactly_iff found located moved]
    exact stored

end Exact

/-- The file is moved into the root folder. -/
theorem moves_exactly_file :
    MovesExactly deepEnv bobsTree 3 bobsHandler "/d/f".toList "/".toList 3 1 := by
  refine (moves_exactly_iff wellFormed_bobsTree named_bobsTree holds_bobsTree rfl (by decide)
    (Nat.lt_succ_self _) entryAt_file (.inl ⟨rfl, rfl⟩)).mpr ⟨fun o above => ?_, fun _ => ⟨?_, ?_⟩⟩
  · cases above
    rfl
  · intro under
    cases under with
    | entry here parent below =>
      cases here
      cases parent
  · rintro n c k here there up spelled
    cases here
    rcases node_bobsTree.mp there with ⟨rfl, rfl⟩ | ⟨rfl, rfl⟩ | ⟨rfl, rfl⟩ <;> simp_all

/-- The folder is moved into itself, and is gone. -/
theorem not_moves_exactly_itself : bobsTree.WellFormed ∧ Named bobsTree ∧
    Holds bobsTree bobsHandler id ∧ bobsTree.EntryAt "/d".toList 2 ∧
    ¬ MovesExactly deepEnv bobsTree 3 bobsHandler "/d".toList "/d".toList 2 2 := by
  refine ⟨wellFormed_bobsTree, named_bobsTree, holds_bobsTree, entryAt_folder, fun exact => ?_⟩
  have enough : INT_MAX < deepEnv.fuel := Nat.lt_succ_self _
  obtain ⟨h', moved, stored⟩ := move_below_iff wellFormed_bobsTree named_bobsTree holds_bobsTree rfl
    (by decide) enough node_folder rfl node_folder
  have found : bobsHandler.validatePathAndGetDir "/d".toList =
      some ⟨true, some 1, some 2, ['d'], bobsHandler⟩ := by
    rcases validate_entryAt wellFormed_bobsTree.toRooted holds_bobsTree entryAt_folder with
      ⟨-, root⟩ | ⟨n, p, here, parent, found⟩
    · cases root
    · cases here
      cases parent
      exact found
  have fits := stored.mp ((movesExactly_iff found found moved).mp exact)
  exact (fits.2 (by decide)).1 .self

end StorageMove
