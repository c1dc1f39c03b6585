import PennCloud.EntryPaths
import PennCloud.HandlerObjects
import PennCloud.StorageCreate
import PennCloud.StorageMove

/-!
# What a deletion removes

A deletion empties a directory entry by entry, each looked up again by its own
path, and stores the metadata once for each entry. Where every call succeeds and
no name has a slash, all entries below are found again, and what is stored in the
end is the tree without the entry. The root folder is emptied and stays.
-/

namespace StorageDelete

open Text KvInterface UnorderedMap StorageMetadata StorageHandler StorageCommit Dialogue
  StorageTree MetadataText MetadataPrinting MetadataParsing MetadataRoundTrip HandlerObjects

/-! An entry without entries -/

section Leaf
variable {t : Tree} {h : Handler} {x p : Nat} {n : Node}

/-- The entry has no entries of its own. -/
def Leaf (t : Tree) (x : Nat) : Prop := ∀ c m, t.node c = some m → m.parent ≠ some x

theorem Leaf.under (leaf : Leaf t x) {c : Nat} : t.Under x c ↔ c = x := by
  constructor
  · intro under
    by_contra below
    obtain ⟨d, m, child, parent, -⟩ := under.child below
    exact leaf d m child parent
  · rintro rfl
    exact .self

theorem Leaf.node (leaf : Leaf t x) {c : Nat} {m : Node} :
    (t.without x).node c = some m ↔ c ≠ x ∧ t.node c = some m := by
  rw [node_without, leaf.under]

/-- The tree without a leaf is held once its directory does not list it any more. -/
theorem laid_without (wf : t.WellFormed) {ptr : Nat → Ptr} (laid : Laid t h ptr)
    (here : t.node x = some n) (parent : n.parent = some p) (leaf : Leaf t x) {h' : Handler}
    (object : ∀ c m d, t.node c = some m → c ≠ x → h.memory.lookup (ptr c) = some d →
      h'.memory.lookup (ptr c) = some (if c = p then Dirent.deleteEntry n.name d else d)) :
    Laid (t.without x) h' ptr := by
  intro c m node
  obtain ⟨other, node⟩ := leaf.node.mp node
  obtain ⟨d, known, shows⟩ := laid c m node
  have field {α : Type} (field : Dirent → α) (same : ∀ name d, field (Dirent.deleteEntry name d) = field d) :
      field (if c = p then Dirent.deleteEntry n.name d else d) = field d := by
    split
    · exact same _ _
    · rfl
  refine ⟨_, object c m d node other known, ?_, ?_, ?_, ?_, fun q up => ?_,
    fun directory name ptr' => ?_⟩
  · rw [field Dirent.relativePath fun _ _ => rfl, shows.relativePath]
  · rw [field Dirent.id fun _ _ => rfl, shows.ident]
  · rw [field Dirent.isFile fun _ _ => rfl, shows.isFile]
  · rw [field Dirent.isRoot fun _ _ => rfl, shows.isRoot]
    rfl
  · rw [field Dirent.parent fun _ _ => rfl, shows.parent q up]
  · have listed := shows.entries directory name ptr'
    by_cases above : c = p
    · subst above
      rw [if_pos rfl, Dirent.deleteEntry]
      by_cases same : name = n.name
      · subst same
        rw [AList.lookup_erase]
        constructor
        · rintro ⟨⟩
        · rintro ⟨e, k, child, up, named, -⟩
          obtain ⟨away, child⟩ := leaf.node.mp child
          exact absurd (wf.distinct child here (up.trans parent.symm) named) away
      · rw [AList.lookup_erase_ne same, listed]
        constructor
        · rintro ⟨e, k, child, up, named, pointer⟩
          refine ⟨e, k, leaf.node.mpr ⟨?_, child⟩, up, named, pointer⟩
          rintro rfl
          cases here.symm.trans child
          exact same named.symm
        · rintro ⟨e, k, child, rest⟩
          exact ⟨e, k, (leaf.node.mp child).2, rest⟩
    · rw [if_neg above, listed]
      constructor
      · rintro ⟨e, k, child, up, rest⟩
        refine ⟨e, k, leaf.node.mpr ⟨?_, child⟩, up, rest⟩
        rintro rfl
        cases here.symm.trans child
        cases parent.symm.trans up
        exact above rfl
      · rintro ⟨e, k, child, rest⟩
        exact ⟨e, k, (leaf.node.mp child).2, rest⟩

/-- What a handler keeps while entries are taken away: it holds the tree that is left, at the same
pointers. -/
structure Remains (t' : Tree) (h h' : Handler) : Prop where
  exact : Exact t' h'
  tidy : Tidy h'
  latestId : h'.latestId = h.latestId
  usr : h'.usr = h.usr
  pointers : ∀ c m, t'.node c = some m → ptrOf h' c = ptrOf h c

theorem Remains.trans {t' t'' : Tree} {h' h'' : Handler} (first : Remains t' h h')
    (second : Remains t'' h' h'') (part : ∀ c m, t''.node c = some m → t'.node c = some m) :
    Remains t'' h h'' where
  exact := second.exact
  tidy := second.tidy
  latestId := second.latestId.trans first.latestId
  usr := second.usr.trans first.usr
  pointers c m node := (second.pointers c m node).trans (first.pointers c m (part c m node))

/-- The map from ids has not the leaf any more. -/
theorem exact_without (wf : t.WellFormed) (exact : Exact t h) (here : t.node x = some n)
    (parent : n.parent = some p) (leaf : Leaf t x) {h' : Handler} (root : h'.root = h.root)
    (directories : h'.directories = h.directories.erase x)
    (object : ∀ c m d, t.node c = some m → c ≠ x → h.memory.lookup (ptrOf h c) = some d →
      h'.memory.lookup (ptrOf h c) = some (if c = p then Dirent.deleteEntry n.name d else d)) :
    Exact (t.without x) h' ∧ ∀ c m, (t.without x).node c = some m → ptrOf h' c = ptrOf h c := by
  have below := wf.ne_root here parent
  have wf' := wf.without below
  have pointers : ∀ c m, (t.without x).node c = some m → ptrOf h' c = ptrOf h c := by
    intro c m node
    rw [ptrOf, directories, AList.lookup_erase_ne (leaf.node.mp node).1, ptrOf]
  have objectOf : ∀ c m d', (t.without x).node c = some m →
      h'.memory.lookup (ptrOf h' c) = some d' → ∃ d, t.node c = some m ∧
        h.memory.lookup (ptrOf h c) = some d ∧
          d' = if c = p then Dirent.deleteEntry n.name d else d := by
    intro c m d' node stored
    obtain ⟨other, old⟩ := leaf.node.mp node
    obtain ⟨d, known, -⟩ := exact.laid c m old
    rw [pointers c m node, object c m d old other known, Option.some.injEq] at stored
    exact ⟨d, old, known, stored.symm⟩
  obtain ⟨name, top⟩ := wf'.root
  refine ⟨⟨⟨?_, ?_⟩, fun c => ?_, fun c m d' node kind stored => ?_, fun d' stored => ?_⟩, pointers⟩
  · rw [root, exact.root, pointers _ _ top]
    rfl
  · exact (laid_without wf exact.laid here parent leaf object).congr wf'.toRooted pointers
  · rw [directories]
    by_cases same : c = x
    · subst same
      have gone : (t.without c).node c = none :=
        Option.eq_none_iff_forall_ne_some.mpr fun m node => (leaf.node.mp node).1 rfl
      rw [AList.lookup_erase, gone]
      constructor
      · intro known
        cases known
      · intro node
        cases node
    · rw [AList.lookup_erase_ne same, exact.ids]
      have kept : (t.without x).node c = t.node c :=
        Option.ext fun m => leaf.node.trans (and_iff_right same)
      rw [kept]
  · obtain ⟨d, old, known, rfl⟩ := objectOf c m d' node stored
    obtain ⟨o, above, directory⟩ := wf.directory here parent
    have notParent : c ≠ p := by
      rintro rfl
      cases old.symm.trans above
      rw [kind] at directory
      cases directory
    rw [if_neg notParent]
    exact exact.files c m d old kind known
  · obtain ⟨d, old, known, rfl⟩ := objectOf t.root _ d' top stored
    have none := exact.top d known
    split
    · exact none
    · exact none

/-- A leaf is taken out of its directory. -/
theorem leaf_removed (wf : t.WellFormed) (exact : Exact t h) (tidy : Tidy h)
    (here : t.node x = some n) (parent : n.parent = some p) (leaf : Leaf t x) :
    ∃ h', removeEntry h (some (ptrOf h p)) n.name x = some h' ∧
      SameBut h { h' with directories := h.directories } ∧
      Holds (t.without x) h' (ptrOf h) ∧ ∀ text,
        Remains (t.without x) h { h'.free (h.directories.lookup x) with metadataStr := text } := by
  obtain ⟨o, above, -⟩ := wf.directory here parent
  obtain ⟨d, object, -⟩ := exact.laid p o above
  have updated : h.update (some (ptrOf h p)) (Dirent.deleteEntry n.name) =
      some { h with memory := h.memory.insert (ptrOf h p) (Dirent.deleteEntry n.name d) } := by
    simp only [Handler.update, Option.bind_some, object, Option.map_some]
  have objects : ∀ c m e, t.node c = some m → c ≠ x → h.memory.lookup (ptrOf h c) = some e →
      (h.memory.insert (ptrOf h p) (Dirent.deleteEntry n.name d)).lookup (ptrOf h c) =
        some (if c = p then Dirent.deleteEntry n.name e else e) := by
    intro c m e node _ known
    by_cases same : c = p
    · subst same
      cases object.symm.trans known
      rw [if_pos rfl, AList.lookup_insert]
    · have apart : ptrOf h c ≠ ptrOf h p := fun equal => same (exact.laid.injective node above equal)
      rw [if_neg same, AList.lookup_insert_ne apart, known]
  refine ⟨{ h with
    memory := h.memory.insert (ptrOf h p) (Dirent.deleteEntry n.name d)
    directories := h.directories.erase x }, ?_, ⟨rfl, rfl, rfl, rfl, rfl⟩, ⟨exact.root, ?_⟩,
    fun text => ?_⟩
  · rw [removeEntry, updated]
    rfl
  · exact laid_without wf exact.laid here parent leaf objects
  · obtain ⟨q, registered⟩ := Option.isSome_iff_exists.mp ((exact.ids x).mpr (by rw [here]; rfl))
    have pointer : q = ptrOf h x := by
      rw [ptrOf, registered]
      rfl
    have freed := (tidy.update updated fun _ => rfl).free registered
    rw [registered]
    obtain ⟨exact', pointers⟩ : Exact (t.without x) { h with
        memory := (h.memory.insert (ptrOf h p) (Dirent.deleteEntry n.name d)).erase q
        directories := h.directories.erase x
        metadataStr := text } ∧ ∀ c m, (t.without x).node c = some m → _ :=
      exact_without wf exact here parent leaf rfl rfl fun c m e node other known => by
        have apart : ptrOf h c ≠ q :=
          fun equal => other (exact.laid.injective node here (equal.trans pointer))
        exact (AList.lookup_erase_ne apart).trans (objects c m e node other known)
    exact ⟨exact', ⟨freed.bounded, freed.registered⟩, rfl, rfl, pointers⟩

end Leaf

/-! What is left of a directory -/

section Deletion
variable {t : Tree} {h : Handler} {env : Env} {latest : Nat}

/-- The handler serves the tree. -/
structure Serves (t : Tree) (latest : Nat) (h : Handler) : Prop where
  wf : t.WellFormed
  named : Named t
  exact : Exact t h
  tidy : Tidy h
  known : h.latestId = some latest

theorem Serves.cut {t' : Tree} {gone : Nat → Prop} {h' : Handler} (serves : Serves t latest h)
    (cut : t.Cut t' gone) (closed : t.Closed gone) (stays : ¬ gone t.root)
    (remains : Remains t' h h') : Serves t' latest h' where
  wf := cut.wellFormed serves.wf closed stays
  named id n here := serves.named id n (cut.node.mp here).1
  exact := remains.exact
  tidy := remains.tidy
  known := remains.latestId.trans serves.known

theorem Serves.remains (serves : Serves t latest h) : Remains t h h :=
  ⟨serves.exact, serves.tidy, rfl, rfl, fun _ _ _ => rfl⟩

/-- The way to what is left is left. -/
theorem cut_leads {t' : Tree} {gone : Nat → Prop} (wf : t.Rooted) (cut : t.Cut t' gone)
    (closed : t.Closed gone) {a b : Nat} {names : List Str} (leads : t.Leads a names b) {o : Node}
    (here : t'.node b = some o) : t'.Leads a names b ∧ ∃ m, t'.node a = some m := by
  induction leads with
  | here id => exact ⟨.here id, o, here⟩
  | step child parent rest ih =>
    obtain ⟨later, m, node⟩ := ih here
    cases (cut.node.mp node).1.symm.trans child
    obtain ⟨d, above, -⟩ := cut.above wf closed node parent
    exact ⟨.step node parent later, d, above⟩

theorem cut_finds {t' : Tree} {gone : Nat → Prop} (wf : t.Rooted) (cut : t.Cut t' gone)
    (closed : t.Closed gone) {path : Str} {x b : Nat} {n : Node} (finds : t.Finds path x b n)
    (stays : ¬ gone x) : t'.Finds path x b n := by
  have here : t'.node x = some n := cut.node.mpr ⟨finds.here, stays⟩
  obtain ⟨d, above, -⟩ := cut.above wf closed here finds.parent
  obtain ⟨leads, -⟩ := cut_leads wf cut closed finds.leads above
  exact ⟨finds.notRoot, cut.root ▸ leads, here, finds.parent, finds.named⟩

/-- The paths of the entries of a directory. -/
theorem own_paths {ptr : Nat → Ptr} (wf : t.WellFormed) (named : Named t) (laid : Laid t h ptr)
    (enough : INT_MAX < env.fuel) {x : Nat} {items : List Item}
    (each : ∀ item ∈ items, ∃ m, t.node item.id = some m ∧ m.parent = some x) :
    ∃ paths, (items.map fun item => (item.name, some (ptr item.id))).mapM
        (fun e => (h.path env e.2).bind belowRoot) = some paths ∧
      List.Forall₂ (fun c path => ∃ full, t.PathOf c full ∧ belowRoot full = some path)
        (items.map Item.id) paths := by
  induction items with
  | nil => exact ⟨[], rfl, .nil⟩
  | cons item items ih =>
    obtain ⟨⟨m, node, up⟩, later⟩ := List.forall_mem_cons.mp each
    obtain ⟨paths, computed, own⟩ := ih later
    obtain ⟨full, isPath, path⟩ := laid.path wf.toRooted enough node
    obtain ⟨first, below, -⟩ := isPath.own wf.toRooted
      (fun id n here => plain_of_named named here) (wf.ne_root node up)
    refine ⟨first :: paths, ?_, .cons ⟨full, isPath, below⟩ own⟩
    rw [List.map_cons, List.mapM_cons, computed, path]
    simp [below]

/-- What is below an entry goes with everything below. -/
theorem closed_below (wf : t.Rooted) (x : Nat) : t.Closed fun id => t.Under x id ∧ id ≠ x := by
  rintro id n q here parent ⟨under, -⟩
  constructor
  · exact .entry here parent under
  · rintro rfl
    exact wf.not_under_parent here parent under

/-- Files and empty directories are leaves. -/
theorem under_of_childless {x id : Nat} (childless : Leaf t x) : ¬ (t.Under x id ∧ id ≠ x) := by
  rintro ⟨under, below⟩
  exact below (childless.under.mp under)

/-- The directory is left without its entries. -/
theorem leaf_of_cut (wf : t.Rooted) {t' : Tree} {x : Nat}
    (cut : t.Cut t' fun id => t.Under x id ∧ id ≠ x) : Leaf t' x := by
  intro c m node up
  obtain ⟨child, stays⟩ := cut.node.mp node
  exact stays ⟨.entry child up .self, wf.ne_parent child up⟩

/-- An entry named like the root folder, in the root folder, is not there. -/
theorem root_removed (exact : Exact t h) (here : t.node t.root = some n) (leaf : Leaf t t.root) :
    ∃ h', removeEntry h (some (ptrOf h t.root)) [] t.root = some h' ∧
      SameBut h { h' with directories := h.directories } ∧ Holds t h' (ptrOf h) := by
  obtain ⟨d, object, -⟩ := exact.laid _ _ here
  refine ⟨{ h with
    memory := h.memory.insert (ptrOf h t.root) (Dirent.deleteEntry [] d)
    directories := h.directories.erase t.root }, ?_, ⟨rfl, rfl, rfl, rfl, rfl⟩, exact.root,
    fun c m node => ?_⟩
  · simp only [removeEntry, Handler.update, Option.bind_some, object, Option.map_some]
  · obtain ⟨e, stored, shows⟩ := exact.laid c m node
    by_cases same : c = t.root
    · subst same
      cases object.symm.trans stored
      refine ⟨_, AList.lookup_insert _, shows.relativePath, shows.ident, shows.isFile, shows.isRoot,
        shows.parent, fun directory name p => ⟨fun entry => ?_, ?_⟩⟩
      · have old : d.entries.lookup name = some p := by
          rw [Dirent.deleteEntry] at entry
          by_cases empty : name = []
          · rw [empty, AList.lookup_erase] at entry
            cases entry
          · rwa [AList.lookup_erase_ne empty] at entry
        exact (shows.entries directory name p).mp old
      · rintro ⟨e, k, child, up, -⟩
        exact absurd up (leaf e k child)
    · have apart : ptrOf h c ≠ ptrOf h t.root := fun equal => same (exact.laid.injective node here equal)
      exact ⟨e, (AList.lookup_insert_ne apart).trans stored, shows⟩

/-! Deletions in a world that answers -/

section World
variable {World : Type} {stops : Prop} {step : World → KvCall → KvReply → World → Prop}
  {I : Tree → Handler → World → Prop} {J : World → Prop}

/-- The metadata of the tree are printed and given to the store. -/
theorem reaches_written {β : Type} {ptr : Nat → Ptr} (wf : t.Rooted) (holds : Holds t h ptr)
    (known : h.latestId = some latest) (enough : INT_MAX < env.fuel) {f : Bool × Str → Service β}
    {w : World} {post : World → β → Prop}
    (next : ∀ text reply w', WrittenFor t latest text →
      step w (.cput h.usr kMetadataFp h.metadataStr text) reply w' →
        (f (decide (reply.status = .finished), text)).Reaches stops step w' post) :
    ((writeMetadataToKv env h).bind f).Reaches stops step w post := by
  obtain ⟨text, printed, written⟩ := written_of_holds wf holds known enough
  rw [writeMetadataToKv, bind_assoc]
  refine reaches_ofOption printed ?_
  rw [bind_assoc]
  exact reaches_question fun reply w' asked => next text reply w' written asked

/-- The request goes on with the tree that is left, or has failed. -/
def Continues (I : Tree → Handler → World → Prop) (J : World → Prop) (t : Tree) (h : Handler)
    (gone : Nat → Prop) (w : World) (r : Handler × StorageServiceResp) : Prop :=
  r.2.status = some .success ∧ (∃ t', t.Cut t' gone ∧ Remains t' h r.1 ∧ I t' r.1 w) ∨
    r.2.status = some .fail ∧ J w

/-- The entries are gone, or one of them could not be deleted. -/
def Empties (I : Tree → Handler → World → Prop) (J : World → Prop) (t : Tree) (h : Handler)
    (gone : Nat → Prop) (w : World) (r : Bool × Handler × StorageServiceResp) : Prop :=
  r.1 = true ∧ (∃ t', t.Cut t' gone ∧ Remains t' h r.2.1 ∧ I t' r.2.1 w) ∨
    r.1 = false ∧ r.2.2.status = some .fail ∧ J w

/-- An entry of the directory is deleted at its own path, in whatever is left of the tree. -/
def DeletesEntries (stops : Prop) (step : World → KvCall → KvReply → World → Prop)
    (I : Tree → Handler → World → Prop) (J : World → Prop) (latest x k : Nat)
    (delete : Str → Handler → StorageServiceResp → Service (Handler × StorageServiceResp)) : Prop :=
  ∀ t h c b m path resp w, Serves t latest h → t.Depth x k → m.parent = some x →
    t.Finds path c b m → I t h w →
      (delete path h resp).Reaches stops step w (Continues I J t h (t.Under c))

/-- What is left after the first of some entries is left of all of them. -/
theorem cut_cons (wf : t.Rooted) {t' : Tree} {c : Nat} {cs : List Nat}
    (cut : t.Cut t' (t.Under c)) {t'' : Tree}
    (later : t'.Cut t'' fun id => ∃ d ∈ cs, t'.Under d id) :
    t.Cut t'' fun id => ∃ d ∈ c :: cs, t.Under d id := by
  have closed : t.Closed (t.Under c) := closed_under t c
  refine (cut.trans later).congr fun id o node => ?_
  rw [List.exists_mem_cons_iff]
  constructor
  · rintro (under | ⟨d, mem, under⟩)
    · exact .inl under
    · exact .inr ⟨d, mem, cut.of_under under⟩
  · rintro (under | ⟨d, mem, under⟩)
    · exact .inl under
    · by_cases gone : t.Under c id
      · exact .inl gone
      · exact .inr ⟨d, mem, cut.under wf closed (cut.node.mpr ⟨node, gone⟩) under⟩

/-- One entry of a directory after the other. The directory and the entries that are left are found
at their own paths in what is left of the tree. -/
theorem reaches_deleteEach {x k : Nat} {delete : Str → Handler → StorageServiceResp →
      Service (Handler × StorageServiceResp)}
    (each : DeletesEntries stops step I J latest x k delete)
    {cs : List Nat} {paths : List Str} (nodup : cs.Nodup)
    (own : List.Forall₂ (fun c path => ∃ full, t.PathOf c full ∧ belowRoot full = some path) cs paths)
    (children : ∀ c ∈ cs, ∃ m, t.node c = some m ∧ m.parent = some x)
    (serves : Serves t latest h) {n : Node} (here : t.node x = some n) (depth : t.Depth x k)
    (resp : StorageServiceResp) {w : World} (invariant : I t h w) :
    (deleteEach delete paths h resp).Reaches stops step w
      (Empties I J t h fun id => ∃ c ∈ cs, t.Under c id) := by
  induction cs generalizing t h resp n paths w with
  | nil =>
    cases own
    refine .inl ⟨rfl, t, ⟨rfl, ?_⟩, serves.remains, invariant⟩
    intro id m
    simp
  | cons c cs ih =>
    obtain ⟨path, paths, first, rest, rfl⟩ := List.forall₂_cons_left_iff.mp own
    obtain ⟨⟨m, child, parent⟩, siblings⟩ := List.forall_mem_cons.mp children
    obtain ⟨other, nodup⟩ := List.nodup_cons.mp nodup
    have wf := serves.wf
    have below := wf.ne_root child parent
    obtain ⟨full, isPath, spelled⟩ := first
    obtain ⟨path', spelled', entryAt⟩ :=
      isPath.own wf.toRooted (fun id n here => plain_of_named serves.named here) below
    cases spelled.symm.trans spelled'
    obtain ⟨b, m', finds⟩ := finds_of_entryAt entryAt below
    cases child.symm.trans finds.here
    rw [deleteEach]
    refine reaches_bind ((each t h c b m path resp w serves depth parent finds invariant).mono ?_)
    rintro w' r (⟨success, t', cut, remains, kept⟩ | ⟨failed, lost⟩)
    · rw [if_neg (by rw [StorageServiceResp.getStatus, success]; decide)]
      have closed : t.Closed (t.Under c) := closed_under t c
      have serves' : Serves t' latest r.1 :=
        serves.cut cut closed (wf.not_under_root below) remains
      have sibling : ∀ d ∈ cs, ∃ m, t'.node d = some m ∧ m.parent = some x := by
        intro d mem
        obtain ⟨o, node, up⟩ := siblings d mem
        refine ⟨o, cut.node.mpr ⟨node, fun under => ?_⟩, up⟩
        exact other (wf.under_disjoint child parent node up under .self ▸ mem)
      have here' : t'.node x = some n := cut.node.mpr ⟨here, wf.not_under_parent child parent⟩
      have own' : List.Forall₂ (fun c path => ∃ full, t'.PathOf c full ∧ belowRoot full = some path)
          cs paths := by
        refine ((List.forall₂_and_left _ _).mpr ⟨sibling, rest⟩).imp ?_
        rintro d path ⟨⟨o, node, -⟩, full, isPath, spelled⟩
        exact ⟨full, cut.pathOf wf.toRooted closed node isPath, spelled⟩
      refine (ih nodup own' sibling serves' here' (cut.depth wf.toRooted closed here' depth)
        r.2 kept).mono ?_
      rintro w'' r' (⟨done, t'', later, remains', kept'⟩ | failed)
      · refine .inl ⟨done, t'', cut_cons wf.toRooted cut later, ?_, kept'⟩
        exact remains.trans remains' fun c m node => (later.node.mp node).1
      · exact .inr failed
    · rw [if_pos (by rw [StorageServiceResp.getStatus, failed]; rfl)]
      exact .inr ⟨rfl, failed, lost⟩

/-- Of a directory nothing is left but the directory itself. -/
theorem reaches_emptyFirst {x k fuel : Nat} {expectKvFailure : Bool} {found : Found}
    {curDir : Dirent} {resp : StorageServiceResp} (enough : INT_MAX < env.fuel)
    (each : DeletesEntries stops step I J latest x k (handleDelete env fuel 1 expectKvFailure))
    (serves : Serves t latest h) {n : Node} (here : t.node x = some n) (depth : t.Depth x k)
    (handler : found.handler = h) (dir : found.dir = some (ptrOf h x))
    (shows : Shows t (ptrOf h) x n curDir) {w : World} (invariant : I t h w) :
    (emptyFirst env fuel expectKvFailure found curDir resp).Reaches stops step w
      (Empties I J t h fun id => t.Under x id ∧ id ≠ x) := by
  have wf := serves.wf
  rw [emptyFirst, handler, dir, shows.isFile]
  cases kind : n.isFile with
  | true =>
    have leaf : Leaf t x := by
      intro c o child parent
      obtain ⟨d, above, directory⟩ := wf.directory child parent
      cases here.symm.trans above
      rw [kind] at directory
      cases directory
    refine .inl ⟨rfl, t, ⟨rfl, ?_⟩, serves.remains, invariant⟩
    intro id m
    exact (and_iff_left (under_of_childless leaf)).symm
  | false =>
    obtain ⟨items, same, lists, -⟩ := listed_folder env serves.exact.laid shows kind
    have children : ∀ item ∈ items, ∃ m, t.node item.id = some m ∧ m.parent = some x := by
      intro item mem
      obtain ⟨m, node, up, -⟩ := (lists.mem item).mp mem
      exact ⟨m, node, up⟩
    obtain ⟨paths, computed, own⟩ := own_paths wf serves.named serves.exact.laid enough children
    have gone : ∀ id m, t.node id = some m →
        ((∃ c ∈ items.map Item.id, t.Under c id) ↔ t.Under x id ∧ id ≠ x) := by
      intro id m node
      constructor
      · rintro ⟨c, mem, under⟩
        obtain ⟨item, listed, rfl⟩ := List.mem_map.mp mem
        obtain ⟨o, child, up⟩ := children item listed
        refine ⟨under.above child up, ?_⟩
        rintro rfl
        exact wf.not_under_parent child up under
      · rintro ⟨under, below⟩
        obtain ⟨c, o, child, up, way⟩ := under.child below
        exact ⟨c, List.mem_map.mpr ⟨⟨o.name, c, o.isFile⟩,
          (lists.mem _).mpr ⟨o, child, up, rfl, rfl⟩, rfl⟩, way⟩
    have loop : (deleteEach (handleDelete env fuel 1 expectKvFailure) paths h resp).Reaches stops
        step w (Empties I J t h fun id => t.Under x id ∧ id ≠ x) := by
      refine (reaches_deleteEach each lists.nodup own (by simpa using children) serves here depth
        resp invariant).mono ?_
      rintro w' r (⟨done, t', cut, rest⟩ | failed)
      · exact .inl ⟨done, t', cut.congr gone, rest⟩
      · exact .inr failed
    have length : curDir.entries.keys.length = items.length := by
      rw [← env.it.length_pairs (ptrOf h x), same, List.length_map]
    rw [length]
    by_cases empty : items = []
    · subst empty
      cases own
      exact loop
    · rw [if_pos (by simpa using List.length_pos_iff.mpr empty), Option.getD_some, entryPaths, same]
      exact reaches_ofOption computed loop

/-- A leaf is deleted that is found at the path, with some attempts left. -/
def DeletesLeaf (stops : Prop) (step : World → KvCall → KvReply → World → Prop)
    (I : Tree → Handler → World → Prop) (J : World → Prop) (env : Env) (latest : Nat)
    (expectKvFailure : Bool) (attempts : Nat) : Prop :=
  ∀ t h h₁ x b n fuel path found curDir resp w, Serves t latest h₁ → h₁.usr = h.usr →
    t.Finds path x b n → Leaf t x → found.parentDir = some (ptrOf h₁ b) →
    found.relativePath = n.name → curDir.id = x → curDir.isFile = n.isFile → I t h₁ w →
      (deleteEmptied env fuel attempts expectKvFailure path h found curDir (h₁, resp)).Reaches
        stops step w (Continues I J t h₁ (t.Under x))

/-- What is left without the entries of a directory, and then without the directory. -/
theorem cut_emptied {t₁ t' : Tree} {x : Nat} (cut : t.Cut t₁ fun id => t.Under x id ∧ id ≠ x)
    (last : t₁.Cut t' (t₁.Under x)) : t.Cut t' (t.Under x) := by
  refine (cut.trans last).congr fun id m _ => ?_
  constructor
  · rintro (⟨under, -⟩ | under)
    · exact under
    · exact cut.of_under under
  · intro under
    by_cases same : id = x
    · exact .inr (same ▸ .self)
    · exact .inl ⟨under, same⟩

/-- An entry of a directory is deleted with everything below it, which has one attempt each. -/
theorem reaches_delete_below (enough : INT_MAX < env.fuel) {expectKvFailure : Bool}
    (leaf : DeletesLeaf stops step I J env latest expectKvFailure 0) {attempts : Nat}
    (last : DeletesLeaf stops step I J env latest expectKvFailure attempts)
    {fuel x b k : Nat} {n : Node} {path : Str} {resp : StorageServiceResp} {w : World}
    (serves : Serves t latest h) (depth : t.Depth x k) (deep : stops ∨ INT_MAX < fuel + k)
    (finds : t.Finds path x b n) (invariant : I t h w) :
    (handleDelete env fuel (attempts + 1) expectKvFailure path h resp).Reaches stops step w
      (Continues I J t h (t.Under x)) := by
  induction fuel generalizing t h x b k n attempts path resp w with
  | zero =>
    have shallow := serves.wf.depth_le depth
    exact deep.resolve_right (by omega)
  | succ fuel ih =>
    have wf := serves.wf
    have here := finds.here
    have below := wf.ne_root here finds.parent
    obtain ⟨d, object, shows⟩ := serves.exact.laid x n here
    have each : DeletesEntries stops step I J latest x k (handleDelete env fuel 1 expectKvFailure) := by
      intro t h c b m path resp w serves depth up finds invariant
      obtain ⟨o, above, directory⟩ := serves.wf.directory finds.here up
      exact ih leaf serves (.entry finds.here up above directory depth)
        (deep.imp_right fun deep => by omega) finds invariant
    rw [handleDelete_eq]
    refine reaches_ofOption (validate_finds wf serves.exact.toHolds serves.exact.filesEmpty finds)
      (reaches_ofOption object (reaches_bind
        ((reaches_emptyFirst enough each serves here depth rfl rfl shows invariant).mono ?_)))
    rintro w' ⟨done, h₁, resp₁⟩ (⟨rfl, t₁, cut, remains, kept⟩ | ⟨rfl, failed, lost⟩)
    · have closed : t.Closed fun id => t.Under x id ∧ id ≠ x := closed_below wf.toRooted x
      have serves₁ : Serves t₁ latest h₁ :=
        serves.cut cut closed (fun no => wf.not_under_root below no.1) remains
      have finds₁ : t₁.Finds path x b n :=
        cut_finds wf.toRooted cut closed finds fun no => no.2 rfl
      obtain ⟨o, above, -⟩ := serves₁.wf.directory finds₁.here finds₁.parent
      refine (last t₁ h h₁ x b n fuel path _ d resp₁ w' serves₁ remains.usr finds₁
        (leaf_of_cut wf.toRooted cut) (congrArg some (remains.pointers b o above).symm) rfl
        shows.ident shows.isFile kept).mono ?_
      rintro w'' r (⟨success, t', last, remains', kept'⟩ | failed)
      · refine .inl ⟨success, t', cut_emptied cut last, ?_, kept'⟩
        exact remains.trans remains' fun c m node => (last.node.mp node).1
      · exact .inr failed
    · exact .inr ⟨failed, lost⟩

/-- The root folder is deleted with everything below it, or rather emptied. -/
theorem reaches_delete_root (enough : INT_MAX < env.fuel) {expectKvFailure : Bool}
    (leaf : DeletesLeaf stops step I J env latest expectKvFailure 0) {fuel attempts : Nat}
    (deep : INT_MAX ≤ fuel) {resp : StorageServiceResp} {w : World} (serves : Serves t latest h)
    (invariant : I t h w) {post : World → Handler × StorageServiceResp → Prop}
    (last : ∀ t₁ h₁ d resp₁ w', t.Cut t₁ (fun id => t.Under t.root id ∧ id ≠ t.root) →
      Remains t₁ h h₁ → Serves t₁ latest h₁ → Leaf t₁ t.root → d.id = t.root → d.isFile = false →
      I t₁ h₁ w' → (deleteEmptied env fuel attempts expectKvFailure "/".toList h
        ⟨true, some (ptrOf h t.root), some (ptrOf h t.root), [], h⟩ d (h₁, resp₁)).Reaches
          stops step w' post)
    (failed : ∀ w' r, r.2.status = some .fail → J w' → post w' r) :
    (handleDelete env (fuel + 1) (attempts + 1) expectKvFailure "/".toList h resp).Reaches stops
      step w post := by
  have wf := serves.wf
  obtain ⟨name, here⟩ := wf.root
  obtain ⟨d, object, shows⟩ := serves.exact.laid _ _ here
  have found : h.validatePathAndGetDir "/".toList =
      some ⟨true, some (ptrOf h t.root), some (ptrOf h t.root), [], h⟩ := by
    rw [Handler.validatePathAndGetDir, if_pos rfl, serves.exact.root]
  have each : DeletesEntries stops step I J latest t.root 0
      (handleDelete env fuel 1 expectKvFailure) := by
    intro t' h c b m path resp w serves depth up finds invariant
    obtain ⟨o, above, directory⟩ := serves.wf.directory finds.here up
    exact reaches_delete_below enough leaf leaf serves (.entry finds.here up above directory depth)
      (.inr (by omega)) finds invariant
  rw [handleDelete_eq]
  refine reaches_ofOption found (reaches_ofOption object (reaches_bind
    ((reaches_emptyFirst enough each serves here .root rfl rfl shows invariant).mono ?_)))
  rintro w' ⟨done, h₁, resp₁⟩ (⟨rfl, t₁, cut, remains, kept⟩ | ⟨rfl, refused, lost⟩)
  · have closed : t.Closed fun id => t.Under t.root id ∧ id ≠ t.root := closed_below wf.toRooted _
    exact last t₁ h₁ d resp₁ w' cut remains (serves.cut cut closed (fun no => no.2 rfl) remains)
      (leaf_of_cut wf.toRooted cut) shows.ident shows.isFile kept
  · exact failed w' _ refused lost

end World

end Deletion

/-! What a deletion does -/

/-- The keys whose content is removed. -/
def removedKeys (calls : List Exchange) : List (Str × Str) :=
  calls.filterMap fun c => match c.1 with
    | .dele usr key => some (usr, key)
    | _ => none

@[simp] theorem removedKeys_append (calls later : List Exchange) :
    removedKeys (calls ++ later) = removedKeys calls ++ removedKeys later :=
  List.filterMap_append

/-- The content of each file that is gone is removed once, and no other. -/
def RemovesFiles (usr : Str) (t : Tree) (gone : Nat → Prop) (calls : List Exchange) : Prop :=
  ∃ ids : List Nat, ids.Nodup ∧
    (∀ id, id ∈ ids ↔ gone id ∧ ∃ n, t.node id = some n ∧ n.isFile = true) ∧
    removedKeys calls = ids.map fun id => (usr, toDecimal id)

/-- The last call stores metadata that say the tree. -/
def StoresLast (usr : Str) (t : Tree) (latest : Nat) (calls : List Exchange) : Prop :=
  ∃ before old text reply, calls = before ++ [(.cput usr kMetadataFp old text, reply)] ∧
    Says t latest text

/-- All calls succeed. -/
def succeeding (_ : KvCall) (reply : KvReply) : Prop := reply.status = .finished

open Classical in
/-- The tree without an entry and what is below it. The root folder stays. -/
noncomputable def pruned (t : Tree) (id : Nat) : Tree where
  root := t.root
  node c := if t.Under id c ∧ c ≠ t.root then none else t.node c

/-- Where all calls succeed, the deletion is answered with SUCCESS, the tree without the entry is
stored, and the content of each file in it is removed. -/
def DeletesExactly (env : Env) (t : Tree) (latest : Nat) (h : Handler) (fp : Str) (id : Nat) : Prop :=
  ∀ resp, (handleDelete env env.fuel (kMaxAttempt + 1) false fp h resp).Ends succeeding fun calls r =>
    r.2.status = some .success ∧ StoresLast h.usr (pruned t id) latest calls ∧
      RemovesFiles h.usr t (t.Under id) calls

section Exact
variable {t : Tree} {h : Handler} {env : Env} {latest : Nat}

theorem cut_pruned (t : Tree) (id : Nat) :
    t.Cut (pruned t id) fun c => t.Under id c ∧ c ≠ t.root := by
  refine ⟨rfl, ?_⟩
  intro c n
  rw [pruned]
  simp only []
  split
  · rename_i gone
    exact ⟨nofun, fun both => absurd gone both.2⟩
  · rename_i stays
    exact (and_iff_left stays).symm

theorem pruned_below (wf : t.Rooted) {id : Nat} (below : id ≠ t.root) :
    pruned t id = t.without id := by
  refine ((cut_pruned t id).congr fun c n _ => and_iff_left_of_imp fun under => ?_).unique
    (cut_without t id)
  rintro rfl
  exact wf.not_under_root below under

/-- What the calls have done so far: the content of the files that are not in the tree any more is
removed, and the tree was stored last. -/
structure Removing (usr : Str) (t₀ : Tree) (latest : Nat) (t : Tree) (h : Handler)
    (calls : List Exchange) : Prop where
  user : h.usr = usr
  part : ∀ id m, t.node id = some m → t₀.node id = some m
  removes : RemovesFiles usr t₀ (fun id => t.node id = none) calls
  stores : t = t₀ ∨ StoresLast usr t latest calls

theorem removing_start (h : Handler) : Removing h.usr t latest t h [] where
  user := rfl
  part _ _ node := node
  removes := by
    refine ⟨[], List.nodup_nil, fun id => ⟨nofun, ?_⟩, rfl⟩
    rintro ⟨gone, n, here, -⟩
    rw [gone] at here
    cases here
  stores := .inl rfl

/-- The calls for a leaf: the content of a file, and the metadata. -/
theorem reaches_deleteEmptied {h₁ h' : Handler} {ptr : Nat → Ptr} {found : Found} {curDir : Dirent}
    {fuel attempts : Nat} {expectKvFailure : Bool} {fp : Str} {resp : StorageServiceResp}
    (removed : removeEntry h₁ found.parentDir found.relativePath curDir.id = some h')
    (wf : t.WellFormed) (spelled : Spelled t) (holds : Holds t h' ptr)
    (known : h'.latestId = some latest) (small : latest ≤ INT_MAX) (enough : INT_MAX < env.fuel)
    (calls : List Exchange) :
    (deleteEmptied env fuel attempts expectKvFailure fp h found curDir (h₁, resp)).Reaches False
      (recorded succeeding) calls fun after r => r.2.status = some .success ∧
        ∃ dels old text reply, after = calls ++ dels ++ [(.cput h'.usr kMetadataFp old text, reply)] ∧
          Says t latest text ∧
          removedKeys dels = (if curDir.isFile then [(h.usr, toDecimal curDir.id)] else []) ∧
          r.1 = { h'.free (h₁.directories.lookup curDir.id) with metadataStr := text } := by
  have stored : ∀ before : List Exchange,
      (storeRemoved env fuel attempts fp found curDir.id h₁ resp).Reaches False
        (recorded succeeding) before fun after r => r.2.status = some .success ∧
          ∃ old text reply, after = before ++ [(.cput h'.usr kMetadataFp old text, reply)] ∧
            Says t latest text ∧
            r.1 = { h'.free (h₁.directories.lookup curDir.id) with metadataStr := text } := by
    intro before
    refine reaches_ofOption removed (reaches_written wf.toRooted holds known enough ?_)
    rintro text reply after written ⟨finished, rfl⟩
    rw [show decide (reply.status = .finished) = true from decide_eq_true finished]
    exact ⟨rfl, _, text, reply, rfl, says_of_written wf spelled small written, rfl⟩
  rw [deleteEmptied]
  cases file : curDir.isFile with
  | true =>
    rw [if_pos rfl, bind_assoc]
    refine reaches_question ?_
    rintro reply after ⟨finished, rfl⟩
    rw [show decide (reply.status = .finished) = true from decide_eq_true finished]
    refine (stored _).mono ?_
    rintro after r ⟨success, old, text, reply', same, said, result⟩
    exact ⟨success, _, old, text, reply', same, said, rfl, result⟩
  | false =>
    rw [if_neg Bool.false_ne_true]
    refine (stored _).mono ?_
    rintro after r ⟨success, old, text, reply', same, said, result⟩
    refine ⟨success, [], old, text, reply', ?_, said, rfl, result⟩
    rw [same, List.append_nil]

theorem removes_leaf {usr : Str} {t₀ : Tree} {x : Nat} {n : Node} {calls dels : List Exchange}
    {c : Exchange} (removes : RemovesFiles usr t₀ (fun id => t.node id = none) calls)
    (here : t.node x = some n) (part : ∀ id m, t.node id = some m → t₀.node id = some m)
    (leaf : Leaf t x) (keys : removedKeys dels = if n.isFile then [(usr, toDecimal x)] else [])
    (silent : removedKeys [c] = []) :
    RemovesFiles usr t₀ (fun id => (t.without x).node id = none) (calls ++ dels ++ [c]) := by
  obtain ⟨ids, nodup, mem, removed⟩ := removes
  have gone : ∀ id, (t.without x).node id = .none ↔ id = x ∨ t.node id = .none := by
    intro id
    rw [Option.eq_none_iff_forall_ne_some, Option.eq_none_iff_forall_ne_some]
    simp only [ne_eq, leaf.node]
    grind
  have new : x ∉ ids := by
    intro known
    have absent := ((mem x).mp known).1
    simp only [here] at absent
    cases absent
  refine ⟨ids ++ (if n.isFile then [x] else []), ?_, fun id => ?_, ?_⟩
  · split
    · exact List.nodup_append'.mpr ⟨nodup, List.nodup_singleton x, by simpa using new⟩
    · rwa [List.append_nil]
  · simp only [gone, List.mem_append, mem]
    cases file : n.isFile with
    | true =>
      rw [if_pos rfl, List.mem_singleton]
      constructor
      · rintro (⟨absent, kind⟩ | rfl)
        · exact ⟨.inr absent, kind⟩
        · exact ⟨.inl rfl, n, part id n here, file⟩
      · rintro ⟨rfl | absent, kind⟩
        · exact .inr rfl
        · exact .inl ⟨absent, kind⟩
    | false =>
      rw [if_neg Bool.false_ne_true]
      constructor
      · rintro (⟨absent, kind⟩ | no)
        · exact ⟨.inr absent, kind⟩
        · cases no
      · rintro ⟨rfl | absent, m, node, kind⟩
        · cases (part id n here).symm.trans node
          rw [file] at kind
          cases kind
        · exact .inl ⟨absent, m, node, kind⟩
  · rw [removedKeys_append, removedKeys_append, removed, keys, silent, List.append_nil, List.map_append]
    split <;> rfl

/-- A leaf goes with its content. -/
theorem deletesLeaf_succeeding {usr : Str} {t₀ : Tree} (small : latest ≤ INT_MAX)
    (enough : INT_MAX < env.fuel) (expectKvFailure : Bool) (attempts : Nat) :
    DeletesLeaf False (recorded succeeding) (Removing usr t₀ latest) (fun _ => False) env latest
      expectKvFailure attempts := by
  intro t h h₁ x b n fuel path found curDir resp calls serves same finds leaf parentDir name
    ident kind removing
  obtain ⟨h', removed, kept, holds, remains⟩ :=
    leaf_removed serves.wf serves.exact serves.tidy finds.here finds.parent leaf
  rw [← parentDir, ← name, ← ident] at removed
  have wf := serves.wf.without (serves.wf.ne_root finds.here finds.parent)
  have named : Named (t.without x) := fun id m node => serves.named id m (node_without.mp node).2
  refine (reaches_deleteEmptied removed wf named.spelled holds (kept.latestId.trans serves.known)
    small enough calls).mono ?_
  rintro after r ⟨success, dels, old, text, reply, rfl, said, keys, result⟩
  have left : Remains (t.without x) h₁ r.1 := by
    rw [result, ident]
    exact remains text
  have user : h'.usr = usr := kept.usr.trans removing.user
  refine .inl ⟨success, t.without x, cut_without t x, left, left.usr.trans removing.user,
    fun id m node => removing.part id m (node_without.mp node).2, ?_, .inr ?_⟩
  · refine removes_leaf removing.removes finds.here removing.part leaf ?_ rfl
    rw [keys, kind, ident, ← same, removing.user]
  · rw [user]
    exact ⟨_, old, text, reply, rfl, said⟩

theorem RemovesFiles.congr {usr : Str} {gone gone' : Nat → Prop} {calls : List Exchange}
    (removes : RemovesFiles usr t gone calls)
    (same : ∀ id n, t.node id = some n → n.isFile = true → (gone id ↔ gone' id)) :
    RemovesFiles usr t gone' calls := by
  obtain ⟨ids, nodup, known, removed⟩ := removes
  refine ⟨ids, nodup, fun id => (known id).trans ?_, removed⟩
  constructor
  · rintro ⟨away, n, here, file⟩
    exact ⟨(same id n here file).mp away, n, here, file⟩
  · rintro ⟨away, n, here, file⟩
    exact ⟨(same id n here file).mpr away, n, here, file⟩

/-- All that is said of the calls when the entry is gone. -/
theorem deleted_without {r : Handler × StorageServiceResp} {id : Nat} {n : Node}
    {calls : List Exchange} (here : t.node id = some n)
    (removing : Removing h.usr t latest (t.without id) r.1 calls) :
    StoresLast h.usr (t.without id) latest calls ∧ RemovesFiles h.usr t (t.Under id) calls := by
  constructor
  · rcases removing.stores with same | stores
    · rw [← same, node_without] at here
      exact absurd .self here.1
    · exact stores
  · refine removing.removes.congr fun c m node _ => ?_
    rw [Option.eq_none_iff_forall_ne_some]
    constructor
    · intro absent
      by_contra stays
      exact absent m (node_without.mpr ⟨stays, node⟩)
    · intro under m' left
      exact (node_without.mp left).1 under

/-- The root folder is kept, and the rest is gone. -/
theorem deleted_root (wf : t.WellFormed) {calls dels : List Exchange} {c : Exchange}
    {h₁ : Handler} (removing : Removing h.usr t latest (pruned t t.root) h₁ calls)
    (keys : removedKeys dels = []) (silent : removedKeys [c] = []) :
    RemovesFiles h.usr t (t.Under t.root) (calls ++ dels ++ [c]) := by
  obtain ⟨ids, nodup, known, removed⟩ : RemovesFiles h.usr t (t.Under t.root) calls := by
    refine removing.removes.congr fun id n here file => ?_
    have other : id ≠ t.root := by
      rintro rfl
      obtain ⟨name, top⟩ := wf.root
      cases here.symm.trans top
      cases file
    rw [Option.eq_none_iff_forall_ne_some]
    constructor
    · intro absent
      by_contra stays
      exact absent n ((cut_pruned t t.root).node.mpr ⟨here, fun no => stays no.1⟩)
    · intro under m left
      exact ((cut_pruned t t.root).node.mp left).2 ⟨under, other⟩
  refine ⟨ids, nodup, known, ?_⟩
  rw [removedKeys_append, removedKeys_append, removed, keys, silent, List.append_nil, List.append_nil]

/-- Only the root folder is at its path. -/
theorem path_of_root (wf : t.WellFormed) {fp : Str} (entryAt : t.EntryAt fp t.root) :
    fp = "/".toList := by
  by_contra other
  rcases entryAt with ⟨same, -⟩ | ⟨nonempty, last, leads⟩
  · exact other same
  · rw [components_of_named (not_trailing_iff.mpr ⟨nonempty, last⟩)] at leads
    obtain ⟨b, -, final⟩ := leads.of_append
    obtain ⟨n, here, parent, -⟩ := final.last
    exact wf.ne_root here parent rfl

/-- A deletion removes exactly the entry and what is below it, and the content of its files. -/
theorem deletes_exactly (wf : t.WellFormed) (named : Named t) (exact : Exact t h) (tidy : Tidy h)
    (known : h.latestId = some latest) (small : latest ≤ INT_MAX) (enough : INT_MAX < env.fuel)
    {fp : Str} {id : Nat} (entryAt : t.EntryAt fp id) : DeletesExactly env t latest h fp id := by
  intro resp
  have serves : Serves t latest h := ⟨wf, named, exact, tidy, known⟩
  have leaf : ∀ attempts, DeletesLeaf False (recorded succeeding) (Removing h.usr t latest)
      (fun _ => False) env latest false attempts := deletesLeaf_succeeding small enough false
  have reached : (handleDelete env env.fuel (kMaxAttempt + 1) false fp h resp).Reaches False
      (recorded succeeding) [] fun calls r => r.2.status = some .success ∧
        StoresLast h.usr (pruned t id) latest calls ∧ RemovesFiles h.usr t (t.Under id) calls := by
    by_cases top : id = t.root
    · subst top
      obtain ⟨fuel, more⟩ := Nat.exists_eq_succ_of_ne_zero (by omega : env.fuel ≠ 0)
      rw [path_of_root wf entryAt, more]
      refine reaches_delete_root enough (leaf 0) (by omega) serves (removing_start h) ?_ nofun
      intro t₁ h₁ d resp₁ calls cut remains serves₁ childless ident kind removing
      obtain rfl := cut.unique (cut_pruned t t.root)
      obtain ⟨name, here⟩ := serves₁.wf.root
      obtain ⟨h', removed, same, holds⟩ := root_removed serves₁.exact here childless
      rw [remains.pointers _ _ here] at removed
      have user : h'.usr = h.usr := same.usr.trans remains.usr
      refine (reaches_deleteEmptied (ident ▸ removed) serves₁.wf serves₁.named.spelled holds
        (same.latestId.trans serves₁.known) small enough calls).mono ?_
      rintro after r ⟨success, dels, old, text, reply, rfl, said, keys, -⟩
      rw [kind, if_neg Bool.false_ne_true] at keys
      exact ⟨success, ⟨_, old, text, reply, by rw [user], said⟩, deleted_root wf removing keys rfl⟩
    · rw [pruned_below wf.toRooted top]
      obtain ⟨b, n, finds⟩ := finds_of_entryAt entryAt top
      obtain ⟨k, depth⟩ := wf.rooted finds.here
      refine (reaches_delete_below enough (leaf 0) (leaf _) serves depth (.inr (by omega)) finds
        (removing_start h)).mono ?_
      rintro calls r (⟨success, t', cut, remains, removing⟩ | ⟨-, no⟩)
      · obtain rfl := cut.unique (cut_without t id)
        exact ⟨success, deleted_without finds.here removing⟩
      · exact no.elim
  exact ends_of_reaches reached

end Exact

/-- The folder of bob goes with its file. -/
theorem deletes_exactly_folder : ∃ h, Exact bobsTree h ∧ Tidy h ∧
    DeletesExactly deepEnv bobsTree 3 h "/d".toList 2 := by
  obtain ⟨h, exact, tidy, known⟩ := StorageCreate.bob_parsed
  exact ⟨h, exact, tidy, deletes_exactly wellFormed_bobsTree named_bobsTree exact tidy known
    (by decide) (Nat.lt_succ_self _) entryAt_folder⟩

end StorageDelete
