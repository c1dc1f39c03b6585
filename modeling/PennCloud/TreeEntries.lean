import PennCloud.PathMaps
import PennCloud.StorageDelete

/-!
# The entries of a tree by their paths

The names that lead to an entry are its path. What stands at the paths changes with
the tree: an entry that is added is put at its path, a part that is taken away is
removed, and one that is put elsewhere takes the place of what was there.
-/

namespace StorageTree

open Text UnorderedMap StorageMetadata PathMaps StorageDelete
open StorageCreate (withEntry node_withEntry node_withEntry_self node_withEntry_ne old_ne_new)

/-! The path of an entry -/

section Names
variable {t : Tree} {a b id : Nat} {names : List Str}

theorem Tree.Leads.under (leads : t.Leads a names b) : t.Under a b := by
  induction leads with
  | here id => exact .self
  | step child parent rest ih => exact ih.above child parent

theorem Tree.Under.leads (under : t.Under a b) : ∃ names, t.Leads a names b := by
  induction under with
  | self => exact ⟨[], .here a⟩
  | @entry id q n here parent below ih =>
    obtain ⟨names, leads⟩ := ih
    exact ⟨names ++ [n.name], leads.append (.step here parent (.here id))⟩

theorem Tree.Rooted.leads (wf : t.Rooted) {n : Node} (here : t.node id = some n) :
    ∃ names, t.Leads t.root names id :=
  (wf.under_root here).leads

theorem Tree.Rooted.names_of_root (wf : t.Rooted) (leads : t.Leads t.root names t.root) :
    names = [] := by
  rcases List.eq_nil_or_concat names with rfl | ⟨init, last, rfl⟩
  · rfl
  · rw [List.concat_eq_append] at leads
    obtain ⟨p, -, final⟩ := leads.of_append
    obtain ⟨n, here, parent, -⟩ := final.last
    exact absurd rfl (wf.ne_root here parent)

/-- An entry has one path. -/
theorem Tree.Leads.names_unique (wf : t.Rooted) {other : List Str}
    (one : t.Leads t.root names id) (two : t.Leads t.root other id) : names = other := by
  induction names using List.reverseRecOn generalizing other id with
  | nil =>
    cases one
    exact (wf.names_of_root two).symm
  | append_singleton init last ih =>
    obtain ⟨p, way, final⟩ := one.of_append
    obtain ⟨n, here, parent, rfl⟩ := final.last
    obtain ⟨init', n', p', rfl, here', parent', way'⟩ := two.last_name (wf.ne_root here parent)
    cases here.symm.trans here'
    cases parent.symm.trans parent'
    rw [ih way way']

/-- What is below an entry has a path that begins with that of the entry. -/
theorem under_iff_begins (wf : t.WellFormed) {path : List Str} (top : t.Leads t.root path a)
    (leads : t.Leads t.root names b) : t.Under a b ↔ path <+: names := by
  constructor
  · intro under
    obtain ⟨rest, below⟩ := under.leads
    exact ⟨rest, (top.append below).names_unique wf.toRooted leads⟩
  · rintro ⟨rest, rfl⟩
    obtain ⟨c, before, below⟩ := leads.of_append
    obtain rfl := top.unique wf before
    exact below.under

theorem Extends.leads {t' : Tree} (larger : Extends t' t) {names : List Str}
    (leads : t.Leads a names b) :
    t'.Leads a names b := by
  induction leads with
  | here id => exact .here id
  | step child parent rest ih => exact .step (larger.node child) parent ih

theorem Extends.finds {t' : Tree} {n : Node} (larger : Extends t' t) {path : Str}
    (finds : t.Finds path a b n) :
    t'.Finds path a b n :=
  ⟨finds.notRoot, larger.root ▸ larger.leads finds.leads, larger.node finds.here, finds.parent,
    finds.named⟩

/-- The names lead to the same entry in another tree that has the nodes on the way. -/
theorem Tree.Leads.transport {t' : Tree} (stays : Nat → Prop) (leads : t.Leads a names b)
    (upward : ∀ {c q n}, t.node c = some n → n.parent = some q → stays c → stays q)
    (keeps : ∀ {c n}, t.node c = some n → stays c → t'.node c = some n) (last : stays b) :
    t'.Leads a names b ∧ stays a := by
  induction leads with
  | here id => exact ⟨.here id, last⟩
  | step child parent rest ih =>
    obtain ⟨later, stay⟩ := ih last
    exact ⟨.step (keeps child stay) parent later, upward child parent stay⟩

end Names

/-! What stands at the paths -/

def Node.entry (n : Node) (content : Str) : Entry Str := if n.isFile then .file content else .dir

/-- The entries are those of the tree, with the contents that are given by their ids. -/
def Maps (t : Tree) (content : Nat → Str) (e : Entries Str Str) : Prop :=
  ∀ p k, e p = some k ↔
    ∃ id n, t.Leads t.root p id ∧ t.node id = some n ∧ k = n.entry (content id)

section Maps
variable {t t' : Tree} {content : Nat → Str} {e : Entries Str Str}

theorem Maps.at (maps : Maps t content e) {p : List Str} {id : Nat} {n : Node}
    (leads : t.Leads t.root p id) (here : t.node id = some n) :
    e p = some (n.entry (content id)) :=
  (maps p _).mpr ⟨id, n, leads, here, rfl⟩

/-- Contents that no entry has may be others. -/
theorem Maps.congr (maps : Maps t content e) {content' : Nat → Str}
    (same : ∀ id n, t.node id = some n → n.isFile = true → content' id = content id) :
    Maps t content' e := by
  intro p k
  rw [maps]
  have each : ∀ id n, t.node id = some n → n.entry (content' id) = n.entry (content id) := by
    intro id n here
    rw [Node.entry, Node.entry]
    split
    · rename_i file
      rw [same id n here file]
    · rfl
  constructor
  · rintro ⟨id, n, leads, here, rfl⟩
    exact ⟨id, n, leads, here, (each id n here).symm⟩
  · rintro ⟨id, n, leads, here, rfl⟩
    exact ⟨id, n, leads, here, each id n here⟩

/-- Every entry is at one of its paths, and nothing else is anywhere. -/
theorem maps_of_paths (wf : t.Rooted)
    (paths : ∀ id n, t.node id = some n → ∃ p, t.Leads t.root p id ∧
      e p = some (n.entry (content id)))
    (only : ∀ p k, e p = some k → ∃ id n, t.Leads t.root p id ∧ t.node id = some n) :
    Maps t content e := by
  intro p k
  constructor
  · intro known
    obtain ⟨id, n, leads, here⟩ := only p k known
    obtain ⟨p', leads', known'⟩ := paths id n here
    obtain rfl := leads.names_unique wf leads'
    exact ⟨id, n, leads, here, Option.some.inj (known.symm.trans known')⟩
  · rintro ⟨id, n, leads, here, rfl⟩
    obtain ⟨p', leads', known⟩ := paths id n here
    obtain rfl := leads.names_unique wf leads'
    exact known

/-- A part of the tree that is taken away. -/
theorem Maps.cut (wf : t.WellFormed) (maps : Maps t content e) {gone : Nat → Prop}
    (cut : t.Cut t' gone) (closed : t.Closed gone) {away : List Str → Prop} [DecidablePred away]
    (same : ∀ p id, t.Leads t.root p id → (gone id ↔ away p)) :
    Maps t' content fun p => if away p then none else e p := by
  intro p k
  show (if away p then none else e p) = some k ↔ _
  constructor
  · intro known
    split at known
    · cases known
    · rename_i stays
      obtain ⟨id, n, leads, here, rfl⟩ := (maps p k).mp known
      have here' : t'.node id = some n :=
        cut.node.mpr ⟨here, fun no => stays ((same p id leads).mp no)⟩
      exact ⟨id, n, cut.root ▸ (cut_leads wf.toRooted cut closed leads here').1, here', rfl⟩
  · rintro ⟨id, n, leads, here, rfl⟩
    obtain ⟨old, stays⟩ := cut.node.mp here
    rw [cut.root] at leads
    have leads' : t.Leads t.root p id :=
      (leads.transport (fun _ => True) (fun _ _ _ => trivial)
        (fun node _ => (cut.node.mp node).1) trivial).1
    rw [if_neg fun no => stays ((same p id leads').mpr no)]
    exact maps.at leads' old

/-- An entry is taken away with everything below it. -/
theorem Maps.without (wf : t.WellFormed) (maps : Maps t content e) {path : List Str} {x : Nat}
    (leads : t.Leads t.root path x) : Maps (t.without x) content (remove e path) :=
  maps.cut wf (cut_without t x) (closed_under t x) fun _ _ leads' =>
    under_iff_begins wf leads leads'

/-- Everything below the root folder is taken away. -/
theorem Maps.cleared (wf : t.WellFormed) (maps : Maps t content e) :
    Maps (pruned t t.root) content (clear e) := by
  refine maps.cut wf (cut_pruned t t.root) ?_ fun p id leads => ?_
  · rintro id n q here parent -
    exact ⟨wf.under_root here, wf.ne_root here parent⟩
  · constructor
    · rintro ⟨-, other⟩ rfl
      cases leads
      exact other rfl
    · intro nonempty
      refine ⟨leads.under, ?_⟩
      rintro rfl
      exact nonempty (wf.names_of_root leads)

/-- A new entry of a directory is put at its path. -/
theorem Maps.withEntry (wf : t.WellFormed) (maps : Maps t content e) {id q : Nat} {o : Node}
    {name : Str} {isFile : Bool} {path : List Str} (new : t.node id = none)
    (wf' : (withEntry t id q name isFile).WellFormed) (above : t.node q = some o)
    (leads : t.Leads t.root path q)
    (free : ∀ c n, t.node c = some n → n.parent = some q → n.name ≠ name) :
    Maps (withEntry t id q name isFile) content
      (put e (path ++ [name]) (Node.entry ⟨name, isFile, some q⟩ (content id))) := by
  have transport : ∀ {p x n}, t.Leads t.root p x → t.node x = some n →
      (StorageCreate.withEntry t id q name isFile).Leads t.root p x := by
    intro p x n way here
    exact (way.transport (fun c => t.node c ≠ none)
      (fun {c p m} node parent _ => by
        obtain ⟨d, up, -⟩ := wf.directory node parent
        rw [up]
        nofun)
      (fun node _ => (node_withEntry_ne (old_ne_new new node)).trans node)
      (by rw [here]; nofun)).1
  have made : (StorageCreate.withEntry t id q name isFile).Leads t.root (path ++ [name]) id :=
    (transport leads above).append (.step node_withEntry_self rfl (.here id))
  have apart : ∀ {p x n}, t.Leads t.root p x → t.node x = some n → p ≠ path ++ [name] := by
    rintro p x n way here rfl
    obtain ⟨c, before, final⟩ := way.of_append
    obtain ⟨m, node, parent, named⟩ := final.last
    obtain rfl := before.unique wf leads
    exact free x m node parent named
  refine maps_of_paths wf'.toRooted (fun x m node => ?_) fun p k known => ?_
  · rcases node_withEntry node with ⟨rfl, rfl⟩ | ⟨-, node⟩
    · exact ⟨_, made, put_self ..⟩
    · obtain ⟨p, way⟩ := wf.leads node
      refine ⟨p, transport way node, ?_⟩
      rw [put_apart _ (apart way node), maps.at way node]
  · by_cases same : p = path ++ [name]
    · subst same
      exact ⟨id, _, made, node_withEntry_self⟩
    · rw [put_apart _ same] at known
      obtain ⟨x, n, way, here, -⟩ := (maps p k).mp known
      exact ⟨x, n, transport way here, (node_withEntry_ne (old_ne_new new here)).trans here⟩

end Maps

/-! Entries that are put elsewhere -/

section Place
variable {t : Tree} {id q : Nat} {name : Str} {n : Node}

/-- What is below the entry comes along with its path from there. -/
theorem Tree.Leads.place_below (wf : t.Rooted) {a x : Nat} {rest : List Str}
    (leads : t.Leads a rest x) (under : t.Under id a) : (t.place id q name).Leads a rest x := by
  induction leads with
  | here x => exact .here x
  | @step a b c m names child parent later ih =>
    have other : b ≠ id := by
      rintro rfl
      exact wf.not_under_parent child parent under
    exact .step ((node_place_ne other).trans child) parent (ih (.entry child parent under))

theorem Tree.Leads.place_apart {a x : Nat} {path : List Str} (leads : t.Leads a path x)
    (apart : ¬ t.Under id x) : (t.place id q name).Leads a path x := by
  refine (leads.transport (fun c => ¬ t.Under id c)
    (fun node parent stays => Tree.Under.not_entry stays node parent) (fun {c m} node stays => ?_)
    apart).1
  have other : c ≠ id := by
    rintro rfl
    exact stays .self
  exact (node_place_ne other).trans node

/-- Outside of the entry nothing has another path. -/
theorem Tree.Under.of_place {c x : Nat} (under : (t.place id q name).Under c x)
    (apart : ¬ t.Under id x) : t.Under c x := by
  induction under with
  | self => exact .self
  | @entry x p m here parent below ih =>
    have other : x ≠ id := by
      rintro rfl
      exact apart .self
    rw [node_place_ne other] at here
    exact .entry here parent (ih (Tree.Under.not_entry apart here parent))

/-- What has to go where the entry is put: another entry of the name, and what is below it. -/
def Replaced (t : Tree) (id q : Nat) (name : Str) (x : Nat) : Prop :=
  ∃ c k, t.node c = some k ∧ k.parent = some q ∧ k.name = name ∧ c ≠ id ∧
    (t.place id q name).Under c x

theorem closed_replaced (t : Tree) (id q : Nat) (name : Str) :
    (t.place id q name).Closed (Replaced t id q name) := by
  rintro x m p here parent ⟨c, k, there, up, named, other, below⟩
  exact ⟨c, k, there, up, named, other, .entry here parent below⟩

/-- Nothing of the entry goes. -/
theorem not_replaced (wf : (t.place id q name).Rooted) (here : t.node id = some n) {x : Nat}
    (below : (t.place id q name).Under id x) : ¬ Replaced t id q name x := by
  rintro ⟨c, k, there, up, -, other, below'⟩
  exact other (wf.under_disjoint ((node_place_ne other).trans there) up (node_place_self here) rfl
    below' below)

/-- An entry is put into a directory outside of it, in the place of what was there. -/
theorem Maps.relocate {content : Nat → Str} {e : Entries Str Str} (maps : Maps t content e)
    (wf : t.WellFormed) (below : id ≠ t.root) (here : t.node id = some n) {o : Node}
    (above : t.node q = some o) (directory : o.isFile = false) (apart : ¬ t.Under id q)
    {src path : List Str} (source : t.Leads t.root src id) (target : t.Leads t.root path q)
    {t' : Tree} (cut : (t.place id q name).Cut t' (Replaced t id q name)) (wf' : t'.WellFormed) :
    Maps t' content (PathMaps.relocate e src (path ++ [name])) := by
  have placed : (t.place id q name).Rooted := wf.toRooted.place below above directory apart
  have closed : (t.place id q name).Closed (Replaced t id q name) := closed_replaced t id q name
  have root : t'.root = t.root := cut.root
  have stays : ∀ {p x m}, (t.place id q name).Leads t.root p x →
      (t.place id q name).node x = some m → ¬ Replaced t id q name x → t'.Leads t'.root p x := by
    intro p x m leads node kept
    rw [root]
    exact (cut_leads placed cut closed leads (cut.node.mpr ⟨node, kept⟩)).1
  have node : ∀ {x m}, t.node x = some m → ∃ m', (t.place id q name).node x = some m' ∧
      ∀ content, m'.entry content = m.entry content := by
    intro x m before
    by_cases same : x = id
    · subst same
      cases before.symm.trans here
      exact ⟨_, node_place_self here, fun _ => rfl⟩
    · exact ⟨m, (node_place_ne same).trans before, fun _ => rfl⟩
  have moved : (t.place id q name).Leads t.root (path ++ [name]) id :=
    (target.place_apart apart).append (.step (node_place_self here) rfl (.here id))
  have along : ∀ {rest x}, t.Leads id rest x →
      (t.place id q name).Leads t.root (path ++ [name] ++ rest) x ∧
        ¬ Replaced t id q name x := by
    intro rest x leads
    have later : (t.place id q name).Leads id rest x := leads.place_below wf.toRooted .self
    exact ⟨moved.append later, not_replaced placed here later.under⟩
  refine maps_of_paths wf'.toRooted (fun x m' there => ?_) fun p k known => ?_
  · obtain ⟨there, kept⟩ := cut.node.mp there
    obtain ⟨m, before, -⟩ := node_place there
    obtain ⟨m'', there', same⟩ := node before
    cases there.symm.trans there'
    by_cases under : t.Under id x
    · obtain ⟨rest, leads⟩ := under.leads
      obtain ⟨way, kept⟩ := along leads
      refine ⟨_, stays way there kept, ?_⟩
      rw [relocate_moved, maps.at (source.append leads) before, same]
    · obtain ⟨p, leads⟩ := wf.leads before
      refine ⟨p, stays (leads.place_apart under) there kept, ?_⟩
      rw [relocate_apart, maps.at leads before, same]
      · rintro ⟨rest, rfl⟩
        obtain ⟨c, first, later⟩ := leads.of_append
        obtain ⟨q', first, final⟩ := first.of_append
        obtain ⟨k, child, parent, named⟩ := final.last
        obtain rfl := first.unique wf target
        have other : c ≠ id := by
          rintro rfl
          exact under later.under
        exact kept ⟨c, k, child, parent, named, other, (later.place_apart under).under⟩
      · rwa [← under_iff_begins wf source leads]
  · rcases relocate_eq_some known with ⟨rest, rfl, old⟩ | ⟨away, left, old⟩
    · obtain ⟨x, m, leads, before, -⟩ := (maps _ k).mp old
      obtain ⟨c, first, later⟩ := leads.of_append
      obtain rfl := first.unique wf source
      obtain ⟨way, kept⟩ := along later
      obtain ⟨m', there, -⟩ := node before
      exact ⟨x, m', stays way there kept, cut.node.mpr ⟨there, kept⟩⟩
    · obtain ⟨x, m, leads, before, -⟩ := (maps p k).mp old
      have under : ¬ t.Under id x := fun under =>
        left ((under_iff_begins wf source leads).mp under)
      have kept : ¬ Replaced t id q name x := by
        rintro ⟨c, k, there, up, named, -, below'⟩
        obtain ⟨rest, later⟩ := (below'.of_place under).leads
        have whole : t.Leads t.root (path ++ [name] ++ rest) x := by
          rw [← named]
          exact (target.append (.step there up (.here c))).append later
        exact away ⟨rest, whole.names_unique wf.toRooted leads⟩
      obtain ⟨m', there, -⟩ := node before
      exact ⟨x, m', stays (leads.place_apart under) there kept, cut.node.mpr ⟨there, kept⟩⟩

end Place

end StorageTree
