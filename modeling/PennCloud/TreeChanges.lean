import PennCloud.StorageTree

/-!
# Taking parts of a tree away and putting them elsewhere

An entry is put elsewhere with everything below it: only its name and its parent
change. A part that is taken away is an entry with everything below it. A handler
that changes the links of one object holds the changed tree, or what can still be
reached of it.
-/

namespace StorageTree

open Text UnorderedMap StorageMetadata

/-- The entry itself, and what is below it. -/
inductive Tree.Under (t : Tree) (top : Nat) : Nat → Prop where
  | self : t.Under top top
  | entry {id q : Nat} {n : Node} (here : t.node id = some n) (parent : n.parent = some q)
      (below : t.Under top q) : t.Under top id

open Classical in
/-- The tree without an entry and what is below it. -/
noncomputable def Tree.without (t : Tree) (top : Nat) : Tree where
  root := t.root
  node id := if t.Under top id then none else t.node id

/-- The tree with an entry in another directory, under another name. -/
def Tree.place (t : Tree) (id q : Nat) (name : Str) : Tree where
  root := t.root
  node c := if c = id then (t.node id).map fun n => ⟨name, n.isFile, some q⟩ else t.node c

/-- The tree with an entry in another directory. -/
def Tree.move (t : Tree) (id q : Nat) : Tree where
  root := t.root
  node c := if c = id then (t.node id).map fun n => ⟨n.name, n.isFile, some q⟩ else t.node c

section Parts
variable {t : Tree} {top : Nat}

theorem node_without {id : Nat} {n : Node} :
    (t.without top).node id = some n ↔ ¬ t.Under top id ∧ t.node id = some n := by
  rw [Tree.without]
  by_cases under : t.Under top id
  · simp [under]
  · simp [under]

theorem Tree.Under.not_entry {id q : Nat} {n : Node} (apart : ¬ t.Under top id)
    (here : t.node id = some n) (parent : n.parent = some q) : ¬ t.Under top q :=
  fun below => apart (.entry here parent below)

/-- The way down to an entry begins with a child. -/
theorem Tree.Under.child {id : Nat} (under : t.Under top id) (below : id ≠ top) :
    ∃ c n, t.node c = some n ∧ n.parent = some top ∧ t.Under c id := by
  induction under with
  | self => exact absurd rfl below
  | @entry id q n here parent under ih =>
    by_cases direct : q = top
    · exact ⟨id, n, here, direct ▸ parent, .self⟩
    · obtain ⟨c, m, child, up, way⟩ := ih direct
      exact ⟨c, m, child, up, .entry here parent way⟩

/-- What is below an entry is below its directory. -/
theorem Tree.Under.above {id q : Nat} {n : Node} (under : t.Under top id)
    (here : t.node top = some n) (parent : n.parent = some q) : t.Under q id := by
  induction under with
  | self => exact .entry here parent .self
  | entry here' parent' below ih => exact .entry here' parent' ih

theorem Tree.Rooted.under_root (wf : t.Rooted) {id : Nat} {n : Node} (here : t.node id = some n) :
    t.Under t.root id := by
  obtain ⟨k, depth⟩ := wf.rooted here
  induction depth generalizing n with
  | root => exact .self
  | entry here' parent above directory depth ih => exact .entry here' parent (ih above)

theorem Tree.Rooted.not_under_root (wf : t.Rooted) (below : top ≠ t.root) :
    ¬ t.Under top t.root := by
  intro under
  cases under with
  | self => exact below rfl
  | entry here parent below => exact wf.ne_root here parent rfl

/-- What is below an entry is not above it. -/
theorem Tree.Under.depth_le (wf : t.Rooted) {id j k : Nat} (under : t.Under top id)
    (first : t.Depth top j) (second : t.Depth id k) : j ≤ k := by
  induction under generalizing k with
  | self => rw [wf.depth_unique first second]
  | entry here parent below ih =>
    cases second with
    | root => exact absurd rfl (wf.ne_root here parent)
    | entry here' parent' above directory depth =>
      cases here.symm.trans here'
      cases parent.symm.trans parent'
      exact Nat.le_succ_of_le (ih depth)

theorem Tree.Rooted.not_under_parent (wf : t.Rooted) {id q : Nat} {n : Node}
    (here : t.node id = some n) (parent : n.parent = some q) : ¬ t.Under id q := by
  intro under
  obtain ⟨d, above, directory⟩ := wf.directory here parent
  obtain ⟨k, depth⟩ := wf.rooted above
  have deeper := under.depth_le wf (.entry here parent above directory depth) depth
  omega

theorem Tree.Depth.without {id k : Nat} (depth : t.Depth id k) (apart : ¬ t.Under top id) :
    (t.without top).Depth id k := by
  induction depth with
  | root => exact .root
  | entry here parent above directory depth ih =>
    have up := Tree.Under.not_entry apart here parent
    exact .entry (node_without.mpr ⟨apart, here⟩) parent (node_without.mpr ⟨up, above⟩) directory
      (ih up)

theorem Tree.Rooted.without (wf : t.Rooted) (below : top ≠ t.root) : (t.without top).Rooted where
  root := by
    obtain ⟨name, here⟩ := wf.root
    exact ⟨name, node_without.mpr ⟨wf.not_under_root below, here⟩⟩
  rooted here := by
    obtain ⟨apart, here⟩ := node_without.mp here
    obtain ⟨k, depth⟩ := wf.rooted here
    exact ⟨k, depth.without apart⟩
  inInt here := wf.inInt (node_without.mp here).2

theorem Tree.WellFormed.without (wf : t.WellFormed) (below : top ≠ t.root) :
    (t.without top).WellFormed where
  toRooted := wf.toRooted.without below
  distinct first second := wf.distinct (node_without.mp first).2 (node_without.mp second).2

end Parts

section Place
variable {t : Tree} {id q : Nat} {name : Str}

theorem node_place_self {n : Node} (here : t.node id = some n) :
    (t.place id q name).node id = some ⟨name, n.isFile, some q⟩ := by
  simp [Tree.place, here]

theorem node_place_ne {c : Nat} (other : c ≠ id) : (t.place id q name).node c = t.node c :=
  if_neg other

theorem move_eq_place {n : Node} (here : t.node id = some n) :
    t.move id q = t.place id q n.name := by
  simp only [Tree.move, Tree.place, here, Option.map_some]

/-- What the entries of the changed tree were before. -/
theorem node_place {c : Nat} {m : Node} (here : (t.place id q name).node c = some m) :
    ∃ n, t.node c = some n ∧ m = if c = id then ⟨name, n.isFile, some q⟩ else n := by
  by_cases same : c = id
  · subst same
    obtain ⟨n, node, rfl⟩ := Option.map_eq_some_iff.mp ((if_pos rfl).symm.trans here)
    exact ⟨n, node, by rw [if_pos rfl]⟩
  · rw [node_place_ne same] at here
    exact ⟨m, here, by rw [if_neg same]⟩

/-- The kinds of the entries stay. -/
theorem directory_place {c : Nat} {d : Node} (above : t.node c = some d)
    (directory : d.isFile = false) :
    ∃ m, (t.place id q name).node c = some m ∧ m.isFile = false := by
  by_cases same : c = id
  · subst same
    exact ⟨_, node_place_self above, directory⟩
  · exact ⟨d, (node_place_ne same).trans above, directory⟩

theorem Tree.Depth.place_apart {c k : Nat} (depth : t.Depth c k) (apart : ¬ t.Under id c) :
    (t.place id q name).Depth c k := by
  induction depth with
  | root => exact .root
  | entry here parent above directory depth ih =>
    have up := Tree.Under.not_entry apart here parent
    have other := fun same : _ = id => apart (same ▸ Tree.Under.self)
    have other' := fun same : _ = id => up (same ▸ Tree.Under.self)
    exact .entry ((node_place_ne other).trans here) parent ((node_place_ne other').trans above)
      directory (ih up)

/-- What is below the entry comes along. -/
theorem Tree.Depth.place {c k : Nat} {d : Node} (depth : t.Depth c k) (below : id ≠ t.root)
    (above : t.node q = some d) (directory : d.isFile = false) {j : Nat} (target : t.Depth q j)
    (apart : ¬ t.Under id q) : ∃ k', (t.place id q name).Depth c k' := by
  induction depth with
  | root => exact ⟨0, .root⟩
  | @entry c p k n o here parent above' directory' depth ih =>
    by_cases same : c = id
    · subst same
      have other : q ≠ c := fun same => apart (same ▸ Tree.Under.self)
      exact ⟨j + 1, .entry (node_place_self here) rfl ((node_place_ne other).trans above) directory
        (target.place_apart apart)⟩
    · obtain ⟨k', moved⟩ := ih
      have up : ∃ m, (t.place id q name).node p = some m ∧ m.isFile = false :=
        directory_place above' directory'
      obtain ⟨m, up, kind⟩ := up
      exact ⟨k' + 1, .entry ((node_place_ne same).trans here) parent up kind moved⟩

theorem Tree.Rooted.place (wf : t.Rooted) (below : id ≠ t.root) {d : Node}
    (above : t.node q = some d) (directory : d.isFile = false) (apart : ¬ t.Under id q) :
    (t.place id q name).Rooted where
  root := by
    obtain ⟨name', here⟩ := wf.root
    exact ⟨name', (node_place_ne below.symm).trans here⟩
  rooted here := by
    obtain ⟨n, node, -⟩ := node_place here
    obtain ⟨k, depth⟩ := wf.rooted node
    obtain ⟨j, target⟩ := wf.rooted above
    exact depth.place below above directory target apart
  inInt here := by
    obtain ⟨n, node, -⟩ := node_place here
    exact wf.inInt node

/-- Two entries of the changed tree with one place are the moved one and one that was there. -/
theorem Tree.WellFormed.clash (wf : t.WellFormed) {a b : Nat} {m n : Node}
    (first : (t.place id q name).node a = some m) (second : (t.place id q name).node b = some n)
    (up : m.parent = n.parent) (named : m.name = n.name) : a = b ∨
      ∃ c k, (c = a ∨ c = b) ∧ c ≠ id ∧ t.node c = some k ∧ k.parent = some q ∧ k.name = name := by
  obtain ⟨m', node, rfl⟩ := node_place first
  obtain ⟨n', node', rfl⟩ := node_place second
  by_cases firstMoved : a = id
  · by_cases secondMoved : b = id
    · exact .inl (firstMoved.trans secondMoved.symm)
    · rw [if_pos firstMoved, if_neg secondMoved] at up named
      exact .inr ⟨b, n', .inr rfl, secondMoved, node', up.symm, named.symm⟩
  · by_cases secondMoved : b = id
    · rw [if_neg firstMoved, if_pos secondMoved] at up named
      exact .inr ⟨a, m', .inl rfl, firstMoved, node, up, named⟩
    · rw [if_neg firstMoved, if_neg secondMoved] at up named
      exact .inl (wf.distinct node node' up named)

theorem Tree.WellFormed.place (wf : t.WellFormed) (below : id ≠ t.root) {d : Node}
    (above : t.node q = some d) (directory : d.isFile = false) (apart : ¬ t.Under id q)
    (free : ∀ c k, t.node c = some k → k.parent = some q → k.name = name → c = id) :
    (t.place id q name).WellFormed where
  toRooted := wf.toRooted.place below above directory apart
  distinct first second up named := by
    rcases wf.clash first second up named with same | ⟨c, k, -, other, node, parent, spelled⟩
    · exact same
    · exact absurd (free c k node parent spelled) other

/-- An entry that was at the new place is taken away with what is below it. -/
theorem Tree.WellFormed.place_without (wf : t.WellFormed) (below : id ≠ t.root) {d : Node}
    (above : t.node q = some d) (directory : d.isFile = false) (apart : ¬ t.Under id q)
    {c : Nat} {k : Node} (there : t.node c = some k) (parent : k.parent = some q)
    (spelled : k.name = name) : ((t.place id q name).without c).WellFormed where
  toRooted := (wf.toRooted.place below above directory apart).without (wf.ne_root there parent)
  distinct first second up named := by
    obtain ⟨keptFirst, first⟩ := node_without.mp first
    obtain ⟨keptSecond, second⟩ := node_without.mp second
    rcases wf.clash first second up named with same | ⟨c', k', which, other, node, parent', spelled'⟩
    · exact same
    · have one : c' = c := wf.distinct node there (parent'.trans parent.symm)
        (spelled'.trans spelled.symm)
      subst one
      rcases which with rfl | rfl
      · exact absurd .self keptFirst
      · exact absurd .self keptSecond

end Place

/-! Objects that change -/

/-- The links of one object changed: it left its directory and was put into another. -/
structure Relinked (t : Tree) (ptr : Nat → Ptr) (id p q : Nat) (old new : Str)
    (h h' : Handler) : Prop where
  root : h'.root = h.root
  latestId : h'.latestId = h.latestId
  object : ∀ {x n d}, t.node x = some n → h.memory.lookup (ptr x) = some d →
    ∃ d', h'.memory.lookup (ptr x) = some d' ∧ d'.id = d.id ∧ d'.isFile = d.isFile ∧
      d'.isRoot = d.isRoot ∧ d'.relativePath = (if x = id then new else d.relativePath) ∧
      d'.parent = (if x = id then some (ptr q) else d.parent) ∧
      ∀ name, d'.entries.lookup name = if x = q ∧ name = new then some (some (ptr id))
        else if x = p ∧ name = old then none else d.entries.lookup name

/-- The entries of a directory are what its links say now. -/
def Links (t t' : Tree) (id p q : Nat) (old new : Str) : Prop :=
  ∀ x o, t'.node x = some o → o.isFile = false → ∀ name c,
    (∃ k, t'.node c = some k ∧ k.parent = some x ∧ k.name = name) ↔
      if x = q ∧ name = new then c = id else if x = p ∧ name = old then False
      else ∃ k, t.node c = some k ∧ k.parent = some x ∧ k.name = name

theorem laid_of_relinked {t t' : Tree} {h h' : Handler} {ptr : Nat → Ptr} {id p q : Nat}
    {old new : Str} (laid : Laid t h ptr) (relinked : Relinked t ptr id p q old new h h')
    (root : t'.root = t.root)
    (nodes : ∀ x m, t'.node x = some m → ∃ n, t.node x = some n ∧
      m = if x = id then ⟨new, n.isFile, some q⟩ else n)
    (links : Links t t' id p q old new) : Laid t' h' ptr := by
  intro x m node
  obtain ⟨n, before, same⟩ := nodes x m node
  obtain ⟨d, object, shows⟩ := laid x n before
  obtain ⟨d', object', ident, isFile, isRoot, relativePath, parent, entries⟩ :=
    relinked.object before object
  have kind : m.isFile = n.isFile := by
    rw [same]
    split <;> rfl
  refine ⟨d', object', ?_, ident.trans shows.ident, ?_, ?_, fun y up => ?_, fun file name r => ?_⟩
  · rw [relativePath, same]
    split
    · rfl
    · exact shows.relativePath
  · rw [isFile, shows.isFile, kind]
  · rw [isRoot, shows.isRoot, root]
  · rw [parent]
    rw [same] at up
    split at up
    · rename_i moved
      cases up
      rw [if_pos moved]
    · rename_i stayed
      rw [if_neg stayed]
      exact shows.parent y up
  · have children := links x m node file name
    have before' := shows.entries (kind ▸ file) name r
    rw [entries]
    constructor
    · intro entry
      split at entry
      · rename_i there
        obtain ⟨k, child, up, spelled⟩ := (children id).mpr (by rw [if_pos there])
        exact ⟨id, k, child, up, spelled, (Option.some.inj entry).symm⟩
      · rename_i elsewhere
        split at entry
        · cases entry
        · rename_i kept
          obtain ⟨c, k, child, up, spelled, pointer⟩ := before'.mp entry
          obtain ⟨k', child', up', spelled'⟩ := (children c).mpr (by
            rw [if_neg elsewhere, if_neg kept]
            exact ⟨k, child, up, spelled⟩)
          exact ⟨c, k', child', up', spelled', pointer⟩
    · rintro ⟨c, k, child, up, spelled, pointer⟩
      have now := (children c).mp ⟨k, child, up, spelled⟩
      split at now
      · rename_i there
        rw [if_pos there, pointer, now]
      · rename_i elsewhere
        rw [if_neg elsewhere]
        split at now
        · exact now.elim
        · rename_i kept
          rw [if_neg kept]
          obtain ⟨k', child', up', spelled'⟩ := now
          exact before'.mpr ⟨c, k', child', up', spelled', pointer⟩

section Links
variable {t : Tree} {id p q : Nat} {old new : Str} {n : Node}

/-- A part of the changed tree in which the entry is the only one at its place. -/
theorem links_of_place {t' : Tree} (wf : t.WellFormed) (here : t.node id = some n)
    (parent : n.parent = some p) (named : n.name = old)
    (sub : ∀ c k, t'.node c = some k → (t.place id q new).node c = some k)
    (kept : ∀ x o c k, t'.node x = some o → (t.place id q new).node c = some k →
      k.parent = some x → (x = q ∧ k.name = new → c = id) → t'.node c = some k)
    (single : ∀ c k, t'.node c = some k → k.parent = some q → k.name = new → c = id) :
    Links t t' id p q old new := by
  intro x o node file name c
  have moved : (t.place id q new).node id = some ⟨new, n.isFile, some q⟩ := node_place_self here
  by_cases there : x = q ∧ name = new
  · rw [if_pos there]
    obtain ⟨rfl, rfl⟩ := there
    constructor
    · rintro ⟨k, child, up, spelled⟩
      exact single c k child up spelled
    · rintro rfl
      exact ⟨_, kept x o c _ node moved rfl fun _ => rfl, rfl, rfl⟩
  · rw [if_neg there]
    have other : ∀ k, t'.node c = some k → k.parent = some x → k.name = name → c ≠ id := by
      rintro k child up spelled rfl
      cases moved.symm.trans (sub c k child)
      exact there ⟨(Option.some.inj up).symm, spelled.symm⟩
    by_cases left : x = p ∧ name = old
    · rw [if_pos left, iff_false]
      obtain ⟨rfl, rfl⟩ := left
      rintro ⟨k, child, up, spelled⟩
      have apart := other k child up spelled
      have before := (node_place_ne apart).symm.trans (sub c k child)
      exact apart (wf.distinct before here (up.trans parent.symm) (spelled.trans named.symm))
    · rw [if_neg left]
      constructor
      · rintro ⟨k, child, up, spelled⟩
        have apart := other k child up spelled
        exact ⟨k, (node_place_ne apart).symm.trans (sub c k child), up, spelled⟩
      · rintro ⟨k, child, up, spelled⟩
        have apart : c ≠ id := by
          rintro rfl
          cases here.symm.trans child
          exact left ⟨Option.some.inj (up.symm.trans parent), spelled.symm.trans named⟩
        refine ⟨k, kept x o c k node ((node_place_ne apart).trans child) up fun no => ?_, up, spelled⟩
        exact absurd ⟨no.1, spelled.symm.trans no.2⟩ there

/-- The entry left its directory and nothing else stands where it was put. -/
theorem links_place (wf : t.WellFormed) (here : t.node id = some n) (parent : n.parent = some p)
    (named : n.name = old)
    (free : ∀ c k, t.node c = some k → k.parent = some q → k.name = new → c = id) :
    Links t (t.place id q new) id p q old new := by
  refine links_of_place wf here parent named (fun _ _ child => child)
    (fun _ _ _ _ _ child _ _ => child) fun c k child up spelled => ?_
  by_contra other
  exact other (free c k ((node_place_ne other).symm.trans child) up spelled)

/-- The entry pushed another one away. -/
theorem links_place_without (wf : t.WellFormed) (here : t.node id = some n)
    (parent : n.parent = some p) (named : n.name = old) {c : Nat} {k : Node}
    (there : t.node c = some k) (parent' : k.parent = some q) (spelled : k.name = new)
    (other : c ≠ id) : Links t ((t.place id q new).without c) id p q old new := by
  refine links_of_place wf here parent named (fun _ _ child => (node_without.mp child).2)
    (fun x o c' k' node child up single => ?_) fun c' k' child up named' => ?_
  · -- an entry below the other one would have its directory there too
    refine node_without.mpr ⟨fun under => ?_, child⟩
    cases under with
    | self =>
      cases ((node_place_ne other).trans there).symm.trans child
      exact other (single ⟨Option.some.inj (up.symm.trans parent'), spelled⟩)
    | entry child' up' below =>
      cases child.symm.trans child'
      cases up.symm.trans up'
      exact (node_without.mp node).1 below
  · obtain ⟨apart, child⟩ := node_without.mp child
    by_contra moved
    rw [node_place_ne moved] at child
    have one : c' = c := wf.distinct child there (up.trans parent'.symm)
      (named'.trans spelled.symm)
    exact apart (one ▸ .self)

/-- Nothing that can be reached has the entry. -/
theorem links_without (wf : t.WellFormed) (here : t.node id = some n) (parent : n.parent = some p)
    (named : n.name = old)
    (unreached : ∀ o, t.node q = some o → o.isFile = false → t.Under id q) :
    Links t (t.without id) id p q old new := by
  intro x o node file name c
  obtain ⟨apart, node⟩ := node_without.mp node
  have notThere : ¬ (x = q ∧ name = new) := by
    rintro ⟨rfl, -⟩
    exact apart (unreached o node file)
  rw [if_neg notThere]
  by_cases left : x = p ∧ name = old
  · rw [if_pos left, iff_false]
    obtain ⟨rfl, rfl⟩ := left
    rintro ⟨k, child, up, spelled⟩
    obtain ⟨apart, child⟩ := node_without.mp child
    have one : c = id := wf.distinct child here (up.trans parent.symm) (spelled.trans named.symm)
    exact apart (one ▸ .self)
  · rw [if_neg left]
    constructor
    · rintro ⟨k, child, up, spelled⟩
      exact ⟨k, (node_without.mp child).2, up, spelled⟩
    · rintro ⟨k, child, up, spelled⟩
      refine ⟨k, node_without.mpr ⟨fun under => ?_, child⟩, up, spelled⟩
      cases under with
      | self =>
        cases here.symm.trans child
        exact left ⟨Option.some.inj (up.symm.trans parent), spelled.symm.trans named⟩
      | entry child' up' below =>
        cases child.symm.trans child'
        cases up.symm.trans up'
        exact apart below

end Links

/-! Cuts -/

/-- The second tree is the first without some entries. -/
structure Tree.Cut (t t' : Tree) (gone : Nat → Prop) : Prop where
  root : t'.root = t.root
  node : ∀ {id n}, t'.node id = some n ↔ t.node id = some n ∧ ¬ gone id

section Cuts
variable {t t' t'' : Tree} {gone gone' : Nat → Prop}

theorem cut_without (t : Tree) (top : Nat) : t.Cut (t.without top) (t.Under top) :=
  ⟨rfl, node_without.trans and_comm⟩

theorem Tree.Cut.congr (cut : t.Cut t' gone)
    (same : ∀ id n, t.node id = some n → (gone id ↔ gone' id)) : t.Cut t' gone' where
  root := cut.root
  node := by
    intro id n
    rw [cut.node]
    exact and_congr_right fun here => not_congr (same id n here)

theorem Tree.Cut.trans (first : t.Cut t' gone) (second : t'.Cut t'' gone') :
    t.Cut t'' fun id => gone id ∨ gone' id where
  root := second.root.trans first.root
  node := by
    intro id n
    rw [second.node, first.node, and_assoc, not_or]

theorem Tree.Cut.unique (one : t.Cut t' gone) (other : t.Cut t'' gone) : t' = t'' := by
  have nodes : t'.node = t''.node :=
    funext fun id => Option.ext fun n => one.node.trans other.node.symm
  obtain ⟨root, node⟩ := t'
  cases (one.root.trans other.root.symm)
  exact congrArg (Tree.mk _) nodes

/-- With an entry everything below it is gone. -/
def Tree.Closed (t : Tree) (gone : Nat → Prop) : Prop :=
  ∀ {id n q}, t.node id = some n → n.parent = some q → gone q → gone id

theorem Tree.Cut.of_under (cut : t.Cut t' gone) {c id : Nat} (under : t'.Under c id) :
    t.Under c id := by
  induction under with
  | self => exact .self
  | entry here parent below ih => exact .entry (cut.node.mp here).1 parent ih

theorem Tree.Cut.above (wf : t.Rooted) (cut : t.Cut t' gone) (closed : t.Closed gone) {id q : Nat}
    {n : Node} (here : t'.node id = some n) (parent : n.parent = some q) :
    ∃ d, t'.node q = some d ∧ d.isFile = false := by
  obtain ⟨old, kept⟩ := cut.node.mp here
  obtain ⟨d, above, directory⟩ := wf.directory old parent
  exact ⟨d, cut.node.mpr ⟨above, fun no => kept (closed old parent no)⟩, directory⟩

theorem Tree.Cut.under (wf : t.Rooted) (cut : t.Cut t' gone) (closed : t.Closed gone) {c id : Nat}
    {n : Node} (here : t'.node id = some n) (under : t.Under c id) : t'.Under c id := by
  induction under generalizing n with
  | self => exact .self
  | entry here' parent below ih =>
    cases (cut.node.mp here).1.symm.trans here'
    obtain ⟨d, above, -⟩ := cut.above wf closed here parent
    exact .entry here parent (ih above)

theorem Tree.Cut.pathOf (wf : t.Rooted) (cut : t.Cut t' gone) (closed : t.Closed gone) {id : Nat}
    {n : Node} (here : t'.node id = some n) {path : Str} (isPath : t.PathOf id path) :
    t'.PathOf id path := by
  induction isPath generalizing n with
  | root here' =>
    rw [← cut.root] at here here' ⊢
    cases (cut.node.mp here).1.symm.trans here'
    exact .root here
  | entry here' parent above ih =>
    cases (cut.node.mp here).1.symm.trans here'
    obtain ⟨d, above, -⟩ := cut.above wf closed here parent
    exact .entry here parent (ih above)

theorem Tree.Cut.depth (wf : t.Rooted) (cut : t.Cut t' gone) (closed : t.Closed gone) {id k : Nat}
    {n : Node} (here : t'.node id = some n) (depth : t.Depth id k) : t'.Depth id k := by
  induction depth generalizing n with
  | root => exact cut.root ▸ .root
  | entry here' parent above directory depth ih =>
    cases (cut.node.mp here).1.symm.trans here'
    obtain ⟨d, above', directory'⟩ := cut.above wf closed here parent
    exact .entry here parent above' directory' (ih above')

/-- What is left is a tree, as long as the root folder stays. -/
theorem Tree.Cut.wellFormed (wf : t.WellFormed) (cut : t.Cut t' gone) (closed : t.Closed gone)
    (stays : ¬ gone t.root) : t'.WellFormed where
  root := by
    obtain ⟨name, top⟩ := wf.root
    exact ⟨name, cut.root ▸ cut.node.mpr ⟨top, stays⟩⟩
  rooted here := by
    obtain ⟨k, depth⟩ := wf.rooted (cut.node.mp here).1
    exact ⟨k, cut.depth wf.toRooted closed here depth⟩
  inInt here := wf.inInt (cut.node.mp here).1
  distinct first second := wf.distinct (cut.node.mp first).1 (cut.node.mp second).1

theorem closed_under (t : Tree) (top : Nat) : t.Closed (t.Under top) :=
  fun here parent below => .entry here parent below

/-- Entries of one directory have nothing in common below them. -/
theorem Tree.Rooted.under_disjoint (wf : t.Rooted) {c d x : Nat} {m n : Node}
    (first : t.node c = some m) (parent : m.parent = some x) (second : t.node d = some n)
    (parent' : n.parent = some x) {id : Nat} (one : t.Under c id) (other : t.Under d id) : c = d := by
  induction one with
  | self =>
    cases other with
    | self => rfl
    | entry here up below =>
      cases first.symm.trans here
      cases parent.symm.trans up
      exact absurd below (wf.not_under_parent second parent')
  | entry here up below ih =>
    cases other with
    | self =>
      cases second.symm.trans here
      cases parent'.symm.trans up
      exact absurd below (wf.not_under_parent first parent)
    | entry here' up' below' =>
      cases here.symm.trans here'
      cases up.symm.trans up'
      exact ih below'

end Cuts

/-! Trees with all entries of another -/

/-- Every entry of the other tree is there, unchanged. -/
structure Extends (t' t : Tree) : Prop where
  root : t'.root = t.root
  node : ∀ {id n}, t.node id = some n → t'.node id = some n

section Extends
variable {t t' t'' : Tree} {a b : Nat} {n : Node}

theorem Extends.refl (t : Tree) : Extends t t := ⟨rfl, id⟩

theorem Extends.trans (first : Extends t'' t') (second : Extends t' t) : Extends t'' t :=
  ⟨first.root.trans second.root, fun here => first.node (second.node here)⟩

theorem Extends.antisymm (one : Extends t' t) (other : Extends t t') : t' = t := by
  have nodes : t'.node = t.node :=
    funext fun id => Option.ext fun n => ⟨fun here => other.node here, fun here => one.node here⟩
  obtain ⟨root, node⟩ := t
  obtain ⟨root', node'⟩ := t'
  cases show root' = root from one.root
  cases show node' = node from nodes
  rfl

theorem Extends.under (larger : Extends t' t) (under : t.Under a b) : t'.Under a b := by
  induction under with
  | self => exact .self
  | entry here parent below ih => exact .entry (larger.node here) parent ih

/-- What is above an entry of the smaller tree is there. -/
theorem Extends.of_under (wf : t.Rooted) (larger : Extends t' t) (here : t.node b = some n)
    (under : t'.Under a b) : t.Under a b := by
  induction under generalizing n with
  | self => exact .self
  | entry here' parent below ih =>
    cases here'.symm.trans (larger.node here)
    obtain ⟨o, above, -⟩ := wf.directory here parent
    exact .entry here parent (ih above)

theorem extends_of_cut {gone : Nat → Prop} (cut : t.Cut t' gone) : Extends t t' :=
  ⟨cut.root.symm, fun here => (cut.node.mp here).1⟩

end Extends

/-! Updates of objects -/

/-- The objects of the entries. -/
def Objects (t : Tree) (h : Handler) (ptr : Nat → Ptr) (object : Nat → Dirent) : Prop :=
  ∀ x n, t.node x = some n → h.memory.lookup (ptr x) = some (object x)

/-- Two handlers that differ in their objects. -/
structure SameBut (h h' : Handler) : Prop where
  root : h'.root = h.root
  latestId : h'.latestId = h.latestId
  metadataStr : h'.metadataStr = h.metadataStr
  usr : h'.usr = h.usr
  directories : h'.directories = h.directories

theorem SameBut.trans {h h' h'' : Handler} (first : SameBut h h') (second : SameBut h' h'') :
    SameBut h h'' where
  root := second.root.trans first.root
  latestId := second.latestId.trans first.latestId
  metadataStr := second.metadataStr.trans first.metadataStr
  usr := second.usr.trans first.usr
  directories := second.directories.trans first.directories

theorem Laid.objects {t : Tree} {h : Handler} {ptr : Nat → Ptr} (laid : Laid t h ptr) :
    ∃ object, Objects t h ptr object := by
  have each : ∀ x, ∃ d, ∀ n, t.node x = some n → h.memory.lookup (ptr x) = some d := by
    intro x
    cases node : t.node x with
    | none => exact ⟨⟨[], 0, false, none, false, ∅⟩, nofun⟩
    | some n =>
      obtain ⟨d, object, -⟩ := laid x n node
      exact ⟨d, fun _ _ => object⟩
  choose object same using each
  exact ⟨object, same⟩

/-- An update changes the object of one entry. -/
theorem Objects.update {t : Tree} {h : Handler} {ptr : Nat → Ptr} {object : Nat → Dirent}
    (objects : Objects t h ptr object)
    (apart : ∀ a b m n, t.node a = some m → t.node b = some n → ptr a = ptr b → a = b)
    {a : Nat} {n : Node} (here : t.node a = some n) (f : Dirent → Dirent) :
    ∃ h', h.update (some (ptr a)) f = some h' ∧ SameBut h h' ∧
      Objects t h' ptr fun x => if x = a then f (object x) else object x := by
  have updated : h.update (some (ptr a)) f =
      some { h with memory := h.memory.insert (ptr a) (f (object a)) } := by
    simp only [Handler.update, Option.bind_some, objects a n here, Option.map_some]
  refine ⟨_, updated, ⟨rfl, rfl, rfl, rfl, rfl⟩, fun x m node => ?_⟩
  by_cases same : x = a
  · subst same
    simp only [AList.lookup_insert, if_true]
  · have other : ptr x ≠ ptr a := fun equal => same (apart x a m n node here equal)
    simp only [AList.lookup_insert_ne other, if_neg same, objects x m node]

end StorageTree
