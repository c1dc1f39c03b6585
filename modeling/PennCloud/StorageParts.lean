import PennCloud.StorageEffects
import PennCloud.TreeEntries

/-!
# What requests make of a part of a tree

A deletion that was interrupted has left a part of the tree. What another request that
keeps away from its paths makes of the part, it makes of the whole tree as well, and the
deletion comes to the same end.
-/

namespace StorageParts

open Text StorageMetadata StorageHandler StorageCommit StorageTree MetadataText StorageCreate
  StorageDelete StorageReload StorageEffects
open SharedMetadata (creates creationPath)

theorem target_of_larger {t t' : Tree} {q : Nat} (larger : Extends t' t) {path : Str}
    (target : Target t path q) : Target t' path q := by
  rcases target with ⟨root, rfl⟩ | ⟨b, m, finds⟩
  · exact .inl ⟨root, larger.root.symm⟩
  · exact .inr ⟨b, m, larger.finds finds⟩

/-! An interrupted deletion -/

section Emptied
variable {t t' left : Tree} {req : StorageServiceReq} {latest latest' : Nat}

/-- Everything below the entry that the request deletes is gone. -/
inductive Emptied : StorageServiceReq → Tree → Tree → Prop where
  | below {type : StorageServiceType} {path : Str} {t left : Tree} {x b : Nat} {n : Node}
      (kind : type = .fileDele ∨ type = .dirDele) (finds : t.Finds path x b n)
      (cut : t.Cut left fun c => t.Under x c ∧ c ≠ x) : Emptied ⟨type, .deleteReq path⟩ t left

theorem Emptied.larger (emptied : Emptied req t left) : Extends t left := by
  cases emptied with
  | below kind finds cut => exact extends_of_cut cut

/-- The request takes what is left where it takes the whole tree. -/
theorem Emptied.onward (emptied : Emptied req t left) (wf : t.WellFormed)
    (takes : Takes req left latest t' latest') : Takes req t latest t' latest' := by
  cases emptied with
  | below kind finds cut =>
    cases takes with
    | made makes | vanished makes =>
      rcases kind with rfl | rfl
      · cases makes
      · cases makes
    | deleted _ finds' =>
      have same := finds_unique wf finds ((extends_of_cut cut).finds finds')
      subst same
      rw [(cut_emptied cut (cut_without left _)).unique (cut_without t _)]
      exact .deleted kind finds

/-- A tree between the whole one and what is left. -/
theorem Emptied.between {middle : Tree} (emptied : Emptied req t left) (wf : t.WellFormed)
    (wf' : middle.WellFormed) (larger : Extends t middle) (smaller : Extends middle left) :
    Emptied req middle left := by
  cases emptied with
  | @below type path t left x b n kind finds cut =>
    have kept : left.Finds path x b n :=
      cut_finds wf.toRooted cut (closed_below wf.toRooted x) finds fun no => no.2 rfl
    refine .below kind (smaller.finds kept) ⟨smaller.root.symm, fun {id m} => ?_⟩
    rw [cut.node]
    constructor
    · rintro ⟨here, stays⟩
      exact ⟨smaller.node (cut.node.mpr ⟨here, stays⟩),
        fun gone => stays ⟨larger.under gone.1, gone.2⟩⟩
    · rintro ⟨here, stays⟩
      exact ⟨larger.node here,
        fun gone => stays ⟨larger.of_under wf'.toRooted here gone.1, gone.2⟩⟩

theorem Emptied.trans {last : Tree} (wf : t.WellFormed) (emptied : Emptied req t left)
    (again : Emptied req left last) : Emptied req t last := by
  cases emptied with
  | below kind finds cut =>
    cases again with
    | below _ finds' cut' =>
      have same := finds_unique wf finds ((extends_of_cut cut).finds finds')
      subst same
      refine .below kind finds ((cut.trans cut').congr fun id m _ => ⟨?_, .inl⟩)
      rintro (gone | ⟨under, other⟩)
      · exact gone
      · exact ⟨cut.of_under under, other⟩

end Emptied

/-! A request that changes nothing -/

section Same
variable {t t' middle : Tree} {req : StorageServiceReq} {latest latest' id p q : Nat} {n : Node}
  {name : Str}

theorem place_self (here : t.node id = some n) (parent : n.parent = some p) :
    t.place id p n.name = t := by
  obtain ⟨root, node⟩ := t
  refine congrArg (Tree.mk root) (funext fun c => ?_)
  by_cases same : c = id
  · subst same
    obtain ⟨name, isFile, up⟩ := n
    cases show up = some p from parent
    have known : node c = some ⟨name, isFile, some p⟩ := here
    simp only [if_true, known, Option.map_some]
  · exact if_neg same

/-- An entry that is linked and still there has its old place and name. -/
theorem linked_same (here : t.node id = some n) (parent : n.parent = some p)
    (linked : Linked t id q name t') (larger : Extends t' t) : q = p ∧ name = n.name ∧ t' = t := by
  obtain ⟨k, before, same⟩ := linked.node (larger.node here)
  cases here.symm.trans before
  rw [if_pos rfl] at same
  have spelled : name = n.name := (congrArg Node.name same).symm
  have place : q = p := Option.some.inj ((congrArg Node.parent same).symm.trans parent)
  refine ⟨place, spelled, larger.antisymm ⟨larger.root.symm, fun {x m} node => ?_⟩⟩
  obtain ⟨o, old, rfl⟩ := linked.node node
  split
  · rename_i self
    subst self
    cases here.symm.trans old
    rw [here, ← same]
  · exact old

/-- An entry is linked in its old place. -/
theorem linked_again (wf : t.WellFormed) (here : t.node id = some n) (parent : n.parent = some p) :
    Linked t id p n.name t := by
  obtain ⟨o, above, directory⟩ := wf.directory here parent
  have again : Linked t id p n.name (t.place id p n.name) := by
    refine .placed above directory (wf.not_under_parent here parent) fun c k there up spelled => ?_
    exact wf.distinct there here (up.trans parent.symm) spelled
  rwa [place_self here parent] at again

/-- A request that takes away no entry of a part of the tree, and makes no new one, changes
nothing. -/
theorem takes_same (wf : t.WellFormed) (larger : Extends t middle)
    (takes : Takes req middle latest t' latest') (kept : Extends t' middle)
    (same : latest' = latest) : t' = middle ∧ Takes req t latest t latest := by
  cases takes with
  | made | vanished => omega
  | renamed kind finds linked =>
    obtain ⟨-, rfl, rfl⟩ := linked_same finds.here finds.parent linked kept
    have found := larger.finds finds
    exact ⟨rfl, .renamed kind found (linked_again wf found.here found.parent)⟩
  | moved kind finds target linked =>
    obtain ⟨rfl, -, rfl⟩ := linked_same finds.here finds.parent linked kept
    have found := larger.finds finds
    exact ⟨rfl, .moved kind found (target_of_larger larger target)
      (linked_again wf found.here found.parent)⟩
  | deleted kind finds =>
    exact absurd .self (node_without.mp (kept.node finds.here)).1

end Same

/-! Requests that keep away from each other -/

/-- No path at which the one request changes something is at or below one of the other. -/
def Apart (req other : StorageServiceReq) : Prop :=
  ∀ a ∈ sites req, ∀ b ∈ sites other, ¬ a <+: b ∧ ¬ b <+: a

instance : DecidableRel Apart := fun req other =>
  inferInstanceAs (Decidable (∀ a ∈ sites req, ∀ b ∈ sites other, ¬ a <+: b ∧ ¬ b <+: a))

section Apart
variable {t t' left left' : Tree} {req other : StorageServiceReq} {latest latest' : Nat}

theorem Apart.symm (apart : Apart req other) : Apart other req :=
  fun a mem b mem' => (apart b mem' a mem).symm

/-- Where another request changes something, the root folder itself is not changed. -/
theorem Apart.notRoot (apart : Apart req other) {site : List Str} (some : site ∈ sites other) :
    [] ∉ sites req :=
  fun root => (apart [] root site some).1 List.nil_prefix

/-- What is at or below the entry at a path has a path that begins with the names of the path. -/
theorem begins_of_under (wf : t.WellFormed) {path : Str} {x b c : Nat} {n : Node}
    (finds : t.Finds path x b n) (under : t.Under x c) {names : List Str}
    (leads : t.Leads t.root names c) : components path <+: names := by
  by_cases trailing : Trailing path
  · rw [components_of_trailing trailing]
    exact (under_iff_begins wf finds.leads leads).mp (under.above finds.here finds.parent)
  · have last := finds.named
    rw [lastAsked, if_neg fun empty => trailing ((way_eq_nil path).mp empty)] at last
    have way := finds.leads.append (.step finds.here finds.parent (.here x))
    rw [last] at way
    rw [components_of_named trailing]
    exact (under_iff_begins wf way leads).mp under

/-- A new entry elsewhere. -/
theorem Emptied.withEntry (emptied : Emptied req t left) (wf : t.WellFormed) {id q : Nat}
    (unused : t.node id = none) {o : Node} (above : t.node q = some o) {name : Str} {isFile : Bool}
    (apart : ∀ {type path x b n}, req = ⟨type, .deleteReq path⟩ → t.Finds path x b n →
      ¬ t.Under x q) :
    Emptied req (withEntry t id q name isFile) (withEntry left id q name isFile) := by
  cases emptied with
  | @below type path t left x b n kind finds cut =>
    have elsewhere := apart rfl finds
    have old : ∀ {c m}, t.node c = some m → (StorageCreate.withEntry t id q name isFile).node c =
        some m := fun here => (node_withEntry_ne (old_ne_new unused here)).trans here
    have larger : Extends (StorageCreate.withEntry t id q name isFile) t := ⟨rfl, old⟩
    refine .below kind (larger.finds finds) ⟨cut.root, fun {c m} => ?_⟩
    by_cases new : c = id
    · subst new
      rw [node_withEntry_self, node_withEntry_self, iff_self_and]
      rintro - ⟨under, below⟩
      cases under with
      | self => exact below rfl
      | entry here parent under =>
        cases node_withEntry_self.symm.trans here
        cases parent
        exact elsewhere (larger.of_under wf.toRooted above under)
    · rw [node_withEntry_ne new, node_withEntry_ne new, cut.node]
      refine and_congr_right fun here => not_congr (and_congr_left fun _ => ⟨larger.under, ?_⟩)
      exact larger.of_under wf.toRooted here

theorem site_of_creates (makes : creates req = true) : components (creationPath req) ∈ sites req := by
  obtain ⟨type, request⟩ := req
  simp only [creates] at makes
  split at makes
  · exact List.mem_singleton_self _
  · exact List.mem_singleton_self _
  · cases makes

/-- What another request makes of what an interrupted deletion has left, it makes of the whole
tree, if it takes no entry away. -/
theorem takes_whole (wf : t.WellFormed)
    (used : ∀ {id n}, t.node id = some n → id ≤ latest) (emptied : Emptied req t left)
    (apart : Apart req other) (takes : Takes other left latest left' latest')
    (kept : Extends left' left) :
    ∃ t', Takes other t latest t' latest' ∧ t'.WellFormed ∧ Emptied req t' left' := by
  have larger := emptied.larger
  cases takes with
  | @made _ _ _ b o makes named leads above directory free next =>
    have unused : t.node (latest + 1) = none := by
      cases here : t.node (latest + 1) with
      | none => rfl
      | some n => exact absurd (used here) (by omega)
    have names := components_of_named named
    have elsewhere : ∀ {type path x b n c names}, req = ⟨type, .deleteReq path⟩ →
        t.Finds path x b n → t.Leads t.root names c → names <+: components (creationPath other) →
          ¬ t.Under x c := by
      intro type path x b n c names same finds leads begins under
      subst same
      exact (apart _ (List.mem_singleton_self _) _ (site_of_creates makes)).1
        ((begins_of_under wf finds under leads).trans begins)
    have leads' : t.Leads t.root (way [] (creationPath other)).1 b :=
      larger.root ▸ larger.leads leads
    have free' : ¬ ∃ id, t.Leads t.root (components (creationPath other)) id := by
      rintro ⟨id, there⟩
      cases emptied with
      | below kind finds cut =>
        obtain ⟨name, root⟩ := wf.root
        obtain ⟨m, here⟩ := there.node root
        have stays := elsewhere rfl finds there (List.prefix_refl _)
        have here' := cut.node.mpr ⟨here, fun gone => stays gone.1⟩
        refine free ⟨id, ?_⟩
        rw [cut.root]
        exact (cut_leads wf.toRooted cut (closed_below wf.toRooted _) there here').1
    refine ⟨_, .made makes named leads' (larger.node above) directory free' next, ?_, ?_⟩
    · exact wellFormed_withEntry wf unused next (larger.node above) directory
        (free_of_missing named leads' free') _
    · refine emptied.withEntry wf unused (larger.node above) fun same finds => ?_
      exact elsewhere same finds leads' (names ▸ List.prefix_append _ _)
  | vanished makes named leads above file next =>
    exact ⟨t, .vanished makes named (larger.root ▸ larger.leads leads) (larger.node above) file next,
      wf, emptied⟩
  | renamed kind finds linked =>
    obtain ⟨rfl, takes⟩ := takes_same wf larger (.renamed kind finds linked) kept rfl
    exact ⟨t, takes, wf, emptied⟩
  | moved kind finds target linked =>
    obtain ⟨rfl, takes⟩ := takes_same wf larger (.moved kind finds target linked) kept rfl
    exact ⟨t, takes, wf, emptied⟩
  | deleted kind finds => exact absurd .self (node_without.mp (kept.node finds.here)).1

end Apart

end StorageParts
