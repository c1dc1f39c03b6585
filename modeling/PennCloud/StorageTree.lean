import PennCloud.StorageMetadata
import Mathlib.Data.List.Perm.Subperm

/-!
# The tree that a handler holds

A tree gives to each id its entry, with the id of the directory that it stands in.
A handler holds a tree where its objects and their pointers are those of the tree;
objects that the tree does not reach may be left over.
-/

namespace StorageTree

open Text UnorderedMap StorageMetadata

structure Node where
  name : Str
  isFile : Bool
  /-- The root folder has none. -/
  parent : Option Nat
  deriving DecidableEq, Repr

structure Tree where
  root : Nat
  node : Nat → Option Node

/-- The length of the way from the root folder, through directories. -/
inductive Tree.Depth (t : Tree) : Nat → Nat → Prop where
  | root : t.Depth t.root 0
  | entry {id q k : Nat} {n d : Node} (here : t.node id = some n) (parent : n.parent = some q)
      (above : t.node q = some d) (directory : d.isFile = false) (depth : t.Depth q k) :
      t.Depth id (k + 1)

/-- Every entry is below the root folder. -/
structure Tree.Rooted (t : Tree) : Prop where
  root : ∃ name, t.node t.root = some ⟨name, false, none⟩
  rooted : ∀ {id n}, t.node id = some n → ∃ k, t.Depth id k
  inInt : ∀ {id n}, t.node id = some n → id ≤ INT_MAX

structure Tree.WellFormed (t : Tree) : Prop extends t.Rooted where
  distinct : ∀ {a b m n}, t.node a = some m → t.node b = some n → m.parent = n.parent →
    m.name = n.name → a = b

/-- `Path` of an entry of the tree. -/
inductive Tree.PathOf (t : Tree) : Nat → Str → Prop where
  | root {n : Node} (here : t.node t.root = some n) : t.PathOf t.root ('/' :: n.name)
  | entry {id q : Nat} {n : Node} {path : Str} (here : t.node id = some n)
      (parent : n.parent = some q) (above : t.PathOf q path) :
      t.PathOf id (path ++ '/' :: n.name)

/-- The object of an entry. A file may have entries of its own, which nobody prints. -/
structure Shows (t : Tree) (ptr : Nat → Ptr) (id : Nat) (n : Node) (d : Dirent) : Prop where
  relativePath : d.relativePath = n.name
  ident : d.id = id
  isFile : d.isFile = n.isFile
  isRoot : d.isRoot = decide (id = t.root)
  parent : ∀ q, n.parent = some q → d.parent = some (ptr q)
  entries : n.isFile = false → ∀ name p, d.entries.lookup name = some p ↔
    ∃ c m, t.node c = some m ∧ m.parent = some id ∧ m.name = name ∧ p = some (ptr c)

/-- Each entry of the tree has its object. -/
def Laid (t : Tree) (h : Handler) (ptr : Nat → Ptr) : Prop :=
  ∀ id n, t.node id = some n → ∃ d, h.memory.lookup (ptr id) = some d ∧ Shows t ptr id n d

structure Holds (t : Tree) (h : Handler) (ptr : Nat → Ptr) : Prop where
  root : h.root = some (ptr t.root)
  laid : Laid t h ptr

/-- The pointers of the map from ids. -/
def ptrOf (h : Handler) (id : Nat) : Ptr := (h.directories.lookup id).getD 0

/-- The tree as it is parsed: the map has the ids of the tree, and files have no entries. -/
structure Exact (t : Tree) (h : Handler) : Prop extends Holds t h (ptrOf h) where
  ids : ∀ id, (h.directories.lookup id).isSome ↔ (t.node id).isSome
  files : ∀ id n d, t.node id = some n → n.isFile = true →
    h.memory.lookup (ptrOf h id) = some d → d.entries = ∅
  top : ∀ d, h.memory.lookup (ptrOf h t.root) = some d → d.parent = none

/-! Depths and paths -/

section Depths
variable {t : Tree}

theorem Tree.Rooted.parent_root (wf : t.Rooted) {n : Node} (here : t.node t.root = some n) :
    n.parent = none ∧ n.isFile = false := by
  obtain ⟨name, same⟩ := wf.root
  cases here.symm.trans same
  exact ⟨rfl, rfl⟩

/-- Every entry but the root folder stands in a directory. -/
theorem Tree.Rooted.parent_of (wf : t.Rooted) {id : Nat} {n : Node}
    (here : t.node id = some n) (below : id ≠ t.root) :
    ∃ q d, n.parent = some q ∧ t.node q = some d ∧ d.isFile = false := by
  obtain ⟨k, depth⟩ := wf.rooted here
  cases depth with
  | root => exact absurd rfl below
  | entry here' parent above directory depth =>
    cases here.symm.trans here'
    exact ⟨_, _, parent, above, directory⟩

theorem Tree.Rooted.ne_root (wf : t.Rooted) {id q : Nat} {n : Node}
    (here : t.node id = some n) (parent : n.parent = some q) : id ≠ t.root := by
  rintro rfl
  rw [(wf.parent_root here).1] at parent
  cases parent

/-- The parent of an entry is a directory. -/
theorem Tree.Rooted.directory (wf : t.Rooted) {id q : Nat} {n : Node}
    (here : t.node id = some n) (parent : n.parent = some q) :
    ∃ d, t.node q = some d ∧ d.isFile = false := by
  obtain ⟨q', d, same, above, directory⟩ := wf.parent_of here (wf.ne_root here parent)
  cases parent.symm.trans same
  exact ⟨d, above, directory⟩

theorem Tree.Rooted.depth_unique (wf : t.Rooted) {id j k : Nat} (first : t.Depth id j)
    (second : t.Depth id k) : j = k := by
  induction first generalizing k with
  | root =>
    cases second with
    | root => rfl
    | entry here parent above directory depth => exact absurd rfl (wf.ne_root here parent)
  | entry here parent above directory depth ih =>
    cases second with
    | root => exact absurd rfl (wf.ne_root here parent)
    | entry here' parent' above' directory' depth' =>
      cases here.symm.trans here'
      cases parent.symm.trans parent'
      rw [ih depth']

theorem Tree.Rooted.ne_parent (wf : t.Rooted) {id q : Nat} {n : Node}
    (here : t.node id = some n) (parent : n.parent = some q) : id ≠ q := by
  rintro rfl
  obtain ⟨d, above, directory⟩ := wf.directory here parent
  obtain ⟨k, depth⟩ := wf.rooted above
  have deeper : t.Depth id (k + 1) := .entry here parent above directory depth
  exact absurd (wf.depth_unique depth deeper) (by omega)

theorem Tree.Depth.here (wf : t.Rooted) {id k : Nat} (depth : t.Depth id k) :
    ∃ n, t.node id = some n := by
  cases depth with
  | root =>
    obtain ⟨name, here⟩ := wf.root
    exact ⟨_, here⟩
  | entry here parent above directory depth => exact ⟨_, here⟩

/-- The entries on the way from the root folder are different from each other. -/
theorem Tree.Rooted.ancestors (wf : t.Rooted) {id k : Nat} (depth : t.Depth id k) :
    ∃ way : List Nat, way.length = k + 1 ∧ way.Nodup ∧
      ∀ a ∈ way, a ≤ INT_MAX ∧ ∃ j ≤ k, t.Depth a j := by
  induction depth with
  | root =>
    obtain ⟨name, here⟩ := wf.root
    refine ⟨[t.root], rfl, List.nodup_singleton _, fun a mem => ?_⟩
    rw [List.mem_singleton.mp mem]
    exact ⟨wf.inInt here, 0, le_refl 0, .root⟩
  | @entry id q k n d here parent above directory depth ih =>
    obtain ⟨way, length, nodup, each⟩ := ih
    refine ⟨id :: way, by rw [List.length_cons, length], List.nodup_cons.mpr ⟨fun mem => ?_, nodup⟩,
      fun a mem => ?_⟩
    · obtain ⟨-, j, le, shallow⟩ := each id mem
      have deep : t.Depth id (k + 1) := .entry here parent above directory depth
      have := wf.depth_unique shallow deep
      omega
    · rcases List.mem_cons.mp mem with rfl | later
      · exact ⟨wf.inInt here, k + 1, le_refl _, .entry here parent above directory depth⟩
      · obtain ⟨small, j, le, shallow⟩ := each a later
        exact ⟨small, j, by omega, shallow⟩

/-- No more different ids than there are in an `int`. -/
theorem length_le_of_inInt {ids : List Nat} (nodup : ids.Nodup) (small : ∀ id ∈ ids, id ≤ INT_MAX) :
    ids.length ≤ INT_MAX + 1 := by
  have within : ids ⊆ List.range (INT_MAX + 1) := fun id mem =>
    List.mem_range.mpr (Nat.lt_succ_of_le (small id mem))
  have fits := (nodup.subperm within).length_le
  rwa [List.length_range] at fits

theorem Tree.Rooted.depth_le (wf : t.Rooted) {id k : Nat} (depth : t.Depth id k) :
    k ≤ INT_MAX := by
  obtain ⟨way, length, nodup, each⟩ := wf.ancestors depth
  have fits := length_le_of_inInt nodup fun a mem => (each a mem).1
  omega

theorem Tree.PathOf.unique (wf : t.Rooted) {id : Nat} {first second : Str}
    (one : t.PathOf id first) (other : t.PathOf id second) : first = second := by
  induction one generalizing second with
  | root here =>
    cases other with
    | root here' =>
      cases here.symm.trans here'
      rfl
    | entry here' parent above => exact absurd rfl (wf.ne_root here' parent)
  | entry here parent above ih =>
    cases other with
    | root here' => exact absurd rfl (wf.ne_root here parent)
    | entry here' parent' above' =>
      cases here.symm.trans here'
      cases parent.symm.trans parent'
      rw [ih above']

end Depths

/-- The list has the root folder and the parents of its entries. -/
structure Tree.Top (t : Tree) (ids : List Nat) : Prop where
  root_mem : t.root ∈ ids
  closed : ∀ {id n q}, id ∈ ids → t.node id = some n → n.parent = some q → q ∈ ids

/-! What a laid tree answers -/

section Laid
variable {t : Tree} {h : Handler} {ptr : Nat → Ptr}

/-- `Path` of an object that the fuel reaches from the root folder. -/
theorem Laid.pathOf (wf : t.Rooted) (laid : Laid t h ptr) {id k fuel : Nat} {n : Node} (here : t.node id = some n)
    (depth : t.Depth id k) (enough : k < fuel) :
    ∃ path, t.PathOf id path ∧ StorageMetadata.pathOf h fuel (some (ptr id)) = some path := by
  induction depth generalizing fuel n with
  | root =>
    obtain ⟨fuel, rfl⟩ := Nat.exists_eq_succ_of_ne_zero (by omega : fuel ≠ 0)
    obtain ⟨d, object, shows⟩ := laid _ _ here
    refine ⟨_, .root here, ?_⟩
    have isRoot : d.isRoot = true := by simpa using shows.isRoot
    simp only [StorageMetadata.pathOf, Handler.deref, Option.bind_some, object, isRoot, if_true,
      shows.relativePath]
  | @entry id q k m d here' parent above directory depth ih =>
    cases here.symm.trans here'
    obtain ⟨fuel, rfl⟩ := Nat.exists_eq_succ_of_ne_zero (by omega : fuel ≠ 0)
    obtain ⟨o, object, shows⟩ := laid _ _ here
    obtain ⟨path, pathAbove, computed⟩ := ih above (by omega : k < fuel)
    refine ⟨_, .entry here parent pathAbove, ?_⟩
    have isRoot : o.isRoot = false := by simpa [wf.ne_root here parent] using shows.isRoot
    simp only [StorageMetadata.pathOf, Handler.deref, Option.bind_some, object, isRoot,
      Bool.false_eq_true, if_false, shows.parent q parent, computed, Option.map_some,
      shows.relativePath]

theorem Laid.path {env : Env} (wf : t.Rooted) (laid : Laid t h ptr)
    (enough : INT_MAX < env.fuel) {id : Nat} {n : Node} (here : t.node id = some n) :
    ∃ path, t.PathOf id path ∧ h.path env (some (ptr id)) = some path := by
  obtain ⟨k, depth⟩ := wf.rooted here
  exact laid.pathOf wf here depth (lt_of_le_of_lt (wf.depth_le depth) enough)

/-- A tree is held at any pointers that agree on its ids. -/
theorem Laid.congr {ptr' : Nat → Ptr} (wf : t.Rooted) (laid : Laid t h ptr)
    (same : ∀ id n, t.node id = some n → ptr' id = ptr id) : Laid t h ptr' := by
  intro id n here
  obtain ⟨d, object, shows⟩ := laid id n here
  refine ⟨d, by rwa [same id n here], shows.relativePath, shows.ident, shows.isFile, shows.isRoot,
    fun q parent => ?_, fun directory name p => ?_⟩
  · obtain ⟨o, above, -⟩ := wf.directory here parent
    rw [shows.parent q parent, same q o above]
  · rw [shows.entries directory]
    constructor
    · rintro ⟨c, m, child, parent, named, rfl⟩
      exact ⟨c, m, child, parent, named, by rw [same c m child]⟩
    · rintro ⟨c, m, child, parent, named, rfl⟩
      exact ⟨c, m, child, parent, named, by rw [same c m child]⟩

/-- Different entries have different objects. -/
theorem Laid.injective (laid : Laid t h ptr) {a b : Nat} {m n : Node} (first : t.node a = some m)
    (second : t.node b = some n) (same : ptr a = ptr b) : a = b := by
  obtain ⟨d, object, shows⟩ := laid a m first
  obtain ⟨e, object', shows'⟩ := laid b n second
  rw [same, object'] at object
  cases object
  rw [← shows.ident, shows'.ident]

end Laid

end StorageTree
