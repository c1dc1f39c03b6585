import PennCloud.PathResolution
import PennCloud.StorageHandler
import PennCloud.TreeChanges

/-!
# The directories that an entry can be moved to

`HandleQueryAllMovableDir` walks the directories with a queue. It stops at the
entry, where that is a directory, so it does not come to what is below it, and
it leaves out the directory that the entry stands in.
-/

namespace StorageMovable

open Text UnorderedMap StorageMetadata StorageHandler StorageTree MetadataText MetadataPrinting
  MetadataRoundTrip BreadthFirst

/-- The directories that the entry can be moved to: not the one it stands in, and none of its
own. -/
def Movable (t : Tree) (entry dir : Nat) : Prop :=
  ∃ n d, t.node entry = some n ∧ t.node dir = some d ∧ d.isFile = false ∧ n.parent ≠ some dir ∧
    ¬ (n.isFile = false ∧ t.Under entry dir)

/-- The answer lists each of them once, with its path, and nothing else. -/
def ListsMovable (t : Tree) (entry : Nat) (entries : List DirEntry) : Prop :=
  ∃ dirs : List Nat, dirs.Nodup ∧ (∀ dir, dir ∈ dirs ↔ Movable t entry dir) ∧
    List.Forall₂ (fun dir e => t.PathOf dir e.name ∧ e.isDir = true) dirs entries

/-- The loop over the entries of a directory is that of the printer. -/
theorem dirsAmong_eq (h : Handler) (pairs : List (Str × Option Ptr)) :
    dirsAmong h pairs = (writeEntries h pairs).map Prod.snd := by
  induction pairs with
  | nil => rfl
  | cons e pairs ih =>
    obtain ⟨name, p⟩ := e
    rw [dirsAmong, writeEntries, ih]
    cases h.deref p with
    | none => rfl
    | some entry =>
      simp only [Option.bind_some, Option.map_map]
      rfl

section Queue
variable {t : Tree} {h : Handler} {ptr : Nat → Ptr} {env : Env}

/-- What the loop finds at a directory. -/
structure Visits (t : Tree) (h : Handler) (ptr : Nat → Ptr) (env : Env) (id : Nat)
    (items : List Item) (path : Str) : Prop where
  lists : Lists t id items
  isPath : t.PathOf id path
  computed : h.path env (some (ptr id)) = some path
  object : ∃ d, h.memory.lookup (ptr id) = some d ∧
    dirsAmong h (env.it.pairs (ptr id) d.entries) = some ((folders items).map fun c => some (ptr c))

theorem visits_directory (wf : t.Rooted) (laid : Laid t h ptr) (enough : INT_MAX < env.fuel)
    {id : Nat} {n : Node} (here : t.node id = some n) (directory : n.isFile = false) :
    ∃ items path, Visits t h ptr env id items path := by
  obtain ⟨d, object, shows⟩ := laid id n here
  obtain ⟨path, isPath, computed⟩ := laid.path wf enough here
  obtain ⟨items, -, lists, written⟩ := listed_folder env laid shows directory
  refine ⟨items, path, lists, isPath, computed, d, object, ?_⟩
  rw [dirsAmong_eq, written, Option.map_some]

/-- The queue goes on below a directory unless that is the entry itself. -/
def goesOn (n : Node) (entry dir : Nat) : Bool := !(!n.isFile && entry = dir)

/-- The queue of the source is the walk that stops at the entry, without the two directories that
are not listed. -/
theorem movable_queue (laid : Laid t h ptr) {items : Nat → List Item} {path : Nat → Str}
    (visits : ∀ id n, t.node id = some n → n.isFile = false →
      Visits t h ptr env id (items id) (path id))
    {found : Found} {entry p : Nat} {n o : Node} (here : t.node entry = some n)
    (dir : found.dir = some (ptr entry)) (above : t.node p = some o)
    (parentDir : found.parentDir = some (ptr p)) (fuel : Nat) {queue : List Nat}
    (directories : ∀ id ∈ queue, ∃ n, t.node id = some n ∧ n.isFile = false) :
    movableQueue env h found fuel (queue.map fun c => some (ptr c)) =
      (BreadthFirst.walk (fun c => if goesOn n entry c then folders (items c) else []) fuel
        queue).map fun order =>
          (order.filter fun c => goesOn n entry c && c ≠ p).map fun c => ⟨path c, true⟩ := by
  obtain ⟨e, object, shows⟩ := laid entry n here
  induction fuel generalizing queue with
  | zero =>
    cases queue with
    | nil => rfl
    | cons id queue => rfl
  | succ fuel ih =>
    cases queue with
    | nil => rfl
    | cons c queue =>
      obtain ⟨⟨m, node, directory⟩, later⟩ := List.forall_mem_cons.mp directories
      obtain ⟨lists, -, computed, d, object', among⟩ := visits c m node directory
      have same {a b : Nat} {k l : Node} (first : t.node a = some k) (second : t.node b = some l) :
          some (ptr a) = some (ptr b) ↔ a = b :=
        ⟨fun same => laid.injective first second (Option.some.inj same), fun same => by rw [same]⟩
      have stopped : (!n.isFile && decide (some (ptr entry) = some (ptr c))) = !goesOn n entry c := by
        rw [goesOn, Bool.not_not, decide_eq_decide.mpr (same here node)]
      have left : decide (some (ptr c) = some (ptr p)) = decide (c = p) :=
        decide_eq_decide.mpr (same node above)
      rw [List.map_cons, movableQueue, BreadthFirst.walk]
      simp only [dir, Handler.deref, Option.bind_some, object, shows.isFile]
      cases on : goesOn n entry c with
      | false =>
        rw [on] at stopped
        have rest := ih later
        rw [if_pos (by simpa using stopped), if_neg Bool.false_ne_true, List.append_nil, rest,
          Option.map_map]
        refine congrArg (fun f => Option.map f _) (funext fun order => ?_)
        rw [Function.comp_apply, List.filter_cons_of_neg (by simp [on])]
      | true =>
        rw [on] at stopped
        have next : ∀ x ∈ queue ++ folders (items c), ∃ n, t.node x = some n ∧ n.isFile = false := by
          intro x mem
          rcases List.mem_append.mp mem with old | new
          · exact later x old
          · obtain ⟨k, child, -, kind⟩ := (mem_folders lists).mp new
            exact ⟨k, child, kind⟩
        have rest := ih next
        rw [List.map_append] at rest
        rw [if_neg (by simpa using stopped), if_pos rfl]
        simp only [object', Option.bind_some, Option.getD_some, among, rest, parentDir, computed,
          Option.map_some, Option.map_map]
        by_cases parent : c = p
        · rw [if_pos (by rw [parent]), Option.bind_some]
          refine congrArg (fun f => Option.map f _) (funext fun order => ?_)
          rw [Function.comp_apply, Function.comp_apply, List.filter_cons_of_neg (by simp [parent])]
          rfl
        · rw [if_neg (fun equal => parent ((same node above).mp equal)), Option.bind_some]
          refine congrArg (fun f => Option.map f _) (funext fun order => ?_)
          rw [Function.comp_apply, Function.comp_apply,
            List.filter_cons_of_pos (by simp [on, parent])]
          rfl

/-- The walk that stops at the entry comes to the directories that are not below it. -/
theorem walk_stops (wf : t.Rooted) {items : Nat → List Item}
    (lists : ∀ id n, t.node id = some n → n.isFile = false → Lists t id (items id))
    (empty : ∀ id, (¬ ∃ n, t.node id = some n ∧ n.isFile = false) → items id = [])
    {entry : Nat} {n : Node} (here : t.node entry = some n) (enough : INT_MAX < env.fuel) :
    ∃ order, BreadthFirst.walk (fun c => if goesOn n entry c then folders (items c) else []) env.fuel
        [t.root] = some order ∧ order.Nodup ∧
      ∀ c, c ∈ order ↔ (∃ m, t.node c = some m ∧ m.isFile = false) ∧
        (n.isFile = false → t.Under entry c → c = entry) := by
  have tree := (branching_folders wf lists empty).restrict fun c => goesOn n entry c = true
  obtain ⟨name, root⟩ := wf.root
  have fuel : (List.range (INT_MAX + 1)).length ≤ env.fuel := by
    rw [List.length_range]
    omega
  obtain ⟨order, walked, nodup, first, closed, ordered⟩ := walk_start tree fuel
  have kept {a c : Nat} (child : c ∈ if goesOn n entry a then folders (items a) else []) :
      goesOn n entry a = true ∧
        ∃ m, t.node c = some m ∧ m.parent = some a ∧ m.isFile = false := by
    split at child
    case isTrue on => exact ⟨on, child_folder lists empty child⟩
    case isFalse => cases child
  have apart {c : Nat} (on : goesOn n entry c = true) (directory : n.isFile = false) : c ≠ entry := by
    rintro rfl
    simp [goesOn, directory] at on
  refine ⟨order, walked, nodup, fun c => ⟨fun mem => ?_, ?_⟩⟩
  · revert c
    refine ordered.induction (P := fun c => (∃ m, t.node c = some m ∧ m.isFile = false) ∧
      (n.isFile = false → t.Under entry c → c = entry)) ⟨⟨_, root, rfl⟩, ?_⟩ ?_
    · intro _ under
      by_contra other
      exact wf.not_under_root (Ne.symm other) under
    · rintro a c ⟨-, above⟩ child
      obtain ⟨on, m, node, parent, kind⟩ := kept child
      refine ⟨⟨m, node, kind⟩, fun directory under => ?_⟩
      cases under with
      | self => rfl
      | entry node' parent' below =>
        cases node.symm.trans node'
        cases parent.symm.trans parent'
        exact absurd (above directory below) (apart on directory)
  · rintro ⟨⟨m, node, kind⟩, only⟩
    obtain ⟨k, depth⟩ := wf.rooted node
    induction depth generalizing m with
    | root => exact first
    | @entry c q k m' d node' parent above directory depth ih =>
      obtain rfl : m = m' := Option.some.inj (node.symm.trans node')
      have outside : n.isFile = false → ¬ t.Under entry q := by
        intro isDir under
        have same := only isDir (.entry node parent under)
        rw [same] at node
        exact wf.not_under_parent node parent under
      have mem := ih (fun isDir under => absurd under (outside isDir)) d above directory
      refine closed q mem c ?_
      have on : goesOn n entry q = true := by
        rw [goesOn, Bool.not_eq_true', Bool.and_eq_false_imp]
        intro isDir
        refine decide_eq_false fun same => outside (by simpa using isDir) ?_
        rw [same]
        exact .self
      rw [if_pos on]
      exact (mem_folders (lists q d above directory)).mpr ⟨m, node, parent, kind⟩

end Queue

section Query
variable {t : Tree} {h : Handler} {ptr : Nat → Ptr} {env : Env} {fp : Str} {entry : Nat}

/-- What the lookup of an existing path leaves for the queue. -/
theorem found_entry (wf : t.Rooted) (holds : Holds t h ptr) (at_path : t.EntryAt fp entry) :
    ∃ found p n o, h.validatePathAndGetDir fp = some found ∧ found.valid = true ∧
      found.handler = h ∧ t.node entry = some n ∧ found.dir = some (ptr entry) ∧
      t.node p = some o ∧ found.parentDir = some (ptr p) ∧ p = n.parent.getD t.root := by
  rcases validate_entryAt wf holds at_path with ⟨looked, rfl⟩ | ⟨n, p, here, parent, looked⟩
  · obtain ⟨name, root⟩ := wf.root
    exact ⟨_, t.root, _, _, looked, rfl, rfl, root, rfl, root, rfl, rfl⟩
  · obtain ⟨d, above, -⟩ := wf.directory here parent
    exact ⟨_, p, n, d, looked, rfl, rfl, here, rfl, above, rfl, by rw [parent]; rfl⟩

/-- The query of an existing entry answers with the directories that it can be moved to. -/
theorem movable_exact (wf : t.WellFormed) (holds : Holds t h ptr) (enough : INT_MAX < env.fuel)
    (at_path : t.EntryAt fp entry) (resp : StorageServiceResp) :
    ∃ entries, handleQueryAllMovableDir env fp h resp = .done (h, { resp with
        username := some h.usr, status := some .success, body := .movableDirs entries }) ∧
      ListsMovable t entry entries := by
  obtain ⟨found, p, n, o, looked, valid, kept, here, dir, above, parentDir, rfl⟩ :=
    found_entry wf.toRooted holds at_path
  have each : ∀ id, ∃ items path, (∀ m, t.node id = some m → m.isFile = false →
      Visits t h ptr env id items path) ∧
      ((¬ ∃ m, t.node id = some m ∧ m.isFile = false) → items = []) := by
    intro id
    by_cases directory : ∃ m, t.node id = some m ∧ m.isFile = false
    · obtain ⟨m, node, kind⟩ := directory
      obtain ⟨items, path, visits⟩ := visits_directory wf.toRooted holds.laid enough node kind
      exact ⟨items, path, fun _ _ _ => visits, fun no => absurd ⟨m, node, kind⟩ no⟩
    · exact ⟨[], [], fun m node kind => absurd ⟨m, node, kind⟩ directory, fun _ => rfl⟩
  choose items path visits empty using each
  have lists : ∀ id m, t.node id = some m → m.isFile = false → Lists t id (items id) :=
    fun id m node kind => (visits id m node kind).lists
  obtain ⟨order, walked, nodup, exact⟩ := walk_stops wf.toRooted lists empty here enough
  obtain ⟨name, root⟩ := wf.root
  have directories : ∀ id ∈ [t.root], ∃ n, t.node id = some n ∧ n.isFile = false :=
    List.forall_mem_singleton.mpr ⟨_, root, rfl⟩
  have listed := movable_queue holds.laid visits here dir above parentDir env.fuel directories
  rw [walked, List.map_singleton, Option.map_some, ← holds.root] at listed
  let dirs := order.filter fun c => goesOn n entry c && c ≠ n.parent.getD t.root
  refine ⟨dirs.map fun c => ⟨path c, true⟩, ?_, dirs, nodup.filter _, fun c => ?_,
    List.forall₂_map_right_iff.mpr (List.forall₂_same.mpr fun c mem => ?_)⟩
  · rw [handleQueryAllMovableDir, if_neg (by rw [holds.root]; exact Option.some_ne_none _), looked]
    simp only [Dialogue.ofOption, Dialogue.bind, valid, kept, listed]
    rfl
  · rw [List.mem_filter, exact]
    constructor
    · rintro ⟨⟨⟨d, node, kind⟩, only⟩, kept⟩
      rw [Bool.and_eq_true, goesOn, Bool.not_eq_true', decide_eq_true_eq] at kept
      refine ⟨n, d, here, node, kind, fun parent => kept.2 (by rw [parent]; rfl), ?_⟩
      rintro ⟨isDir, under⟩
      have same := only isDir under
      simp [isDir, same] at kept
    · rintro ⟨n', d, here', node, kind, other, apart⟩
      cases here.symm.trans here'
      refine ⟨⟨⟨d, node, kind⟩, fun isDir under => absurd ⟨isDir, under⟩ apart⟩, ?_⟩
      rw [Bool.and_eq_true, goesOn, Bool.not_eq_true', decide_eq_true_eq]
      constructor
      · rw [Bool.and_eq_false_imp]
        intro isDir
        refine decide_eq_false fun same => apart ⟨by simpa using isDir, ?_⟩
        rw [same]
        exact .self
      · rintro rfl
        cases up : n.parent with
        | some q => exact other (by rw [up]; rfl)
        | none =>
          have top : entry = t.root := by
            by_contra below
            obtain ⟨q, _, parent, -⟩ := wf.parent_of here below
            rw [up] at parent
            cases parent
          subst top
          refine apart ⟨(wf.toRooted.parent_root here).2, ?_⟩
          rw [up]
          exact .self
  · obtain ⟨m, node, kind⟩ := ((exact c).mp (List.mem_filter.mp mem).1).1
    exact ⟨(visits c m node kind).isPath, rfl⟩

end Query

/-- The file can be moved to the root folder only. -/
theorem movable_exact_file :
    ∃ entries, handleQueryAllMovableDir deepEnv "/d/f".toList bobsHandler {} =
        .done (bobsHandler, { ({} : StorageServiceResp) with
          username := some bobsHandler.usr, status := some .success, body := .movableDirs entries }) ∧
      ListsMovable bobsTree 3 entries :=
  movable_exact wellFormed_bobsTree holds_bobsTree (Nat.lt_succ_self _) entryAt_file {}

end StorageMovable
