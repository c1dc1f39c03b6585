import PennCloud.BreadthFirst
import PennCloud.MetadataText

/-!
# Printing a tree

The printer visits the directories with a queue and prints a block for each: its
path and its items, in the order of the entry map. Each directory is printed once,
and after the block that lists it.
-/

namespace MetadataPrinting

open Text UnorderedMap StorageMetadata StorageTree MetadataText BreadthFirst

/-- The items of a directory, each once. -/
structure Lists (t : Tree) (id : Nat) (items : List Item) : Prop where
  nodup : (items.map Item.id).Nodup
  mem : ∀ item, item ∈ items ↔ ∃ m, t.node item.id = some m ∧ m.parent = some id ∧
    m.name = item.name ∧ m.isFile = item.isFile

/-- The directories among the items. -/
def folders (items : List Item) : List Nat := (items.filter fun item => !item.isFile).map Item.id

theorem mem_folders {t : Tree} {id c : Nat} {items : List Item} (lists : Lists t id items) :
    c ∈ folders items ↔ ∃ m, t.node c = some m ∧ m.parent = some id ∧ m.isFile = false := by
  rw [folders, List.mem_map]
  constructor
  · rintro ⟨item, mem, rfl⟩
    obtain ⟨listed, directory⟩ := List.mem_filter.mp mem
    obtain ⟨m, here, parent, -, kind⟩ := (lists.mem item).mp listed
    exact ⟨m, here, parent, by rw [kind]; simpa using directory⟩
  · rintro ⟨m, here, parent, directory⟩
    refine ⟨⟨m.name, c, m.isFile⟩, List.mem_filter.mpr ⟨?_, by simp [directory]⟩, rfl⟩
    exact (lists.mem _).mpr ⟨m, here, parent, rfl, rfl⟩

section Folders
variable {t : Tree} {items : Nat → List Item}

theorem child_folder (lists : ∀ id n, t.node id = some n → n.isFile = false → Lists t id (items id))
    (empty : ∀ id, (¬ ∃ n, t.node id = some n ∧ n.isFile = false) → items id = []) {id c : Nat}
    (mem : c ∈ folders (items id)) :
    ∃ m, t.node c = some m ∧ m.parent = some id ∧ m.isFile = false := by
  by_cases directory : ∃ n, t.node id = some n ∧ n.isFile = false
  · obtain ⟨n, here, kind⟩ := directory
    exact (mem_folders (lists id n here kind)).mp mem
  · rw [empty id directory] at mem
    cases mem

/-- The directories branch from the root folder. -/
theorem branching_folders (wf : t.Rooted)
    (lists : ∀ id n, t.node id = some n → n.isFile = false → Lists t id (items id))
    (empty : ∀ id, (¬ ∃ n, t.node id = some n ∧ n.isFile = false) → items id = []) :
    Branching (fun id => folders (items id)) t.root (List.range (INT_MAX + 1)) := by
  have child : ∀ {id c}, c ∈ folders (items id) →
      ∃ m, t.node c = some m ∧ m.parent = some id ∧ m.isFile = false := child_folder lists empty
  constructor
  · intro id
    by_cases directory : ∃ n, t.node id = some n ∧ n.isFile = false
    · obtain ⟨n, here, kind⟩ := directory
      exact (lists id n here kind).nodup.sublist (List.filter_sublist.map _)
    · rw [empty id directory]
      exact List.nodup_nil
  · intro a b c first second
    obtain ⟨m, node, parent, -⟩ := child first
    obtain ⟨m', node', parent', -⟩ := child second
    cases node.symm.trans node'
    exact Option.some.inj (parent.symm.trans parent')
  · intro a mem
    obtain ⟨m, node, parent, -⟩ := child mem
    exact wf.ne_root node parent rfl
  · intro a c mem
    obtain ⟨m, node, -, -⟩ := child mem
    exact List.mem_range.mpr (Nat.lt_succ_of_le (wf.inInt node))
  · obtain ⟨name, root⟩ := wf.root
    exact List.mem_range.mpr (Nat.lt_succ_of_le (wf.inInt root))

end Folders

section Printing
variable {t : Tree} {h : Handler} {ptr : Nat → Ptr} {env : Env}

/-- The loop over the entries of a directory prints an item for each. -/
theorem printed_entries (laid : Laid t h ptr) {id : Nat} {pairs : List (Str × Option Ptr)}
    (each : ∀ e ∈ pairs, ∃ c m, t.node c = some m ∧ m.parent = some id ∧ m.name = e.1 ∧
      e.2 = some (ptr c)) :
    ∃ items : List Item, pairs = items.map (fun item => (item.name, some (ptr item.id))) ∧
      (∀ item ∈ items, ∃ m, t.node item.id = some m ∧ m.parent = some id ∧
        m.name = item.name ∧ m.isFile = item.isFile) ∧
      writeEntries h pairs = some (unlines (items.map Item.line),
        (folders items).map fun c => some (ptr c)) := by
  induction pairs with
  | nil => exact ⟨[], rfl, by simp, rfl⟩
  | cons e pairs ih =>
    obtain ⟨items, same, listed, written⟩ := ih fun e mem => each e (List.mem_cons_of_mem _ mem)
    obtain ⟨c, m, here, parent, named, pointer⟩ := each e List.mem_cons_self
    obtain ⟨d, object, shows⟩ := laid c m here
    obtain ⟨name, p⟩ := e
    cases pointer
    refine ⟨⟨name, c, m.isFile⟩ :: items, by rw [same]; rfl, ?_, ?_⟩
    · exact List.forall_mem_cons.mpr ⟨⟨m, here, parent, named, rfl⟩, listed⟩
    · have line : entryLine name d = Item.line ⟨name, c, m.isFile⟩ ++ ['\n'] := by
        rw [entryLine_eq, shows.ident, shows.isFile]
        rfl
      simp only [writeEntries, Handler.deref, Option.bind_some, object, written, Option.map_some,
        line, shows.isFile]
      cases m.isFile <;> simp [folders, unlines_cons]

/-- The entries of a directory are its items, in the order of the entry map. -/
theorem listed_folder (env : Env) (laid : Laid t h ptr) {id : Nat} {n : Node} {d : Dirent}
    (shows : Shows t ptr id n d) (directory : n.isFile = false) :
    ∃ items : List Item,
      env.it.pairs (ptr id) d.entries = items.map (fun item => (item.name, some (ptr item.id))) ∧
      Lists t id items ∧ writeEntries h (env.it.pairs (ptr id) d.entries) =
        some (unlines (items.map Item.line), (folders items).map fun c => some (ptr c)) := by
  have pairs : ∀ e ∈ env.it.pairs (ptr id) d.entries, ∃ c m, t.node c = some m ∧
      m.parent = some id ∧ m.name = e.1 ∧ e.2 = some (ptr c) := by
    rintro ⟨name, p⟩ mem
    exact (shows.entries directory name p).mp ((env.it.mem_pairs _ _).mp mem)
  obtain ⟨items, same, listed, written⟩ := printed_entries laid pairs
  refine ⟨items, same, ⟨?_, fun item => ⟨listed item, ?_⟩⟩, written⟩
  · -- two items of one id would have one name
    have names : (items.map Item.name).Nodup := by
      have nodup := env.it.nodup_keys (ptr id) d.entries
      rwa [same, List.map_map] at nodup
    refine List.Nodup.of_map (f := fun c => (t.node c).map Node.name) ?_
    have byName : (items.map Item.id).map (fun c => (t.node c).map Node.name) =
        (items.map Item.name).map some := by
      rw [List.map_map, List.map_map]
      refine List.map_congr_left fun item mem => ?_
      obtain ⟨m, node, -, named, -⟩ := listed item mem
      simp [node, named]
    rw [byName]
    exact names.map (fun _ _ => Option.some.inj)
  · rintro ⟨m, node, parent, named, kind⟩
    have entry := (shows.entries directory item.name (some (ptr item.id))).mpr
      ⟨item.id, m, node, parent, named, rfl⟩
    have mem := (env.it.mem_pairs (ptr id) d.entries).mpr entry
    rw [same] at mem
    obtain ⟨other, present, equal⟩ := List.mem_map.mp mem
    obtain ⟨m', node', parent', named', kind'⟩ := listed other present
    have number : other.id = item.id :=
      laid.injective node' node (Option.some.inj (congrArg Prod.snd equal))
    rw [number, node, Option.some.injEq] at node'
    subst node'
    have same : other = item := by
      cases other
      cases item
      simp_all
    rwa [← same]

/-- The block of a directory. -/
theorem printed_folder (wf : t.Rooted) (laid : Laid t h ptr) (enough : INT_MAX < env.fuel)
    {id : Nat} {n : Node} (here : t.node id = some n) (directory : n.isFile = false) :
    ∃ b : Block, b.id = id ∧ t.PathOf id b.path ∧ Lists t id b.items ∧
      ∀ header, writeFolder env h header (some (ptr id)) =
        some (unlines (b.lines header), (folders b.items).map fun c => some (ptr c)) := by
  obtain ⟨d, object, shows⟩ := laid id n here
  obtain ⟨path, isPath, computed⟩ := laid.path wf enough here
  obtain ⟨items, same, lists, written⟩ := listed_folder env laid shows directory
  have length : d.entries.keys.length = items.length := by
    rw [← env.it.length_pairs (ptr id), same, List.length_map]
  refine ⟨⟨path, id, items⟩, rfl, isPath, lists, fun header => ?_⟩
  simp only [writeFolder, Handler.deref, Option.bind_some, object, computed, Option.getD_some,
    written, Option.map_some, length, shows.ident]
  simp [Block.lines, headerLine, unlines_cons]

/-- The queue prints the directories in the order of the walk. -/
theorem printed_queue {block : Nat → Block}
    (prints : ∀ id n, t.node id = some n → n.isFile = false →
      Lists t id (block id).items ∧ ∀ header, writeFolder env h header (some (ptr id)) =
        some (unlines ((block id).lines header),
          (folders (block id).items).map fun c => some (ptr c)))
    (fuel : Nat) {queue : List Nat}
    (directories : ∀ id ∈ queue, ∃ n, t.node id = some n ∧ n.isFile = false) :
    writeQueue env h fuel (queue.map fun c => some (ptr c)) =
      (BreadthFirst.walk (fun id => folders (block id).items) fuel queue).map fun order =>
        unlines (order.flatMap fun id => (block id).lines folderWords) := by
  induction fuel generalizing queue with
  | zero =>
    cases queue with
    | nil => rfl
    | cons id queue => rfl
  | succ fuel ih =>
    cases queue with
    | nil => rfl
    | cons id queue =>
      obtain ⟨⟨n, here, directory⟩, later⟩ := List.forall_mem_cons.mp directories
      obtain ⟨lists, written⟩ := prints id n here directory
      have next : ∀ c ∈ queue ++ folders (block id).items,
          ∃ n, t.node c = some n ∧ n.isFile = false := by
        intro c mem
        rcases List.mem_append.mp mem with old | new
        · exact later c old
        · obtain ⟨m, node, -, kind⟩ := (mem_folders lists).mp new
          exact ⟨m, node, kind⟩
      have rest := ih next
      rw [List.map_append] at rest
      rw [List.map_cons, writeQueue, BreadthFirst.walk]
      simp only [show "Folder: ".toList = folderWords from rfl, written, Option.bind_some, rest,
        Option.map_map]
      refine congrArg (fun f => Option.map f _) (funext fun order => ?_)
      simp [unlines_append]

/-- What the blocks of a printed tree are, and the order of its directories. -/
structure Printed (t : Tree) (block : Nat → Block) (order : List Nat) : Prop where
  blocks : ∀ id n, t.node id = some n → n.isFile = false →
    (block id).id = id ∧ t.PathOf id (block id).path ∧ Lists t id (block id).items
  nodup : order.Nodup
  directories : ∀ id, id ∈ order ↔ ∃ n, t.node id = some n ∧ n.isFile = false
  ordered : Ordered (fun id => folders (block id).items) t.root order

theorem printed_metadata (wf : t.Rooted) (holds : Holds t h ptr)
    (enough : INT_MAX < env.fuel) {latest : Nat} (known : h.latestId = some latest) :
    ∃ block order, Printed t block (t.root :: order) ∧ h.getMetadataStr env =
      some (unlines (metadataLines latest (block t.root) (order.map block))) := by
  have each : ∀ id, ∃ b : Block, ((∃ n, t.node id = some n ∧ n.isFile = false) →
      b.id = id ∧ t.PathOf id b.path ∧ Lists t id b.items ∧
      ∀ header, writeFolder env h header (some (ptr id)) =
        some (unlines (b.lines header), (folders b.items).map fun c => some (ptr c))) ∧
      ((¬ ∃ n, t.node id = some n ∧ n.isFile = false) → b.items = []) := by
    intro id
    by_cases directory : ∃ n, t.node id = some n ∧ n.isFile = false
    · obtain ⟨n, here, kind⟩ := directory
      obtain ⟨b, printed⟩ := printed_folder wf holds.laid enough here kind
      exact ⟨b, fun _ => printed, fun no => absurd ⟨n, here, kind⟩ no⟩
    · exact ⟨⟨[], id, []⟩, fun yes => absurd yes directory, fun _ => rfl⟩
  choose block printed empty using each
  have lists : ∀ id n, t.node id = some n → n.isFile = false → Lists t id (block id).items :=
    fun id n here kind => (printed id ⟨n, here, kind⟩).2.2.1
  have child : ∀ {id c}, c ∈ folders (block id).items →
      ∃ m, t.node c = some m ∧ m.parent = some id ∧ m.isFile = false := child_folder lists empty
  obtain ⟨name, root⟩ := wf.root
  have rootPrinted := printed t.root ⟨_, root, rfl⟩
  have tree := branching_folders wf lists empty
  have fuel : (List.range (INT_MAX + 1)).length ≤ env.fuel + 1 := by
    rw [List.length_range]
    omega
  obtain ⟨order, walked, nodup, -, closed, ordered⟩ := walk_start tree fuel
  rw [BreadthFirst.walk, List.nil_append] at walked
  obtain ⟨rest, visited, rfl⟩ := Option.map_eq_some_iff.mp walked
  refine ⟨block, rest, ⟨?_, nodup, fun id => ⟨fun mem => ?_, ?_⟩, ordered⟩, ?_⟩
  · intro id n here kind
    obtain ⟨number, path, lists, -⟩ := printed id ⟨n, here, kind⟩
    exact ⟨number, path, lists⟩
  · obtain ⟨before, after, split⟩ := List.append_of_mem mem
    rcases ordered before id after split with rfl | ⟨p, -, below⟩
    · exact ⟨_, root, rfl⟩
    · obtain ⟨m, node, -, kind⟩ := child below
      exact ⟨m, node, kind⟩
  · rintro ⟨n, here, kind⟩
    obtain ⟨k, depth⟩ := wf.rooted here
    induction depth generalizing n with
    | root => exact List.mem_cons_self
    | entry here' parent above directory depth ih =>
      rw [here, Option.some.injEq] at here'
      subst here'
      have listed := (mem_folders (printed _ ⟨_, above, directory⟩).2.2.1).mpr
        ⟨n, here, parent, kind⟩
      exact closed _ (ih _ above directory) _ listed
  · have below : ∀ c ∈ folders (block t.root).items,
        ∃ n, t.node c = some n ∧ n.isFile = false := by
      intro c mem
      obtain ⟨m, node, -, kind⟩ := child mem
      exact ⟨m, node, kind⟩
    have folded := printed_queue (fun id n here kind => (printed id ⟨n, here, kind⟩).2.2)
      env.fuel below
    rw [Handler.getMetadataStr, holds.root]
    simp only [show "Root folder: ".toList = rootWords from rfl,
      show "Latest ID: ".toList = latestWords from rfl, rootPrinted.2.2.2, Option.bind_some,
      folded, visited, Option.map_some, known, showLatest]
    rw [metadataLines, unlines_cons, unlines_append, List.flatMap_map, latestLine,
      List.append_assoc]

end Printing

end MetadataPrinting
