import PennCloud.ChunkFormat

/-!
# The folder of a user as data

A folder holds the counters of the chunk being filled, the chunk of each key,
the records to delete, and the records of each chunk. A tree represents a
folder when its files are the printed forms; each file effect of a checkpoint
is a change of the folder, and the view of the folder is what its chunks answer.
-/

namespace ChunkFolder

open Text FileTree KvInterface UnorderedMap ChunkFiles ChunkFormat

/-- The content of a user's folder. A file that is not there is `none`. -/
structure Folder where
  index : Option (Nat × Nat)
  metadata : Option (List (Str × Nat))
  deletes : Option (List (Str × Nat))
  chunks : Nat → Option (List (Str × Str))

def Folder.empty : Folder := ⟨none, none, none, fun _ => none⟩

def Folder.chunk (F : Folder) (i : Nat) : List (Str × Str) := (F.chunks i).getD []

/-- The values of the key in the chunk, in order. -/
def Folder.records (F : Folder) (i : Nat) (key : Str) : List Str := valuesOf (F.chunk i) key

/-- The map that `init` reads from the metadata. -/
def mapOf (pairs : List (Str × Nat)) : UMap Str Nat :=
  pairs.foldl (fun m e => m.insert e.1 e.2) ∅

def Folder.places (F : Folder) : UMap Str Nat := mapOf (F.metadata.getD [])

/-- The number of records of the key in the chunk that are ordered to be deleted. -/
def Folder.pending (F : Folder) (i : Nat) (key : Str) : Nat := ordered (F.deletes.getD []) i key

/-- The value the chunks hold for the key. -/
def Folder.value (F : Folder) (key : Str) : Option Str :=
  (F.places.lookup key).bind fun i => (F.records i key).getLast?

/-- Every key takes one line, so that the files can be read back. -/
structure Folder.Readable (F : Folder) : Prop where
  metadata : ∀ e ∈ F.metadata.getD [], OneLine e.1
  deletes : ∀ e ∈ F.deletes.getD [], OneLine e.1
  chunks : ∀ i, ∀ r ∈ F.chunk i, OneLine r.1

/-- The files of a folder. -/
inductive Slot where
  | index
  | metadata
  | deletes
  | chunk (i : Nat)
  deriving DecidableEq

def Slot.name : Slot → Str
  | .index => "chunk_index".toList
  | .metadata => "chunk_metadata".toList
  | .deletes => "delete_list".toList
  | .chunk i => chunkName i

def Folder.text (F : Folder) : Slot → Option Str
  | .index => F.index.map fun c => indexText c.1 c.2
  | .metadata => F.metadata.map pairLines
  | .deletes => F.deletes.map pairLines
  | .chunk i => (F.chunks i).map chunkText

/-- The directory at the path has these files. -/
structure Files (t : Tree) (p : Path) (f : Slot → Option Str) : Prop where
  dir : t.lookup p = some .dir
  file : ∀ s : Slot, t.lookup (p ++ [s.name]) = (f s).map .file

/-- The tree holds the folder at the path. -/
structure Represents (t : Tree) (p : Path) (F : Folder) : Prop where
  files : Files t p F.text
  readable : F.Readable

/-! Names -/

theorem chunkName_sixth (i : Nat) : (chunkName i)[5]? = some '-' := by
  have dash : "chunk-".toList[5]? = some '-' := by decide
  exact (List.getElem?_append_left (by decide)).trans dash

theorem chunkName_ne {name : Str} (sixth : name[5]? ≠ some '-') (i : Nat) :
    chunkName i ≠ name := by
  rintro rfl
  exact sixth (chunkName_sixth i)

theorem name_injective : Function.Injective Slot.name := by
  have index : "chunk_index".toList[5]? ≠ some '-' := by decide +kernel
  have metadata : "chunk_metadata".toList[5]? ≠ some '-' := by decide +kernel
  have deletes : "delete_list".toList[5]? ≠ some '-' := by decide +kernel
  intro a b same
  cases a with
  | chunk i =>
    cases b with
    | chunk j => exact congrArg Slot.chunk (toDecimal_injective (List.append_cancel_left same))
    | index => exact absurd same (chunkName_ne index i)
    | metadata => exact absurd same (chunkName_ne metadata i)
    | deletes => exact absurd same (chunkName_ne deletes i)
  | index =>
    cases b with
    | chunk j => exact absurd same.symm (chunkName_ne index j)
    | index => rfl
    | metadata | deletes => exact absurd same (by decide +kernel)
  | metadata =>
    cases b with
    | chunk j => exact absurd same.symm (chunkName_ne metadata j)
    | metadata => rfl
    | index | deletes => exact absurd same (by decide +kernel)
  | deletes =>
    cases b with
    | chunk j => exact absurd same.symm (chunkName_ne deletes j)
    | deletes => rfl
    | index | metadata => exact absurd same (by decide +kernel)

theorem plainName_name (s : Slot) : PlainName s.name := by
  cases s with
  | chunk i =>
    refine ⟨chunkName_ne (by simp) i, chunkName_ne (by simp) i, chunkName_ne (by simp) i,
      fun slash => ?_⟩
    · rcases List.mem_append.mp slash with word | digits
      · exact absurd word (by decide +kernel)
      · exact absurd (isDigit_of_mem_toDecimal digits) (by decide)
  | index | metadata | deletes => constructor <;> decide +kernel

theorem child_ne (p : Path) (name : Str) : p ≠ p ++ [name] := by
  intro same
  have length := congrArg List.length same
  simp at length

theorem child_above {p : Path} {a b : Str} : p ++ [a] <+: p ++ [b] ↔ b = a := by
  rw [List.prefix_append_right_inj, List.cons_prefix_cons]
  simp [eq_comm]

theorem child_not_above (p : Path) (name : Str) : ¬ p ++ [name] <+: p := by
  intro h
  have length := h.length_le
  simp only [List.length_append, List.length_singleton] at length
  omega

/-! Effects on the files -/

theorem Files.writable {t : Tree} {p : Path} {f : Slot → Option Str} (h : Files t p f)
    (s : Slot) : writable t (p ++ [s.name]) = true := by
  have notDir : t.lookup (p ++ [s.name]) ≠ some .dir := by
    rw [h.file]
    cases f s <;> simp
  have parent : t.lookup (p ++ [s.name]).dropLast = some .dir := by
    rw [List.dropLast_concat]
    exact h.dir
  simp [FileTree.writable, parent, notDir]

theorem Files.content {t : Tree} {p : Path} {f : Slot → Option Str} (h : Files t p f)
    (s : Slot) : content t (p ++ [s.name]) = f s := by
  rw [FileTree.content, h.file]
  cases f s <;> rfl

theorem Files.insert {t : Tree} {p : Path} {f : Slot → Option Str} (h : Files t p f) (s : Slot)
    (text : Str) :
    Files (t.insert (p ++ [s.name]) (.file text)) p (Function.update f s (some text)) := by
  refine ⟨?_, fun r => ?_⟩
  · rw [AList.lookup_insert_ne (child_ne p s.name), h.dir]
  · by_cases same : r = s
    · subst same
      simp
    · have other : p ++ [r.name] ≠ p ++ [s.name] := fun e =>
        same (name_injective (by simpa using e))
      rw [AList.lookup_insert_ne other, h.file, Function.update_of_ne same]

theorem Files.write {t : Tree} {p : Path} {f : Slot → Option Str} (h : Files t p f) (s : Slot)
    (text : Str) :
    Files (Effect.apply t (.write (p ++ [s.name]) text)) p (Function.update f s (some text)) := by
  rw [apply_write text (h.writable s)]
  exact h.insert s text

theorem Files.append {t : Tree} {p : Path} {f : Slot → Option Str} (h : Files t p f) (s : Slot)
    (text : Str) :
    Files (Effect.apply t (.append (p ++ [s.name]) text)) p
      (Function.update f s (some ((f s).getD [] ++ text))) := by
  rw [apply_append text (h.writable s), h.content]
  exact h.insert s _

theorem Files.remove {t : Tree} {p : Path} {f : Slot → Option Str} (h : Files t p f)
    (s : Slot) :
    Files (Effect.apply t (.remove (p ++ [s.name]))) p (Function.update f s none) := by
  refine ⟨?_, fun r => ?_⟩
  · exact (apply_outside t (.remove _) (child_not_above p s.name)).trans h.dir
  · by_cases same : r = s
    · subst same
      rw [Effect.apply, lookup_removeAll, if_pos (List.prefix_refl _)]
      simp
    · have other : ¬ p ++ [s.name] <+: p ++ [r.name] := fun e =>
        same (name_injective (child_above.mp e))
      rw [Function.update_of_ne same, ← h.file]
      exact apply_outside t (.remove _) other

/-! Changes of a folder -/

/-- What one file effect of a checkpoint does to a folder. -/
inductive Change where
  | addRecords (i : Nat) (records : List (Str × Str))
  | setIndex (index size : Nat)
  | setMetadata (pairs : List (Str × Nat))
  | addDeletes (pairs : List (Str × Nat))
  | rewrite (i : Nat) (records : List (Str × Str))
  | dropDeletes

def Change.effect (p : Path) : Change → Effect
  | .addRecords i records => .append (p ++ [(Slot.chunk i).name]) (chunkText records)
  | .setIndex index size => .write (p ++ [Slot.index.name]) (indexText index size)
  | .setMetadata pairs => .write (p ++ [Slot.metadata.name]) (pairLines pairs)
  | .addDeletes pairs => .append (p ++ [Slot.deletes.name]) (pairLines pairs)
  | .rewrite i records => .write (p ++ [(Slot.chunk i).name]) (chunkText records)
  | .dropDeletes => .remove (p ++ [Slot.deletes.name])

def Change.apply (F : Folder) : Change → Folder
  | .addRecords i records =>
    { F with chunks := Function.update F.chunks i (some (F.chunk i ++ records)) }
  | .setIndex index size => { F with index := some (index, size) }
  | .setMetadata pairs => { F with metadata := some pairs }
  | .addDeletes pairs => { F with deletes := some (F.deletes.getD [] ++ pairs) }
  | .rewrite i records => { F with chunks := Function.update F.chunks i (some records) }
  | .dropDeletes => { F with deletes := none }

/-- The keys the change brings in take one line. -/
def Change.Readable : Change → Prop
  | .addRecords _ records => ∀ r ∈ records, OneLine r.1
  | .setIndex _ _ => True
  | .setMetadata pairs => ∀ e ∈ pairs, OneLine e.1
  | .addDeletes pairs => ∀ e ∈ pairs, OneLine e.1
  | .rewrite _ records => ∀ r ∈ records, OneLine r.1
  | .dropDeletes => True

theorem chunk_update (F : Folder) (i j : Nat) (records : List (Str × Str)) :
    (Function.update F.chunks i (some records) j).getD [] =
      if j = i then records else F.chunk j := by
  by_cases h : j = i
  · subst h
    simp
  · simp [h, Folder.chunk]

theorem readable_apply {F : Folder} {c : Change} (h : F.Readable) (hc : c.Readable) :
    (c.apply F).Readable := by
  cases c with
  | setIndex index size => exact ⟨h.metadata, h.deletes, h.chunks⟩
  | setMetadata pairs => exact ⟨hc, h.deletes, h.chunks⟩
  | addDeletes pairs =>
    refine ⟨h.metadata, fun e he => ?_, h.chunks⟩
    rcases List.mem_append.mp he with old | new
    · exact h.deletes e old
    · exact hc e new
  | dropDeletes => exact ⟨h.metadata, fun e he => absurd he List.not_mem_nil, h.chunks⟩
  | addRecords i records =>
    refine ⟨h.metadata, h.deletes, fun j r hr => ?_⟩
    rw [Folder.chunk, Change.apply, chunk_update] at hr
    split at hr
    · rcases List.mem_append.mp hr with old | new
      · exact h.chunks i r old
      · exact hc r new
    · exact h.chunks j r hr
  | rewrite i records =>
    refine ⟨h.metadata, h.deletes, fun j r hr => ?_⟩
    rw [Folder.chunk, Change.apply, chunk_update] at hr
    split at hr
    · exact hc r hr
    · exact h.chunks j r hr

theorem chunkText_getD (records : Option (List (Str × Str))) :
    (records.map chunkText).getD [] = chunkText (records.getD []) := by
  cases records <;> rfl

theorem pairLines_getD (pairs : Option (List (Str × Nat))) :
    (pairs.map pairLines).getD [] = pairLines (pairs.getD []) := by
  cases pairs <;> rfl

theorem files_apply {t : Tree} {p : Path} {F : Folder} (h : Files t p F.text) (c : Change) :
    Files (Effect.apply t (c.effect p)) p (c.apply F).text := by
  cases c with
  | setIndex index size =>
    refine (congrArg (Files _ p) (funext fun s => ?_)).mp (h.write .index (indexText index size))
    cases s <;> rfl
  | setMetadata pairs =>
    refine (congrArg (Files _ p) (funext fun s => ?_)).mp (h.write .metadata (pairLines pairs))
    cases s <;> rfl
  | addDeletes pairs =>
    refine (congrArg (Files _ p) (funext fun s => ?_)).mp (h.append .deletes (pairLines pairs))
    cases s with
    | deletes =>
      simp only [Function.update_self, Folder.text, Change.apply, Option.map_some,
        pairLines_getD, pairLines_append]
    | index | metadata | chunk i => rfl
  | dropDeletes =>
    refine (congrArg (Files _ p) (funext fun s => ?_)).mp (h.remove .deletes)
    cases s <;> rfl
  | addRecords i records =>
    refine (congrArg (Files _ p) (funext fun s => ?_)).mp
      (h.append (.chunk i) (chunkText records))
    cases s with
    | chunk j =>
      by_cases same : j = i
      · subst same
        simp only [Function.update_self, Folder.text, Change.apply, Option.map_some,
          chunkText_getD, chunkText_append, Folder.chunk]
      · have other : Slot.chunk j ≠ Slot.chunk i := fun e => same (Slot.chunk.inj e)
        simp only [Function.update_of_ne other, Folder.text, Change.apply,
          Function.update_of_ne same]
    | index | metadata | deletes => rfl
  | rewrite i records =>
    refine (congrArg (Files _ p) (funext fun s => ?_)).mp
      (h.write (.chunk i) (chunkText records))
    cases s with
    | chunk j =>
      by_cases same : j = i
      · subst same
        simp only [Function.update_self, Folder.text, Change.apply, Option.map_some]
      · have other : Slot.chunk j ≠ Slot.chunk i := fun e => same (Slot.chunk.inj e)
        simp only [Function.update_of_ne other, Folder.text, Change.apply,
          Function.update_of_ne same]
    | index | metadata | deletes => rfl

/-- A file effect of a checkpoint changes the folder the tree holds. -/
theorem represents_apply {t : Tree} {p : Path} {F : Folder} (h : Represents t p F) {c : Change}
    (hc : c.Readable) : Represents (Effect.apply t (c.effect p)) p (c.apply F) :=
  ⟨files_apply h.files c, readable_apply h.readable hc⟩

theorem represents_applyAll {t : Tree} {p : Path} {F : Folder} (h : Represents t p F)
    {changes : List Change} (hc : ∀ c ∈ changes, c.Readable) :
    Represents (applyAll t (changes.map (Change.effect p))) p (changes.foldl Change.apply F) := by
  induction changes generalizing t F with
  | nil => exact h
  | cons c rest ih =>
    have first := represents_apply h (hc c List.mem_cons_self)
    exact ih first fun d hd => hc d (List.mem_cons_of_mem c hd)

/-- The effects of a folder's changes reach only files of the folder. -/
theorem effect_target (p : Path) (c : Change) :
    ∃ s : Slot, (c.effect p).target = p ++ [s.name] := by
  cases c with
  | addRecords i records => exact ⟨.chunk i, rfl⟩
  | setIndex index size => exact ⟨.index, rfl⟩
  | setMetadata pairs => exact ⟨.metadata, rfl⟩
  | addDeletes pairs => exact ⟨.deletes, rfl⟩
  | rewrite i records => exact ⟨.chunk i, rfl⟩
  | dropDeletes => exact ⟨.deletes, rfl⟩

theorem represents_congr {t t' : Tree} {p : Path} {F : Folder} (h : Represents t p F)
    (same : ∀ q, p <+: q → t'.lookup q = t.lookup q) : Represents t' p F := by
  refine ⟨⟨?_, fun s => ?_⟩, h.readable⟩
  · rw [same p (List.prefix_refl p), h.files.dir]
  · rw [same _ (List.prefix_append p _), h.files.file]

/-! Reading a folder -/

/-- The path of a user's folder. -/
def userPath (port : Nat) (user : Str) : Path := home port ++ [user]

/-- The chunk that `init` opens on a folder. -/
def opened (port : Nat) (user : Str) (F : Folder) : Chunk :=
  ⟨(F.index.getD (0, 0)).1, (F.index.getD (0, 0)).2, user, PREFIX port ++ user, F.places, []⟩

theorem path_name {port : Nat} {user : Str} (plain : PlainName user) {c : Chunk}
    (folder : c.folder = PREFIX port ++ user) {name : Str} (hn : PlainName name) :
    c.path name = userPath port user ++ [name] := by
  rw [Chunk.path, folder, resolve_entry _ hn, resolve_PREFIX port plain]
  rfl

theorem path_slot {port : Nat} {user : Str} (plain : PlainName user) {c : Chunk}
    (folder : c.folder = PREFIX port ++ user) (s : Slot) :
    c.path s.name = userPath port user ++ [s.name] :=
  path_name plain folder (plainName_name s)

theorem readPairs_metadata {F : Folder} (readable : F.Readable) {pairs : List (Str × Nat)}
    (h : F.metadata = some pairs) : readPairs (split (pairLines pairs) '\n') = some pairs := by
  have keys := readable.metadata
  rw [h] at keys
  exact readPairs_pairLines keys

theorem loadChunk_chunk {F : Folder} (readable : F.Readable) {i : Nat}
    {records : List (Str × Str)} (h : F.chunks i = some records) :
    loadChunk (chunkText records) = some records := by
  have keys := readable.chunks i
  rw [Folder.chunk, h] at keys
  exact loadChunk_chunkText keys

theorem init_represented {t : Tree} {port : Nat} {user : Str} {F : Folder}
    (plain : PlainName user) (h : Represents t (userPath port user) F) :
    init t (PREFIX port) user = some (.finished, opened port user F) := by
  have folder : t.lookup (resolve (PREFIX port ++ user)) = some .dir := by
    rw [resolve_PREFIX port plain]
    exact h.files.dir
  have path := fun s : Slot =>
    path_slot (c := ⟨0, 0, user, PREFIX port ++ user, ∅, []⟩) plain rfl s
  have index : content t (Chunk.path ⟨0, 0, user, PREFIX port ++ user, ∅, []⟩
      "chunk_index".toList) = F.index.map fun c => indexText c.1 c.2 :=
    (congrArg (content t) (path .index)).trans (h.files.content .index)
  have metadata : content t (Chunk.path ⟨0, 0, user, PREFIX port ++ user, ∅, []⟩
      "chunk_metadata".toList) = F.metadata.map pairLines :=
    (congrArg (content t) (path .metadata)).trans (h.files.content .metadata)
  simp only [init, folder, reduceCtorEq, if_false, index, metadata, opened, Folder.places, mapOf]
  cases hi : F.index with
  | none =>
    cases hm : F.metadata with
    | none => rfl
    | some pairs =>
      simp only [Option.map_some, Option.map_none, readPairs_metadata h.readable hm,
        Option.bind_some, Option.getD_some, Option.getD_none]
  | some c =>
    cases hm : F.metadata with
    | none =>
      simp only [Option.map_some, Option.map_none, readIndex_indexText, Option.bind_some,
        Option.getD_some, Option.getD_none]
    | some pairs =>
      simp only [Option.map_some, readIndex_indexText, readPairs_metadata h.readable hm,
        Option.bind_some, Option.getD_some]

theorem getValue_represented {t : Tree} {port : Nat} {user : Str} {F : Folder} {c : Chunk}
    (plain : PlainName user) (h : Represents t (userPath port user) F)
    (folder : c.folder = PREFIX port ++ user) (metadata : c.metadata = F.places) (key : Str) :
    c.getValue t key = some (match F.value key with
      | some value => (.finished, value)
      | none => (.keyError, [])) := by
  rw [Chunk.getValue, metadata, Folder.value]
  cases hp : F.places.lookup key with
  | none => rfl
  | some i =>
    have text : content t (c.path (chunkName i)) = (F.chunks i).map chunkText :=
      (congrArg (content t) (path_slot plain folder (.chunk i))).trans (h.files.content (.chunk i))
    simp only [text, Option.bind_some]
    rw [Folder.records, ← findRecord_eq, Folder.chunk]
    cases hc : F.chunks i with
    | none => rfl
    | some records =>
      have loaded := loadChunk_chunk h.readable hc
      cases found : findRecord records key with
      | none => simp only [Option.map_some, loaded, Option.getD_some, found]
      | some value => simp only [Option.map_some, loaded, Option.getD_some, found]

theorem foldlM_some {α β : Type} {f : β → α → Option β} {g : β → α → β}
    (h : ∀ b a, f b a = some (g b a)) (l : List α) (b : β) :
    l.foldlM f b = some (l.foldl g b) := by
  induction l generalizing b with
  | nil => rfl
  | cons a l ih =>
    rw [List.foldlM_cons, h]
    exact ih (g b a)

theorem lookup_foldl_insert {V : Type} (value : Str → V) (keys : List Str) (m : UMap Str V)
    (key : Str) :
    (keys.foldl (fun m k => m.insert k (value k)) m).lookup key =
      if key ∈ keys then some (value key) else m.lookup key := by
  induction keys generalizing m with
  | nil => simp
  | cons k keys ih =>
    rw [List.foldl_cons, ih]
    by_cases later : key ∈ keys
    · simp [later]
    · by_cases first : key = k
      · subst first
        simp
      · simp [later, first, AList.lookup_insert_ne first]

/-- `get_all_kv` lists every key of the metadata, with the empty value where the chunk does
not have it. -/
theorem getAllKv_represented {t : Tree} {port : Nat} {user : Str} {F : Folder}
    (plain : PlainName user) (h : Represents t (userPath port user) F) :
    ∃ kvs, (opened port user F).getAllKv t = some kvs ∧
      ∀ key, kvs.lookup key = (F.places.lookup key).map fun _ => (F.value key).getD [] := by
  have step : ∀ (ret : KvMap) (e : Sigma fun _ : Str => Nat),
      (((opened port user F).getValue t e.1).map fun r => ret.insert e.1 r.2) =
        some (ret.insert e.1 ((F.value e.1).getD [])) := by
    intro ret e
    rw [getValue_represented plain h rfl rfl]
    cases F.value e.1 <;> rfl
  refine ⟨_, foldlM_some step _ _, fun key => ?_⟩
  have keys : (F.places.entries.foldl
      (fun (m : KvMap) e => m.insert e.1 ((F.value e.1).getD [])) ∅) =
      F.places.keys.foldl (fun m k => m.insert k ((F.value k).getD [])) ∅ := by
    rw [AList.keys, List.keys, List.foldl_map]
  refine (congrArg (AList.lookup key) keys).trans ?_
  rw [lookup_foldl_insert (fun k => (F.value k).getD [])]
  by_cases mem : key ∈ F.places.keys
  · obtain ⟨i, hi⟩ := Option.isSome_iff_exists.mp (AList.lookup_isSome.mpr mem)
    simp [mem, hi]
  · have absent : F.places.lookup key = none := AList.lookup_eq_none.mpr mem
    simp [mem, absent]

end ChunkFolder
