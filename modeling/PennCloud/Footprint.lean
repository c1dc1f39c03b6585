import Mathlib.Data.List.MinMax
import PennCloud.ChunkHistory

/-!
# The footprint of a checkpoint

A checkpoint of a user changes files in the user's folder, and what the shell
removes for the path of the delete list. Which users it leaves alone depends on
the names the front end admits.
-/

namespace Footprint

open Text FileTree KvInterface UnorderedMap ChunkFiles ChunkFolder ChunkOverlay Runs CacheSteps
  Login ChunkHistory

/-! What a checkpoint leaves behind, also when it throws -/

/-- Rewrite chunks until one cannot be loaded. -/
def rewriteAll (c : Chunk) (j : Journal) : List (Nat × UMap Str Nat) → Journal × Bool
  | [] => (j, true)
  | e :: es => match c.rewriteChunk j e with
    | some j' => rewriteAll c j' es
    | none => (j, false)

/-- The files after `lazy_delete` returned or threw. -/
def leftByDelete (it : Iteration Loop) (c : Chunk) (j : Journal) : Journal :=
  match content j.tree (c.path "delete_list".toList) with
  | none => j
  | some text =>
    match readPairs (split text '\n') with
    | none => j
    | some pairs =>
      let rewritten := rewriteAll c j (it.pairs (.delMap c.usr) (countDeletes pairs))
      if rewritten.2 then
        rewritten.1.performAll (removeFile (c.folder ++ "/delete_list".toList))
      else rewritten.1

/-- The files after `append_kvs` returned or threw. -/
def leftByAppend (it : Iteration Loop) (limit : Nat) (c : Chunk) (mp : KvMap) (j : Journal) :
    Journal :=
  let j := j.perform (.append (c.path (chunkName c.appendIndex)) [])
  let cj := (it.pairs (.kvMap c.usr) mp).foldl (Chunk.appendOne limit) (c, j)
  leftByDelete it cj.1 (cj.1.writeMetaBack it cj.2)

/-- The tree after a checkpoint of the user returned or threw. -/
def leftBehind (port : Nat) (t : Tree) (e : Str × Checkpoint) : Tree :=
  match init t (PREFIX port) e.1 with
  | none => t
  | some r => (leftByAppend e.2.it e.2.limit r.2 e.2.updates (Journal.start t)).tree

theorem rewriteAll_of_some {c : Chunk} {j j' : Journal} {es : List (Nat × UMap Str Nat)}
    (h : es.foldlM c.rewriteChunk j = some j') : rewriteAll c j es = (j', true) := by
  induction es generalizing j with
  | nil =>
    cases h
    rfl
  | cons e es ih =>
    rw [List.foldlM_cons] at h
    obtain ⟨next, first, rest⟩ := Option.bind_eq_some_iff.mp h
    rw [rewriteAll, first]
    exact ih rest

theorem leftByDelete_of_some {it : Iteration Loop} {c : Chunk} {j j' : Journal}
    (h : c.lazyDelete it j = some j') : leftByDelete it c j = j' := by
  unfold Chunk.lazyDelete at h
  unfold leftByDelete
  cases hc : content j.tree (c.path "delete_list".toList) with
  | none =>
    rw [hc] at h
    exact Option.some.inj h
  | some text =>
    rw [hc] at h
    obtain ⟨pairs, hp, rest⟩ := Option.bind_eq_some_iff.mp h
    obtain ⟨last, rewritten, rfl⟩ := Option.map_eq_some_iff.mp rest
    simp [hp, rewriteAll_of_some rewritten]

/-- A checkpoint that returns leaves what it returns. -/
theorem leftBehind_of_step {port : Nat} {user : Str} {t t' : Tree} {k : Checkpoint}
    (h : step port user t k = some t') : leftBehind port t (user, k) = t' := by
  obtain ⟨r, opens, rest⟩ := Option.bind_eq_some_iff.mp h
  obtain ⟨j, appended, rfl⟩ := Option.map_eq_some_iff.mp rest
  rw [leftBehind, opens]
  exact congrArg Journal.tree (leftByDelete_of_some appended)

/-! The effects of a checkpoint -/

/-- From one journal to the other there are only changes of files of the folder. -/
def InFolder (p : Path) (j j' : Journal) : Prop :=
  ∃ changes : List Change, j' = j.performAll (changes.map (Change.effect p))

section InFolder
variable {p : Path} {j k l : Journal}

theorem InFolder.refl (p : Path) (j : Journal) : InFolder p j j :=
  ⟨[], (Journal.performAll_nil j).symm⟩

theorem InFolder.trans (first : InFolder p j k) (second : InFolder p k l) : InFolder p j l := by
  obtain ⟨a, rfl⟩ := first
  obtain ⟨b, rfl⟩ := second
  exact ⟨a ++ b, by rw [Journal.performAll_append, List.map_append]⟩

theorem InFolder.perform (c : Change) {e : Effect} (same : e = c.effect p) :
    InFolder p j (j.perform e) :=
  ⟨[c], by rw [same]; rfl⟩

theorem path_resolve (c : Chunk) (s : Slot) : c.path s.name = resolve c.folder ++ [s.name] :=
  resolve_entry c.folder (plainName_name s)

theorem inFolder_appendOne (limit : Nat) (c : Chunk) (j : Journal) (e : Str × Str) :
    (Chunk.appendOne limit (c, j) e).1.folder = c.folder ∧
      InFolder (resolve c.folder) j (Chunk.appendOne limit (c, j) e).2 := by
  obtain ⟨key, value⟩ := e
  have record : appendKv key value = chunkText [(key, value)] := by simp [chunkText]
  obtain ⟨written, hw⟩ : ∃ written, written =
      j.perform (.append (c.path (chunkName c.appendIndex)) (appendKv key value)) := ⟨_, rfl⟩
  have write : InFolder (resolve c.folder) j written := by
    rw [hw, record]
    refine .perform (.addRecords c.appendIndex [(key, value)]) ?_
    exact congrArg (fun q => Effect.append q _) (path_resolve c (.chunk _))
  by_cases deleted : value = []
  · rw [Chunk.appendOne, if_pos deleted]
    exact ⟨rfl, .refl _ j⟩
  · by_cases full : limit < tellp written.tree (c.path (chunkName c.appendIndex))
    · have step : Chunk.appendOne limit (c, j) (key, value) =
          ({ placed c key with appendIndex := c.appendIndex + 1, currentSize := 0 },
            written.perform (.append (c.path (chunkName (c.appendIndex + 1))) [])) := by
        rw [hw] at full ⊢
        exact (if_neg deleted).trans (if_pos full)
      rw [step]
      refine ⟨rfl, write.trans (.perform (.addRecords (c.appendIndex + 1) []) ?_)⟩
      exact congrArg (fun q => Effect.append q []) (path_resolve c (.chunk _))
    · have step : Chunk.appendOne limit (c, j) (key, value) =
          ({ placed c key with
              currentSize := tellp written.tree (c.path (chunkName c.appendIndex)) },
            written) := by
        rw [hw] at full ⊢
        exact (if_neg deleted).trans (if_neg full)
      rw [step]
      exact ⟨rfl, write⟩

theorem inFolder_loop (limit : Nat) (kvs : List (Str × Str)) (c : Chunk) (j : Journal) :
    (kvs.foldl (Chunk.appendOne limit) (c, j)).1.folder = c.folder ∧
      InFolder (resolve c.folder) j (kvs.foldl (Chunk.appendOne limit) (c, j)).2 := by
  induction kvs generalizing c j with
  | nil => exact ⟨rfl, .refl _ j⟩
  | cons e kvs ih =>
    obtain ⟨folder, first⟩ := inFolder_appendOne limit c j e
    obtain ⟨folder', rest⟩ := ih (Chunk.appendOne limit (c, j) e).1 (Chunk.appendOne limit (c, j) e).2
    rw [folder] at folder' rest
    exact ⟨folder', first.trans rest⟩

theorem inFolder_writeMetaBack (it : Iteration Loop) (c : Chunk) (j : Journal) :
    InFolder (resolve c.folder) j (c.writeMetaBack it j) := by
  have index : c.path "chunk_index".toList = _ := path_resolve c .index
  have metadata : c.path "chunk_metadata".toList = _ := path_resolve c .metadata
  have deletes : c.path "delete_list".toList = _ := path_resolve c .deletes
  refine ⟨[.setIndex c.appendIndex c.currentSize,
    .setMetadata (it.pairs (.metadata c.usr) c.metadata), .addDeletes c.delList], ?_⟩
  rw [Chunk.writeMetaBack, index, metadata, deletes]
  rfl

theorem inFolder_rewriteChunk {c : Chunk} {e : Nat × UMap Str Nat}
    (h : c.rewriteChunk j e = some k) : InFolder (resolve c.folder) j k := by
  obtain ⟨records, -, rfl⟩ := Option.map_eq_some_iff.mp h
  refine .perform (.rewrite e.1 (dropCounted e.2 records)) ?_
  exact congrArg (fun q => Effect.write q _) (path_resolve c (.chunk _))

theorem inFolder_rewriteAll (c : Chunk) (j : Journal) (es : List (Nat × UMap Str Nat)) :
    InFolder (resolve c.folder) j (rewriteAll c j es).1 := by
  induction es generalizing j with
  | nil => exact .refl _ j
  | cons e es ih =>
    rw [rewriteAll]
    split
    · rename_i rewritten
      exact (inFolder_rewriteChunk rewritten).trans (ih _)
    · exact .refl _ j

end InFolder

theorem folder_init {t : Tree} {folder user : Str} {r : KvState × Chunk}
    (h : init t folder user = some r) : r.2.folder = folder ++ user := by
  simp only [init] at h
  split at h
  · cases h
    rfl
  · obtain ⟨counter, -, rest⟩ := Option.bind_eq_some_iff.mp h
    obtain ⟨entries, -, rfl⟩ := Option.map_eq_some_iff.mp rest
    rfl

theorem inFolder_leftByDelete (it : Iteration Loop) {port : Nat} {user : Str}
    (word : ∀ c ∈ user, c ∉ shellBreaks) {c : Chunk} (folder : c.folder = PREFIX port ++ user)
    (j : Journal) : InFolder (resolve (PREFIX port ++ user)) j (leftByDelete it c j) := by
  unfold leftByDelete
  split
  · exact .refl _ j
  · split
    · exact .refl _ j
    · rename_i pairs _
      have rewritten := inFolder_rewriteAll c j (it.pairs (.delMap c.usr) (countDeletes pairs))
      rw [folder] at rewritten
      simp only
      split
      · refine rewritten.trans ⟨[.dropDeletes], ?_⟩
        rw [folder, removeFile_listed word]
        rfl
      · exact rewritten

/-- A checkpoint of a user whose name no shell character breaks up. -/
theorem leftBehind_changes {port : Nat} {t : Tree} {user : Str}
    (word : ∀ c ∈ user, c ∉ shellBreaks) {r : KvState × Chunk}
    (opens : init t (PREFIX port) user = some r) (k : Checkpoint) :
    ∃ changes : List Change, leftBehind port t (user, k) =
      applyAll t ((Change.addRecords r.2.appendIndex [] :: changes).map
        (Change.effect (resolve (PREFIX port ++ user)))) := by
  have folder := folder_init opens
  have first : Effect.append (r.2.path (chunkName r.2.appendIndex)) [] =
      (Change.addRecords r.2.appendIndex []).effect (resolve (PREFIX port ++ user)) := by
    rw [← folder]
    exact congrArg (fun q => Effect.append q []) (path_resolve r.2 (.chunk _))
  obtain ⟨touched, ht⟩ : ∃ touched, touched = (Journal.start t).perform
      ((Change.addRecords r.2.appendIndex []).effect (resolve (PREFIX port ++ user))) := ⟨_, rfl⟩
  obtain ⟨same, loop⟩ :=
    inFolder_loop k.limit (k.it.pairs (.kvMap r.2.usr) k.updates) r.2 touched
  have index := inFolder_writeMetaBack k.it
    ((k.it.pairs (.kvMap r.2.usr) k.updates).foldl (Chunk.appendOne k.limit) (r.2, touched)).1
    ((k.it.pairs (.kvMap r.2.usr) k.updates).foldl (Chunk.appendOne k.limit) (r.2, touched)).2
  rw [same] at index
  have deleted := inFolder_leftByDelete k.it word (same.trans folder)
    (Chunk.writeMetaBack k.it
      ((k.it.pairs (.kvMap r.2.usr) k.updates).foldl (Chunk.appendOne k.limit) (r.2, touched)).1
      ((k.it.pairs (.kvMap r.2.usr) k.updates).foldl (Chunk.appendOne k.limit) (r.2, touched)).2)
  rw [folder] at loop index
  obtain ⟨changes, all⟩ := (loop.trans index).trans deleted
  refine ⟨changes, ?_⟩
  have unfolded : leftBehind port t (user, k) =
      (leftByAppend k.it k.limit r.2 k.updates (Journal.start t)).tree := by
    simp only [leftBehind, opens]
  rw [unfolded, leftByAppend, first, ← ht]
  refine (congrArg Journal.tree all).trans ?_
  rw [ht]
  rfl

/-! Other users -/

/-- The folder `PREFIX + usr`, also of a name that is not that of an entry. -/
def folderOf (port : Nat) (user : Str) : Path := resolve (PREFIX port ++ user)

/-- A path inside the user's folder, and neither the folder nor a file of another user. -/
def OwnPath (port : Nat) (users : List Str) (user : Str) (q : Path) : Prop :=
  folderOf port user <+: q ∧ q ≠ folderOf port user ∧
    ∀ other ∈ users, other ≠ user → ¬ folderOf port other <+: q

/-- What the checkpoint changes or removes is the user's own. -/
def OwnChanges (port : Nat) (users : List Str) (t : Tree) (e : Str × Checkpoint) : Prop :=
  ∀ q, (leftBehind port t e).lookup q ≠ t.lookup q → OwnPath port users e.1 q

/-- In every run of checkpoints each of them changes only what is the user's own. -/
def LeftAlone (users : List Str) : Prop :=
  ∀ port t es, (∀ user ∈ users, t.lookup (folderOf port user) = some .dir) →
    (∀ e ∈ es, e.1 ∈ users) →
    Along (fun t e => some (leftBehind port t e)) (OwnChanges port users) t es

/-- The names that stand for the folder they are looked up in, or for the one above it. -/
def dots : List Str := [[], ".".toList, "..".toList]

theorem plainName_of_valid {user : Str} (valid : validUsername user = true) (dot : user ∉ dots) :
    PlainName user where
  nonempty h := dot (by simp [h, dots])
  notDot h := dot (by simp [h, dots])
  notDotDot h := dot (by simp [h, dots])
  noSlash h := absurd (validUserchar_of_mem valid h) (by decide)

/-- Of the characters that break words two pass the gate. -/
theorem ends_of_valid {c : Char} (valid : validUserchar c = true) (breaks : c ∈ shellBreaks) :
    c = ';' ∨ c = '|' := by
  simp only [shellBreaks, List.mem_cons, List.not_mem_nil, or_false] at breaks
  rcases breaks with rfl | rfl | rfl | rfl | rfl
  · exact absurd valid (by decide)
  · exact absurd valid (by decide)
  · exact .inl rfl
  · exact .inr rfl
  · exact absurd valid (by decide)

theorem word_of_valid {user : Str} (valid : validUsername user = true) (semicolon : ';' ∉ user)
    (bar : '|' ∉ user) : ∀ c ∈ user, c ∉ shellBreaks := by
  intro c hc breaks
  rcases ends_of_valid (validUserchar_of_mem valid hc) breaks with rfl | rfl
  · exact semicolon hc
  · exact bar hc

/-- A name up to the character that ends the command. -/
theorem exists_cut {user : Str} (valid : validUsername user = true)
    (breaks : ';' ∈ user ∨ '|' ∈ user) : ∃ name b rest, user = name ++ b :: rest ∧
      (∀ c ∈ name, c ∉ shellBreaks) ∧ (b = ';' ∨ b = '|') := by
  induction user with
  | nil => simp at breaks
  | cons a user ih =>
    have char : validUserchar a = true := validUserchar_of_mem valid List.mem_cons_self
    by_cases ends : a ∈ shellBreaks
    · exact ⟨[], a, user, rfl, fun c hc => absurd hc List.not_mem_nil, ends_of_valid char ends⟩
    · have inside : ∀ b ∈ shellBreaks, b ∈ a :: user → b ∈ user := by
        intro b hb mem
        rcases List.mem_cons.mp mem with rfl | later
        · exact absurd hb ends
        · exact later
      have later : validUsername user = true :=
        List.all_eq_true.mpr fun c hc => validUserchar_of_mem valid (List.mem_cons_of_mem a hc)
      obtain ⟨name, b, rest, rfl, word, hb⟩ := ih later
        (breaks.imp (inside ';' (by decide)) (inside '|' (by decide)))
      refine ⟨a :: name, b, rest, rfl, fun c hc => ?_, hb⟩
      rcases List.mem_cons.mp hc with rfl | mem
      · exact ends
      · exact word c mem

theorem folderOf_plain (port : Nat) {user : Str} (plain : PlainName user) :
    folderOf port user = userPath port user := resolve_PREFIX port plain

/-- A checkpoint changes only files inside its folder. -/
theorem inside_of_changed {port : Nat} {t : Tree} {user : Str} {k : Checkpoint} {q : Path}
    (word : ∀ c ∈ user, c ∉ shellBreaks)
    (changed : (leftBehind port t (user, k)).lookup q ≠ t.lookup q) :
    ∃ s : Slot, folderOf port user ++ [s.name] <+: q := by
  cases opens : init t (PREFIX port) user with
  | none => exact absurd (by simp only [leftBehind, opens]) changed
  | some r =>
    obtain ⟨changes, all⟩ := leftBehind_changes word opens k
    by_contra outside
    refine changed ?_
    rw [all]
    refine applyAll_outside t _ fun e he below => outside ?_
    obtain ⟨c, -, rfl⟩ := List.mem_map.mp he
    obtain ⟨s, target⟩ := effect_target (resolve (PREFIX port ++ user)) c
    exact ⟨s, target ▸ below⟩

theorem ownChanges_of_word {port : Nat} {users : List Str}
    (apart : ∀ user ∈ users, ∀ other ∈ users, other ≠ user →
      PlainName user ∧ PlainName other) {t : Tree} {e : Str × Checkpoint}
    (mem : e.1 ∈ users) (word : ∀ c ∈ e.1, c ∉ shellBreaks) : OwnChanges port users t e := by
  obtain ⟨user, k⟩ := e
  intro q changed
  obtain ⟨s, below⟩ := inside_of_changed word changed
  refine ⟨(List.prefix_append _ _).trans below, ?_, fun other hother different above => ?_⟩
  · rintro rfl
    exact child_not_above _ _ below
  · obtain ⟨plain, plain'⟩ := apart user mem other hother different
    rw [folderOf_plain port plain'] at above
    rw [folderOf_plain port plain] at below
    have nested : userPath port user <+: q := (List.prefix_append _ _).trans below
    have same := List.prefix_of_prefix_length_le above nested (by simp [userPath])
    exact different (child_above.mp same).symm

theorem leftAlone_of_word {users : List Str}
    (apart : ∀ user ∈ users, ∀ other ∈ users, other ≠ user →
      PlainName user ∧ PlainName other)
    (words : ∀ user ∈ users, ∀ c ∈ user, c ∉ shellBreaks) : LeftAlone users := by
  rintro port t es - mem
  induction es generalizing t with
  | nil => trivial
  | cons e es ih =>
    have own := mem e List.mem_cons_self
    refine ⟨ownChanges_of_word apart own (words e.1 own), fun t' _ => ?_⟩
    exact ih t' fun d hd => mem d (List.mem_cons_of_mem e hd)

/-! A tree of folders -/

def folders (paths : List Path) : Tree := paths.foldl (fun t p => t.insert p .dir) ∅

theorem lookup_foldl_dir (paths : List Path) (t : Tree) (q : Path) :
    (paths.foldl (fun t p => t.insert p .dir) t).lookup q =
      if q ∈ paths then some .dir else t.lookup q := by
  induction paths generalizing t with
  | nil => simp
  | cons p paths ih =>
    rw [List.foldl_cons, ih]
    by_cases later : q ∈ paths
    · simp [later]
    · by_cases same : q = p
      · subst same
        simp
      · simp [later, same, AList.lookup_insert_ne same]

theorem lookup_folders (paths : List Path) (q : Path) :
    (folders paths).lookup q = if q ∈ paths then some .dir else none :=
  lookup_foldl_dir paths ∅ q

theorem content_folders (paths : List Path) (q : Path) : content (folders paths) q = none := by
  rw [content, lookup_folders]
  split_ifs <;> rfl

theorem folderOf_noSlash (port : Nat) {name : Str} (noSlash : '/' ∉ name) :
    folderOf port name = enter (home port) name := by
  rw [folderOf, PREFIX_append, resolve, resolveFrom_slash, resolveFrom_noSlash _ _ noSlash,
    ← resolve, resolve_home, List.nil_append]

theorem enter_notDots (port : Nat) {name : Str} (dot : name ∉ dots) :
    enter (home port) name = home port ++ [name] := by
  simp only [dots, List.mem_cons, List.not_mem_nil, or_false, not_or] at dot
  rw [enter, if_neg (by simp only [dot, or_self, not_false_eq_true]), if_neg dot.2.2]

theorem folderOf_dots (port : Nat) {name : Str} (dot : name ∈ dots) :
    folderOf port name <+: home port := by
  have noSlash : '/' ∉ name := by
    have all : ∀ name ∈ dots, '/' ∉ name := by decide +kernel
    exact all name dot
  rw [folderOf_noSlash port noSlash, enter]
  split
  · exact List.prefix_refl _
  · rename_i notHere
    split
    · exact List.dropLast_prefix _
    · simp_all [dots]

theorem length_folderOf (port : Nat) (name : Str) (noSlash : '/' ∉ name) :
    (folderOf port name).length ≤ (home port).length + 1 := by
  rw [folderOf_noSlash port noSlash, enter]
  split_ifs <;> simp
  omega

/-! Names that the shell breaks up -/

theorem removeFile_cut {path rest : Str} {b : Char} (absolute : path.head? = some '/')
    (word : ∀ c ∈ path, c ∉ shellBreaks) (ends : b = ';' ∨ b = '|') :
    removeFile (path ++ b :: rest) = [.remove (resolve path)] := by
  have whole : ∀ c ∈ "rm -rf ".toList ++ path,
      decide (c ≠ ';' ∧ c ≠ '|' ∧ c ≠ '\n') = true := by
    intro c hc
    have start : ∀ c ∈ "rm -rf ".toList, decide (c ≠ ';' ∧ c ≠ '|' ∧ c ≠ '\n') = true := by
      decide +kernel
    rcases List.mem_append.mp hc with first | later
    · exact start c first
    · have apart := word c later
      simp only [shellBreaks, List.mem_cons, List.not_mem_nil, or_false, not_or] at apart
      simp [apart]
  have cut : shellWords ("rm -rf ".toList ++ (path ++ b :: rest)) =
      shellWords ("rm -rf ".toList ++ path) := by
    have stop : decide (b ≠ ';' ∧ b ≠ '|' ∧ b ≠ '\n') = false := by
      rcases ends with rfl | rfl <;> decide
    rw [shellWords, shellWords, ← List.append_assoc, List.takeWhile_append_of_pos whole,
      List.takeWhile_cons_of_neg (by simpa using stop), List.append_nil,
      List.takeWhile_eq_self_iff.mpr whole]
  have same : removeFile (path ++ b :: rest) = removeFile path := by
    rw [removeFile, removeFile, cut]
  rw [same, removeFile_word absolute word]

/-- A checkpoint without updates. -/
def idle : Checkpoint := ⟨Iteration.stored Loop, SIZE_LIMIT, ∅⟩

theorem emptyFolder_folders {users : List Str} (valid : ∀ user ∈ users, validUsername user = true)
    {user : Str} (plain : PlainName user) (mem : user ∈ users) (extra : Path)
    (short : extra.length ≤ (home 0).length + 1) :
    EmptyFolder (folders (extra :: users.map (folderOf 0))) 0 user := by
  refine ⟨?_, fun q nonempty => ?_⟩
  · rw [← folderOf_plain 0 plain, lookup_folders, if_pos]
    exact List.mem_cons_of_mem _ (List.mem_map_of_mem mem)
  · rw [lookup_folders, if_neg]
    have longer : (home 0).length + 1 < (userPath 0 user ++ q).length := by
      have some := List.length_pos_iff.mpr nonempty
      simp only [userPath, List.length_append, List.length_singleton]
      omega
    intro present
    rcases List.mem_cons.mp present with same | listed
    · rw [same] at longer
      omega
    · obtain ⟨other, hother, same⟩ := List.mem_map.mp listed
      have few := length_folderOf 0 other fun slash =>
        absurd (validUserchar_of_mem (valid other hother) slash) (by decide)
      rw [same] at few
      omega

/-- Of a user with a semicolon or a bar in the name, more than the own files is removed. -/
theorem not_leftAlone_of_break {users : List Str}
    (valid : ∀ user ∈ users, validUsername user = true) {user : Str} (mem : user ∈ users)
    (breaks : ';' ∈ user ∨ '|' ∈ user) : ¬ LeftAlone users := by
  intro alone
  have dot : user ∉ dots := by
    intro dot
    have none : ∀ name ∈ dots, ';' ∉ name ∧ '|' ∉ name := by decide +kernel
    rcases breaks with h | h
    · exact (none user dot).1 h
    · exact (none user dot).2 h
  have plain := plainName_of_valid (valid user mem) dot
  obtain ⟨name, b, rest, spelled, word, ends⟩ := exists_cut (valid user mem) breaks
  have noSlash : '/' ∉ name := fun h => plain.noSlash (by rw [spelled]; exact List.mem_append_left _ h)
  have short := length_folderOf 0 _ noSlash
  have empty := emptyFolder_folders valid plain mem (folderOf 0 name) short
  obtain ⟨c, fill, -, stepped, -⟩ := step_removal plain (represents_empty empty) idle
    fun key present => absurd rfl present
  obtain ⟨absolute, whole⟩ := word_PREFIX 0 _ word
  have removed : removeFile (PREFIX 0 ++ user ++ "/delete_list".toList) =
      [.remove (folderOf 0 name)] := by
    have path : PREFIX 0 ++ user ++ "/delete_list".toList =
        (PREFIX 0 ++ name) ++ b :: (rest ++ "/delete_list".toList) := by rw [spelled]; simp
    rw [path, removeFile_cut absolute whole ends]
    rfl
  rw [removed] at stepped
  have own := (alone 0 (folders (folderOf 0 name :: users.map (folderOf 0))) [(user, idle)]
    (fun other hother => ?_) (by simpa using mem)).1 (folderOf 0 name) ?_
  · obtain ⟨below, different, -⟩ := own
    rw [folderOf_plain 0 plain] at below different
    exact different (below.eq_of_length_le (by simpa [userPath] using short)).symm
  · rw [lookup_folders, if_pos]
    exact List.mem_cons_of_mem _ (List.mem_map_of_mem hother)
  · rw [leftBehind_of_step stepped, lookup_folders, if_pos List.mem_cons_self]
    have gone := lookup_removeAll (applyAll (folders (folderOf 0 name :: users.map (folderOf 0)))
      ((changesBefore idle.it Folder.empty (Folder.empty.index.getD (0, 0)).1 c fill).map
        (Change.effect (userPath 0 user)))) (folderOf 0 name) (folderOf 0 name)
    rw [if_pos (List.prefix_refl _)] at gone
    intro kept
    cases gone.symm.trans kept

/-! Folders one of which is above the other -/

/-- What is in a file stays when other files are changed or removed. -/
theorem present_applyAll (es : List Effect) {p : Path} {t : Tree}
    (kept : ∀ q, Effect.remove q ∈ es → ¬ q <+: p) (present : t.lookup p ≠ none) :
    (applyAll t es).lookup p ≠ none := by
  induction es generalizing t with
  | nil => exact present
  | cons e es ih =>
    refine ih (fun q hq => kept q (List.mem_cons_of_mem e hq)) ?_
    cases e with
    | write q s =>
      simp only [Effect.apply]
      split
      · by_cases same : p = q
        · simp [same]
        · rwa [AList.lookup_insert_ne same]
      · exact present
    | append q s =>
      simp only [Effect.apply]
      split
      · by_cases same : p = q
        · simp [same]
        · rwa [AList.lookup_insert_ne same]
      · exact present
    | remove q =>
      have outside := kept q List.mem_cons_self
      rw [Effect.apply, lookup_removeAll, if_neg outside]
      exact present
    | makeDir q =>
      simp only [Effect.apply]
      split
      · by_cases same : p = q
        · simp [same]
        · rwa [AList.lookup_insert_ne same]
      · exact present

theorem not_leftAlone_of_nested {users : List Str} {inner outer : Str} (hinner : inner ∈ users)
    (houter : outer ∈ users) (different : outer ≠ inner) (word : ∀ c ∈ inner, c ∉ shellBreaks)
    (nested : folderOf 0 outer <+: folderOf 0 inner)
    (deepest : ∀ user ∈ users, (folderOf 0 user).length ≤ (folderOf 0 inner).length) :
    ¬ LeftAlone users := by
  intro alone
  obtain ⟨t, ht⟩ : ∃ t, t = folders (users.map (folderOf 0)) := ⟨_, rfl⟩
  have dir : ∀ user ∈ users, t.lookup (folderOf 0 user) = some .dir := by
    intro user mem
    rw [ht, lookup_folders, if_pos (List.mem_map_of_mem mem)]
  have opens : init t (PREFIX 0) inner =
      some (.finished, ⟨0, 0, inner, PREFIX 0 ++ inner, ∅, []⟩) := by
    have present := dir inner hinner
    rw [folderOf] at present
    have none := fun q => ht ▸ content_folders (users.map (folderOf 0)) q
    simp only [init, present, none, reduceCtorEq, if_false]
    rfl
  obtain ⟨changes, all⟩ := leftBehind_changes word opens idle
  obtain ⟨q, hq⟩ : ∃ q, q = folderOf 0 inner ++ [(Slot.chunk 0).name] := ⟨_, rfl⟩
  have absent : t.lookup q = none := by
    rw [ht, lookup_folders, if_neg]
    intro listed
    obtain ⟨user, mem, same⟩ := List.mem_map.mp listed
    have length := deepest user mem
    rw [same, hq, List.length_append, List.length_singleton] at length
    omega
  have changed : (leftBehind 0 t (inner, idle)).lookup q ≠ t.lookup q := by
    rw [all, absent, List.map_cons]
    have parent : t.lookup q.dropLast = some .dir := by
      rw [hq, List.dropLast_concat, dir inner hinner]
    have opened : writable t q = true := by simp [writable, parent, absent]
    refine present_applyAll (changes.map _) (fun p hp above => ?_) ?_
    · obtain ⟨c, -, removes⟩ := List.mem_map.mp hp
      cases c with
      | dropDeletes =>
        cases removes
        rw [hq] at above
        have same := name_injective (child_above.mp above)
        cases same
      | addRecords i records => cases removes
      | setIndex index size => cases removes
      | setMetadata pairs => cases removes
      | addDeletes pairs => cases removes
      | rewrite i records => cases removes
    · have first : (Change.addRecords 0 []).effect (resolve (PREFIX 0 ++ inner)) = .append q [] := by
        rw [hq]
        rfl
      rw [first, apply_append [] opened, AList.lookup_insert]
      simp
  have own := (alone 0 t [(inner, idle)] dir (by simpa using hinner)).1 q changed
  exact own.2.2 outer houter different (hq ▸ nested.trans (List.prefix_append _ _))

theorem exists_deepest {users : List Str} (nonempty : users ≠ []) : ∃ inner ∈ users,
    ∀ user ∈ users, (folderOf 0 user).length ≤ (folderOf 0 inner).length := by
  cases longest : users.argmax fun user => (folderOf 0 user).length with
  | none => exact absurd (List.argmax_eq_none.mp longest) nonempty
  | some inner =>
    exact ⟨inner, List.argmax_mem longest, fun user mem => List.le_of_mem_argmax (f := fun user => (folderOf 0 user).length) mem longest⟩

theorem nested_of_above {outer inner : Str} (above : folderOf 0 outer <+: home 0)
    (noSlash : '/' ∉ inner) (length : (folderOf 0 outer).length ≤ (folderOf 0 inner).length) :
    folderOf 0 outer <+: folderOf 0 inner := by
  by_cases dot : inner ∈ dots
  · exact List.prefix_of_prefix_length_le above (folderOf_dots 0 dot) length
  · have below : home 0 <+: folderOf 0 inner := by
      rw [folderOf_noSlash 0 noSlash, enter_notDots 0 dot]
      exact List.prefix_append _ _
    exact above.trans below

/-- Where one of two users has a name of dots, one of the folders is above the other. -/
theorem not_leftAlone_of_dots {users : List Str}
    (valid : ∀ user ∈ users, validUsername user = true)
    (words : ∀ user ∈ users, ∀ c ∈ user, c ∉ shellBreaks) {user other : Str}
    (mem : user ∈ users) (mem' : other ∈ users) (different : other ≠ user) (dot : user ∈ dots) :
    ¬ LeftAlone users := by
  have noSlash : ∀ name ∈ users, '/' ∉ name := fun name hname slash =>
    absurd (validUserchar_of_mem (valid name hname) slash) (by decide)
  have above := folderOf_dots 0 dot
  obtain ⟨inner, hinner, deepest⟩ := exists_deepest (List.ne_nil_of_mem mem)
  by_cases same : user = inner
  · subst same
    have above' : folderOf 0 other <+: home 0 := by
      by_contra below
      have notDot : other ∉ dots := fun dot' => below (folderOf_dots 0 dot')
      have longer := deepest other mem'
      rw [folderOf_noSlash 0 (noSlash other mem'), enter_notDots 0 notDot] at longer
      have shorter := above.length_le
      rw [List.length_append, List.length_singleton] at longer
      omega
    exact not_leftAlone_of_nested hinner mem' different (words _ hinner)
      (nested_of_above above' (noSlash _ hinner) (deepest other mem')) deepest
  · exact not_leftAlone_of_nested hinner mem same (words _ hinner)
      (nested_of_above above (noSlash _ hinner) (deepest user mem)) deepest

/-- Checkpoints of users who could sign up leave the other users alone exactly when no name has
a semicolon or a bar, and a name of dots is that of the only user. -/
theorem leftAlone_iff (users : List Str) (valid : ∀ user ∈ users, validUsername user = true) :
    LeftAlone users ↔ (∀ user ∈ users, ';' ∉ user ∧ '|' ∉ user) ∧
      ∀ user ∈ users, ∀ other ∈ users, other ≠ user → user ∉ dots := by
  constructor
  · intro alone
    have semicolon : ∀ user ∈ users, ';' ∉ user ∧ '|' ∉ user := by
      intro user mem
      constructor
      · exact fun h => not_leftAlone_of_break valid mem (.inl h) alone
      · exact fun h => not_leftAlone_of_break valid mem (.inr h) alone
    have words : ∀ user ∈ users, ∀ c ∈ user, c ∉ shellBreaks := fun user mem =>
      word_of_valid (valid user mem) (semicolon user mem).1 (semicolon user mem).2
    exact ⟨semicolon, fun user mem other mem' different dot =>
      not_leftAlone_of_dots valid words mem mem' different dot alone⟩
  · rintro ⟨semicolon, single⟩
    refine leftAlone_of_word (fun user mem other mem' different => ?_) fun user mem =>
      word_of_valid (valid user mem) (semicolon user mem).1 (semicolon user mem).2
    exact ⟨plainName_of_valid (valid user mem) (single user mem other mem' different),
      plainName_of_valid (valid other mem') (single other mem' user mem different.symm)⟩

theorem leftAlone_two : LeftAlone [bob, "alice".toList] :=
  (leftAlone_iff _ (by decide +kernel)).mpr (by decide +kernel)

/-- Two users who could sign up; the checkpoint of one removes the folder of the other. -/
theorem removed_other : validUsername twoWords = true ∧ validUsername "a".toList = true ∧
    (nodeAt 7000 [twoWords, "a".toList]).fs.lookup (folderOf 7000 "a".toList) = some .dir ∧
    (nodeAt 7000 [twoWords, "a".toList]).fs.lookup (folderOf 7000 twoWords) = some .dir ∧
    ((step 7000 twoWords (nodeAt 7000 [twoWords, "a".toList]).fs (single pwd)).map fun t =>
      t.lookup (folderOf 7000 "a".toList)) = some none := by
  decide +kernel

end Footprint
