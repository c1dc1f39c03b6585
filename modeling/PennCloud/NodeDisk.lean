import PennCloud.CacheSteps
import PennCloud.ChunkOverlay

/-!
# The disk of a node

Below the storage folder stand the log and one folder for each user who signed
up. A checkpoint changes the folders one user after the other, and a crash
leaves each folder in the middle of its own changes at worst.
-/

namespace NodeDisk

open Text FileTree KvInterface UnorderedMap ChunkFiles KvCache LogReplay CacheSteps ChunkFormat
  ChunkFolder ChunkOverlay

abbrev Folders := Str → Option Folder

def logName : Str := "logging".toList

/-- The tree holds these folders below the storage folder of the port. -/
structure Disk (t : Tree) (port : Nat) (S : Folders) : Prop where
  closed : Closed t
  homeDir : t.lookup (home port) = some .dir
  folder : ∀ user F, UserName user → S user = some F → Represents t (userPath port user) F
  noFolder : ∀ user, UserName user → S user = none → t.lookup (userPath port user) ≠ some .dir
  log : t.lookup (userPath port logName) ≠ some .dir

theorem userPath_log (port : Nat) : userPath port logName = resolve (kLogFp port) :=
  (resolve_kLogFp port).symm

theorem userName_log : UserName logName :=
  ⟨plainName_logging, by decide +kernel, by decide +kernel⟩

/-- The folders of two users have nothing in common. -/
theorem userPath_apart {port : Nat} {a b : Str} {q : Path} (ha : userPath port a <+: q)
    (hb : userPath port b <+: q) : a = b := by
  obtain ⟨s, hs⟩ := ha
  obtain ⟨r, hr⟩ := hb
  have same : home port ++ ([a] ++ s) = home port ++ ([b] ++ r) := by
    rw [← List.append_assoc, ← List.append_assoc]
    exact hs.trans hr.symm
  exact (List.cons.inj (List.append_cancel_left same)).1

theorem below_home (port : Nat) (user : Str) : ¬ userPath port user <+: home port := by
  intro h
  have length := h.length_le
  simp only [userPath, List.length_append, List.length_singleton] at length
  omega

section Tree
variable {t : Tree} {port : Nat} {S : Folders}

theorem Disk.logOpens (d : Disk t port S) : writable t (resolve (kLogFp port)) = true := by
  have parent : t.lookup (userPath port logName).dropLast = some .dir := by
    rw [userPath, List.dropLast_concat]
    exact d.homeDir
  rw [← userPath_log, writable, decide_eq_true parent, decide_eq_true d.log]
  rfl

theorem Disk.noLogFolder (d : Disk t port S) : S logName = none := by
  cases h : S logName with
  | none => rfl
  | some F => exact absurd (d.folder logName F userName_log h).files.dir d.log

/-- A tree that agrees outside the folder of one user holds the other folders. -/
theorem Disk.replace (d : Disk t port S) {t' : Tree} (closed : Closed t') {user : Str}
    (notLog : user ≠ logName) (outside : ∀ q, ¬ userPath port user <+: q → t'.lookup q = t.lookup q)
    {F : Option Folder}
    (new : UserName user → match F with
      | some F => Represents t' (userPath port user) F
      | none => t'.lookup (userPath port user) ≠ some .dir) :
    Disk t' port (Function.update S user F) := by
  have apart : ∀ {other : Str} {q : Path}, other ≠ user → userPath port other <+: q →
      t'.lookup q = t.lookup q := by
    intro other q ne below
    exact outside q fun own => ne (userPath_apart below own)
  refine ⟨closed, ?_, fun other G name h => ?_, fun other name h => ?_, ?_⟩
  · rw [outside _ (below_home port user), d.homeDir]
  · by_cases same : other = user
    · subst same
      rw [Function.update_self] at h
      subst h
      exact new name
    · rw [Function.update_of_ne same] at h
      exact represents_congr (d.folder other G name h) fun q => apart same
  · by_cases same : other = user
    · subst same
      rw [Function.update_self] at h
      subst h
      exact new name
    · rw [Function.update_of_ne same] at h
      rw [apart same (List.prefix_refl _)]
      exact d.noFolder other name h
  · rw [apart notLog.symm (List.prefix_refl _)]
    exact d.log

/-- A log write leaves the folders alone. -/
theorem Disk.logWrite (d : Disk t port S) {e : Effect}
    (write : ∃ text, e = .write (resolve (kLogFp port)) text ∨
      e = .append (resolve (kLogFp port)) text) : Disk (e.apply t) port S := by
  have file : ∃ text, e.apply t = t.insert (resolve (kLogFp port)) (.file text) := by
    obtain ⟨text, rfl | rfl⟩ := write
    · exact ⟨_, apply_write text d.logOpens⟩
    · exact ⟨_, apply_append text d.logOpens⟩
  have closed := closed_apply d.closed e
  obtain ⟨text, ht⟩ := file
  rw [ht, ← userPath_log] at closed ⊢
  have outside : ∀ q, q ≠ userPath port logName →
      (t.insert (userPath port logName) (.file text)).lookup q = t.lookup q :=
    fun q ne => AList.lookup_insert_ne ne
  have apart : ∀ {user q}, user ≠ logName → userPath port user <+: q →
      q ≠ userPath port logName := by
    rintro user q ne below rfl
    exact ne (userPath_apart below (List.prefix_refl _))
  have users : ∀ user F, S user = some F → user ≠ logName := by
    rintro user F h rfl
    rw [d.noLogFolder] at h
    cases h
  refine ⟨closed, ?_, fun user F name h => ?_, fun user name h => ?_, ?_⟩
  · have other : home port ≠ userPath port logName := child_ne _ _
    rw [outside _ other, d.homeDir]
  · exact represents_congr (d.folder user F name h) fun q below =>
      outside q (apart (users user F h) below)
  · by_cases same : user = logName
    · subst same
      rw [AList.lookup_insert]
      simp
    · rw [outside _ (apart same (List.prefix_refl _))]
      exact d.noFolder user name h
  · rw [AList.lookup_insert]
    simp

/-- A log that is truncated and headed again holds the header. -/
theorem Disk.newLog (d : Disk t port S) (header : Str) :
    Disk (applyAll t [.write (resolve (kLogFp port)) [],
        .append (resolve (kLogFp port)) header]) port S ∧
      content (applyAll t [.write (resolve (kLogFp port)) [],
        .append (resolve (kLogFp port)) header]) (resolve (kLogFp port)) = some header := by
  have truncated := d.logWrite (e := .write (resolve (kLogFp port)) []) ⟨[], .inl rfl⟩
  refine ⟨truncated.logWrite ⟨header, .inr rfl⟩, ?_⟩
  refine (content_append_self header truncated.logOpens).trans ?_
  rw [content_write_self [] d.logOpens]
  rfl

/-- Signing up a user makes an empty folder. -/
theorem Disk.makeDir (d : Disk t port S) {user : Str}
    (absent : t.lookup (userPath port user) = none) (notLog : user ≠ logName) :
    Disk (Effect.apply t (.makeDir (userPath port user))) port
      (Function.update S user (some Folder.empty)) := by
  have parent : t.lookup (userPath port user).dropLast = some .dir := by
    rw [userPath, List.dropLast_concat]
    exact d.homeDir
  have made : Effect.apply t (.makeDir (userPath port user)) =
      t.insert (userPath port user) .dir := if_pos ⟨absent, parent⟩
  have closed := closed_apply d.closed (.makeDir (userPath port user))
  have outside : ∀ q, ¬ userPath port user <+: q →
      (Effect.apply t (.makeDir (userPath port user))).lookup q = t.lookup q :=
    fun q h => apply_outside t _ h
  refine d.replace closed notLog outside fun _ => ⟨⟨?_, fun s => ?_⟩, ?_⟩
  · rw [made, AList.lookup_insert]
  · have below := lookup_below d.closed (by rw [absent]; simp) s.name
    rw [made, AList.lookup_insert_ne (child_ne _ _).symm, below]
    cases s <;> rfl
  · exact ⟨by simp [Folder.empty], by simp [Folder.empty], by simp [Folder.empty, Folder.chunk]⟩

end Tree

/-! A user without a folder -/

/-- A write to a file of the user's folder. -/
def IntoFolder (port : Nat) (user : Str) (e : Effect) : Prop :=
  ∃ s text, e = .write (userPath port user ++ [Slot.name s]) text ∨
    e = .append (userPath port user ++ [Slot.name s]) text

theorem apply_intoFolder {t : Tree} {port : Nat} {user : Str}
    (closed : t.lookup (userPath port user) ≠ some .dir) {e : Effect}
    (h : IntoFolder port user e) : e.apply t = t := by
  obtain ⟨s, text, same⟩ := h
  have parent : t.lookup (userPath port user ++ [s.name]).dropLast ≠ some .dir := by
    rw [List.dropLast_concat]
    exact closed
  rcases same with rfl | rfl
  · exact (apply_unwritable text parent).1
  · exact (apply_unwritable text parent).2

theorem applyAll_intoFolder {t : Tree} {port : Nat} {user : Str}
    (closed : t.lookup (userPath port user) ≠ some .dir) {es : List Effect}
    (h : ∀ e ∈ es, IntoFolder port user e) : applyAll t es = t := by
  induction es with
  | nil => rfl
  | cons e es ih =>
    have first : e.apply t = t := apply_intoFolder closed (h e List.mem_cons_self)
    refine Eq.trans ?_ (ih fun d hd => h d (List.mem_cons_of_mem e hd))
    exact congrArg (fun t => applyAll t es) first

theorem loop_intoFolder {port : Nat} {user : Str} (plain : PlainName user) (limit : Nat)
    (kvs : List (Str × Str)) (c : Chunk) (j : Journal) (folder : c.folder = PREFIX port ++ user) :
    ∃ c' es, c'.folder = c.folder ∧ (∀ e ∈ es, IntoFolder port user e) ∧
      kvs.foldl (Chunk.appendOne limit) (c, j) = (c', j.performAll es) := by
  obtain ⟨c', changes, fills, sameFolder, -, loop⟩ := fills_of_loop plain limit kvs c j folder
  refine ⟨c', _, sameFolder, fun e he => ?_, loop⟩
  obtain ⟨d, hd, rfl⟩ := List.mem_map.mp he
  obtain ⟨i, records, rfl, -⟩ := fills_changes fills d hd
  exact ⟨.chunk i, _, .inr rfl⟩

theorem init_noFolder {t : Tree} (closed : Closed t) {port : Nat} {user : Str}
    (plain : PlainName user) (h : t.lookup (userPath port user) ≠ some .dir) :
    ∃ status, init t (PREFIX port) user =
      some (status, ⟨0, 0, user, PREFIX port ++ user, ∅, []⟩) := by
  have file : ∀ s : Slot, content t (Chunk.path ⟨0, 0, user, PREFIX port ++ user, ∅, []⟩ s.name) =
      none := by
    intro s
    rw [path_slot plain rfl s, content, lookup_below closed h]
  have index : content t (Chunk.path ⟨0, 0, user, PREFIX port ++ user, ∅, []⟩
      "chunk_index".toList) = none := file .index
  have metadata : content t (Chunk.path ⟨0, 0, user, PREFIX port ++ user, ∅, []⟩
      "chunk_metadata".toList) = none := file .metadata
  simp only [init, index, metadata]
  split
  · exact ⟨.userError, rfl⟩
  · exact ⟨.finished, rfl⟩

/-- A checkpoint of a user without a folder writes nothing. -/
theorem checkpointUser_noFolder (n : Node) (it : Iteration Loop) {j : Journal} {user : Str}
    (mp : KvMap) (closed : Closed j.tree) (plain : PlainName user)
    (h : j.tree.lookup (userPath n.port user) ≠ some .dir) :
    ∃ es, n.checkpointUser it j (user, mp) = some (j.performAll es) ∧
      ∀ e ∈ es, IntoFolder n.port user e := by
  obtain ⟨status, hi⟩ := init_noFolder closed plain h
  obtain ⟨c, hc⟩ : ∃ c : Chunk, c = ⟨0, 0, user, PREFIX n.port ++ user, ∅, []⟩ := ⟨_, rfl⟩
  have folder : c.folder = PREFIX n.port ++ user := by rw [hc]
  obtain ⟨touch, ht⟩ : ∃ e, e = Effect.append (c.path (chunkName c.appendIndex)) [] := ⟨_, rfl⟩
  have touchInto : IntoFolder n.port user touch := by
    refine ⟨.chunk c.appendIndex, [], .inr ?_⟩
    rw [ht]
    exact congrArg (fun p => Effect.append p []) (path_slot plain folder (.chunk _))
  obtain ⟨c', es, folder', into, loop⟩ := loop_intoFolder plain SIZE_LIMIT
    (it.pairs (.kvMap c.usr) mp) c (j.perform touch) folder
  rw [folder] at folder'
  obtain ⟨metas, hm⟩ : ∃ metas, metas = [Change.setIndex c'.appendIndex c'.currentSize,
    .setMetadata (it.pairs (.metadata c'.usr) c'.metadata), .addDeletes c'.delList].map
      (Change.effect (userPath n.port user)) := ⟨_, rfl⟩
  have metasInto : ∀ e ∈ metas, IntoFolder n.port user e := by
    rw [hm]
    intro e he
    simp only [List.map_cons, List.map_nil, List.mem_cons, List.not_mem_nil, or_false] at he
    rcases he with rfl | rfl | rfl
    · exact ⟨.index, _, .inl rfl⟩
    · exact ⟨.metadata, _, .inl rfl⟩
    · exact ⟨.deletes, _, .inr rfl⟩
  have back : c'.writeMetaBack it ((j.perform touch).performAll es) =
      j.performAll ([touch] ++ (es ++ metas)) := by
    rw [writeMetaBack_changes plain it folder', ← hm, Journal.performAll_append,
      Journal.perform_eq, Journal.performAll_append]
  have all : ∀ e ∈ [touch] ++ (es ++ metas), IntoFolder n.port user e := by
    intro e he
    rcases List.mem_append.mp he with first | he
    · rw [List.mem_singleton.mp first]
      exact touchInto
    · rcases List.mem_append.mp he with he | he
      · exact into e he
      · exact metasInto e he
  have tree : (j.performAll ([touch] ++ (es ++ metas))).tree = j.tree :=
    applyAll_intoFolder h all
  have deletes : content (j.performAll ([touch] ++ (es ++ metas))).tree
      (c'.path "delete_list".toList) = none := by
    have path : c'.path "delete_list".toList = _ := path_slot plain folder' .deletes
    rw [tree, path, content, lookup_below closed h]
  have lazy : c'.lazyDelete it (j.performAll ([touch] ++ (es ++ metas))) =
      some (j.performAll ([touch] ++ (es ++ metas))) := by
    simp only [Chunk.lazyDelete, deletes]
  refine ⟨_, ?_, all⟩
  have unfolded : c.appendKvs it SIZE_LIMIT mp j = c'.lazyDelete it (c'.writeMetaBack it
      ((j.perform touch).performAll es)) := by
    rw [ht] at loop ⊢
    have same := congrArg
      (fun cj : Chunk × Journal => cj.1.lazyDelete it (cj.1.writeMetaBack it cj.2)) loop
    exact same
  rw [Node.checkpointUser, hi, Option.bind_some, ← hc]
  exact unfolded.trans ((congrArg (c'.lazyDelete it) back).trans lazy)

/-! The loop over the users -/

/-- The effects of the loop of `Checkpoint`, from some folders to others: a user with a
folder has the changes of `append_kvs`, the writes of another user come to nothing. -/
inductive Steps (it : Iteration Loop) (port : Nat) :
    Folders → List (Str × KvMap) → List Effect → Folders → Prop where
  | nil (S : Folders) : Steps it port S [] [] S
  | folder {S S' : Folders} {user : Str} {mp : KvMap} {rest : List (Str × KvMap)} {F : Folder}
      {c : Chunk} {fill : List Change} {es : List Effect} (has : S user = some F)
      (fills : Fills (it.pairs (.kvMap user) mp) (opened port user F) c fill)
      (tail : Steps it port (Function.update S user (some
        ((changesOf it F (F.index.getD (0, 0)).1 c fill).foldl Change.apply F))) rest es S') :
      Steps it port S ((user, mp) :: rest)
        ((changesOf it F (F.index.getD (0, 0)).1 c fill).map
          (Change.effect (userPath port user)) ++ es) S'
  | noFolder {S S' : Folders} {user : Str} {mp : KvMap} {rest : List (Str × KvMap)}
      {lost es : List Effect} (has : S user = none) (into : ∀ e ∈ lost, IntoFolder port user e)
      (tail : Steps it port S rest es S') : Steps it port S ((user, mp) :: rest) (lost ++ es) S'

/-- Changes of a user's folder. -/
theorem Disk.changes {t : Tree} {port : Nat} {S : Folders} (d : Disk t port S) {user : Str}
    {F : Folder} (name : UserName user) (has : S user = some F) {changes : List Change}
    (readable : ∀ c ∈ changes, c.Readable) :
    Disk (applyAll t (changes.map (Change.effect (userPath port user)))) port
      (Function.update S user (some (changes.foldl Change.apply F))) := by
  have notLog : user ≠ logName := by
    rintro rfl
    rw [d.noLogFolder] at has
    cases has
  refine d.replace (closed_applyAll d.closed _) notLog (fun q outside => ?_) fun _ =>
    represents_applyAll (d.folder user F name has) readable
  refine applyAll_outside t _ fun e he below => ?_
  obtain ⟨c, -, rfl⟩ := List.mem_map.mp he
  obtain ⟨s, target⟩ := effect_target (userPath port user) c
  rw [target] at below
  exact outside ((List.prefix_append _ _).trans below)

theorem checkpointUsers_steps (n : Node) (it : Iteration Loop) (users : List (Str × KvMap))
    {j : Journal} {S : Folders} (d : Disk j.tree n.port S)
    (names : ∀ e ∈ users, UserName e.1)
    (lines : ∀ e ∈ users, ∀ kv ∈ it.pairs (.kvMap e.1) e.2, OneLine kv.1) :
    ∃ es S', Steps it n.port S users es S' ∧
      users.foldlM (n.checkpointUser it) j = some (j.performAll es) := by
  induction users generalizing j S with
  | nil => exact ⟨[], S, .nil S, by simp [Journal.performAll_nil]⟩
  | cons e rest ih =>
    obtain ⟨user, mp⟩ := e
    have name : UserName user := names _ List.mem_cons_self
    have line := lines _ List.mem_cons_self
    have names' := fun e he => names e (List.mem_cons_of_mem _ he)
    have lines' := fun e he => lines e (List.mem_cons_of_mem _ he)
    rw [List.foldlM_cons]
    cases has : S user with
    | none =>
      obtain ⟨lost, step, into⟩ := checkpointUser_noFolder n it mp d.closed name.plain
        (d.noFolder user name has)
      have tree : (j.performAll lost).tree = j.tree :=
        applyAll_intoFolder (d.noFolder user name has) into
      obtain ⟨es, S', steps, loop⟩ := ih (j := j.performAll lost) (by rw [tree]; exact d)
        names' lines'
      refine ⟨lost ++ es, S', .noFolder has into steps, ?_⟩
      rw [step]
      exact loop.trans (congrArg some (Journal.performAll_append j lost es))
    | some F =>
      have rep := d.folder user F name has
      obtain ⟨c, fill, fills, step⟩ := appendKvs_changes name it SIZE_LIMIT mp rep line
      have readable := changesOf_readable fills (chunkReadable_opened rep.readable n.port user)
        line rep.readable it (F.index.getD (0, 0)).1
      have next := d.changes name has readable
      obtain ⟨es, S', steps, loop⟩ := ih (j := j.performAll
        ((changesOf it F (F.index.getD (0, 0)).1 c fill).map
          (Change.effect (userPath n.port user)))) next names' lines'
      refine ⟨_, S', .folder has fills steps, ?_⟩
      have first : n.checkpointUser it j (user, mp) = some (j.performAll
          ((changesOf it F (F.index.getD (0, 0)).1 c fill).map
            (Change.effect (userPath n.port user)))) := by
        rw [Node.checkpointUser, init_represented name.plain rep, Option.bind_some]
        exact step
      rw [first]
      exact loop.trans (congrArg some (Journal.performAll_append j _ es))

section Steps
variable {it : Iteration Loop} {port : Nat} {S S' : Folders} {users : List (Str × KvMap)}
  {es : List Effect}

theorem Steps.targets (steps : Steps it port S users es S') :
    ∀ e ∈ es, ∃ (user : Str) (s : Slot), e.target = userPath port user ++ [s.name] := by
  induction steps with
  | nil S => simp
  | folder has fills tail ih =>
    intro e he
    rcases List.mem_append.mp he with own | later
    · obtain ⟨c, -, rfl⟩ := List.mem_map.mp own
      obtain ⟨s, hs⟩ := effect_target (userPath port _) c
      exact ⟨_, s, hs⟩
    · exact ih e later
  | noFolder has into tail ih =>
    intro e he
    rcases List.mem_append.mp he with own | later
    · obtain ⟨s, text, rfl | rfl⟩ := into e own
      · exact ⟨_, s, rfl⟩
      · exact ⟨_, s, rfl⟩
    · exact ih e later

/-- The loop over the users does not touch the log. -/
theorem Steps.log (steps : Steps it port S users es S') (t : Tree) {es₀ : List Effect}
    (h : es₀ ⊆ es) : (applyAll t es₀).lookup (resolve (kLogFp port)) =
      t.lookup (resolve (kLogFp port)) := by
  refine applyAll_outside t es₀ fun e he below => ?_
  obtain ⟨user, s, target⟩ := steps.targets e (h he)
  rw [target, ← userPath_log] at below
  have length := below.length_le
  simp only [userPath, List.length_append, List.length_singleton] at length
  omega

/-- What a complete loop does to each folder. -/
structure Completed (it : Iteration Loop) (port : Nat) (user : Str) (mp : KvMap) (F G : Folder) :
    Prop where
  changed : ∃ c fill, Fills (it.pairs (.kvMap user) mp) (opened port user F) c fill ∧
    G = (changesOf it F (F.index.getD (0, 0)).1 c fill).foldl Change.apply F

/-- What a loop that is cut short does to each folder: the folder is as it was, or the first of
its changes were made, and their effects are among those of the loop. -/
structure Interrupted (it : Iteration Loop) (port : Nat) (done : List Effect) (user : Str)
    (mp : KvMap) (F G : Folder) : Prop where
  changed : G = F ∨ ∃ c fill k, Fills (it.pairs (.kvMap user) mp) (opened port user F) c fill ∧
    G = ((changesOf it F (F.index.getD (0, 0)).1 c fill).take k).foldl Change.apply F ∧
    (∀ d ∈ (changesOf it F (F.index.getD (0, 0)).1 c fill).take k,
      d.effect (userPath port user) ∈ done) ∧
    (Change.dropDeletes.effect (userPath port user) ∈ done →
      .dropDeletes ∈ (changesOf it F (F.index.getD (0, 0)).1 c fill).take k)

/-- How the folders change: each folder by the relation, where the loop meets its user. -/
structure Changed (R : Str → KvMap → Folder → Folder → Prop) (users : List (Str × KvMap))
    (S S' : Folders) : Prop where
  absent : ∀ user, user ∉ users.map Prod.fst → S' user = S user
  noFolder : ∀ user, S user = none → S' user = none
  folder : ∀ user mp F, (user, mp) ∈ users → S user = some F → ∃ G, S' user = some G ∧ R user mp F G

/-- A loop over the users makes and removes no folder. -/
theorem Changed.folders {R : Str → KvMap → Folder → Folder → Prop}
    (changed : Changed R users S S') (user : Str) :
    S user = none ↔ S' user = none := by
  refine ⟨changed.noFolder user, fun gone => ?_⟩
  by_contra has
  obtain ⟨F, hF⟩ := Option.ne_none_iff_exists'.mp has
  by_cases mem : user ∈ users.map Prod.fst
  · obtain ⟨⟨u, mp⟩, hmem, rfl⟩ := List.mem_map.mp mem
    obtain ⟨G, hG, -⟩ := changed.folder u mp F hmem hF
    rw [gone] at hG
    cases hG
  · rw [changed.absent user mem] at gone
    exact has gone

theorem Steps.completed (steps : Steps it port S users es S')
    (distinct : (users.map Prod.fst).Nodup) : Changed (Completed it port) users S S' := by
  induction steps with
  | nil S => exact ⟨fun _ _ => rfl, fun _ h => h, fun _ _ _ h => absurd h List.not_mem_nil⟩
  | @folder S S' user mp rest F c fill es has fills tail ih =>
    obtain ⟨fresh, distinct⟩ := List.nodup_cons.mp distinct
    obtain ⟨absent, noFolder, folder⟩ := ih distinct
    refine ⟨fun other h => ?_, fun other h => ?_, fun other mp' F' mem h => ?_⟩
    · obtain ⟨ne, later⟩ := not_or.mp (List.mem_cons.not.mp h)
      rw [absent other later, Function.update_of_ne ne]
    · have ne : other ≠ user := by rintro rfl; rw [has] at h; cases h
      exact noFolder other (by rwa [Function.update_of_ne ne])
    · rcases List.mem_cons.mp mem with same | later
      · cases same
        rw [has] at h
        cases h
        refine ⟨_, ?_, ⟨c, fill, fills, rfl⟩⟩
        rw [absent _ fresh, Function.update_self]
      · have ne : other ≠ user := by
          rintro rfl
          exact fresh (List.mem_map.mpr ⟨_, later, rfl⟩)
        exact folder other mp' F' later (by rwa [Function.update_of_ne ne])
  | @noFolder S S' user mp rest lost es has into tail ih =>
    obtain ⟨fresh, distinct⟩ := List.nodup_cons.mp distinct
    obtain ⟨absent, noFolder, folder⟩ := ih distinct
    refine ⟨fun other h => absent other (not_or.mp (List.mem_cons.not.mp h)).2, noFolder,
      fun other mp' F' mem h => ?_⟩
    rcases List.mem_cons.mp mem with same | later
    · cases same
      rw [has] at h
      cases h
    · exact folder other mp' F' later h

theorem fills_readable {t : Tree} (d : Disk t port S) {user : Str} {mp : KvMap} {F : Folder}
    {c : Chunk} {fill : List Change} (name : UserName user) (has : S user = some F)
    (fills : Fills (it.pairs (.kvMap user) mp) (opened port user F) c fill)
    (lines : ∀ kv ∈ it.pairs (.kvMap user) mp, OneLine kv.1) :
    ∀ d ∈ changesOf it F (F.index.getD (0, 0)).1 c fill, d.Readable :=
  have readable := (d.folder user F name has).readable
  changesOf_readable fills (chunkReadable_opened readable port user) lines readable it _

/-- The disk after the loop. -/
theorem Steps.disk (steps : Steps it port S users es S') {t : Tree} (d : Disk t port S)
    (names : ∀ e ∈ users, UserName e.1)
    (lines : ∀ e ∈ users, ∀ kv ∈ it.pairs (.kvMap e.1) e.2, OneLine kv.1) :
    Disk (applyAll t es) port S' := by
  induction steps generalizing t with
  | nil S => exact d
  | folder has fills tail ih =>
    have readable := fills_readable d (names _ List.mem_cons_self) has fills
      (lines _ List.mem_cons_self)
    rw [applyAll_append]
    exact ih (d.changes (names _ List.mem_cons_self) has readable)
      (fun e he => names e (List.mem_cons_of_mem _ he))
      (fun e he => lines e (List.mem_cons_of_mem _ he))
  | noFolder has into tail ih =>
    have closed := d.noFolder _ (names _ List.mem_cons_self) has
    rw [applyAll_append, applyAll_intoFolder closed into]
    exact ih d (fun e he => names e (List.mem_cons_of_mem _ he))
      (fun e he => lines e (List.mem_cons_of_mem _ he))

theorem interrupted_refl (it : Iteration Loop) (port : Nat) (done : List Effect)
    (users : List (Str × KvMap)) (S : Folders) : Changed (Interrupted it port done) users S S :=
  ⟨fun _ _ => rfl, fun _ h => h, fun _ _ F _ h => ⟨F, h, ⟨.inl rfl⟩⟩⟩

/-- Of the changes of a folder only the removal of the delete list removes it. -/
theorem dropDeletes_of_effect {p : Path} {changes : List Change}
    (h : Change.dropDeletes.effect p ∈ changes.map (Change.effect p)) :
    Change.dropDeletes ∈ changes := by
  obtain ⟨d, hd, same⟩ := List.mem_map.mp h
  cases d with
  | dropDeletes => exact hd
  | addRecords | setIndex | setMetadata | addDeletes | rewrite => cases same

/-- Effects on other folders come before. -/
theorem Interrupted.append {done : List Effect} {user : Str} {mp : KvMap} {F G : Folder}
    (h : Interrupted it port done user mp F G) {earlier : List Effect}
    (kept : Change.dropDeletes.effect (userPath port user) ∉ earlier) :
    Interrupted it port (earlier ++ done) user mp F G := by
  rcases h.changed with same | ⟨c, fill, k, fills, changed, made, removed⟩
  · exact ⟨.inl same⟩
  · refine ⟨.inr ⟨c, fill, k, fills, changed, fun d hd => List.mem_append_right _ (made d hd),
      fun mem => removed ?_⟩⟩
    exact (List.mem_append.mp mem).resolve_left kept

/-- The disk in the middle of the loop. -/
theorem Steps.interrupted (steps : Steps it port S users es S') {t : Tree} (d : Disk t port S)
    (names : ∀ e ∈ users, UserName e.1)
    (lines : ∀ e ∈ users, ∀ kv ∈ it.pairs (.kvMap e.1) e.2, OneLine kv.1)
    (distinct : (users.map Prod.fst).Nodup) (k : Nat) :
    ∃ S₀, Disk (applyAll t (es.take k)) port S₀ ∧
      Changed (Interrupted it port (es.take k)) users S S₀ := by
  induction steps generalizing t k with
  | nil S => exact ⟨S, by simpa [applyAll] using d, interrupted_refl it port _ [] S⟩
  | @folder S S' user mp rest F c fill es has fills tail ih =>
    have name : UserName user := names _ List.mem_cons_self
    have readable := fills_readable d name has fills (lines _ List.mem_cons_self)
    obtain ⟨fresh, distinct⟩ := List.nodup_cons.mp distinct
    obtain ⟨own, hown⟩ : ∃ own, own = (changesOf it F (F.index.getD (0, 0)).1 c fill).map
      (Change.effect (userPath port user)) := ⟨_, rfl⟩
    rw [← hown]
    by_cases cut : k ≤ own.length
    · -- The crash comes while this user is written.
      have part : (own ++ es).take k =
          ((changesOf it F (F.index.getD (0, 0)).1 c fill).take k).map
            (Change.effect (userPath port user)) := by
        rw [List.take_append_of_le_length cut, hown, List.map_take]
      refine ⟨Function.update S user (some
          (((changesOf it F (F.index.getD (0, 0)).1 c fill).take k).foldl Change.apply F)),
        ?_, ⟨fun other h => ?_, fun other h => ?_, fun other mp' F' mem h => ?_⟩⟩
      · rw [part]
        exact d.changes name has fun c hc => readable c (List.mem_of_mem_take hc)
      · exact Function.update_of_ne (not_or.mp (List.mem_cons.not.mp h)).1 _ _
      · have ne : other ≠ user := by rintro rfl; rw [has] at h; cases h
        rwa [Function.update_of_ne ne]
      · by_cases same : other = user
        · subst same
          rw [has] at h
          cases h
          rcases List.mem_cons.mp mem with same | later
          · cases same
            refine ⟨_, Function.update_self _ _ _, ⟨.inr ⟨c, fill, k, fills, rfl, ?_⟩⟩⟩
            rw [part]
            exact ⟨fun d hd => List.mem_map.mpr ⟨d, hd, rfl⟩, dropDeletes_of_effect⟩
          · exact absurd (List.mem_map.mpr ⟨_, later, rfl⟩) fresh
        · exact ⟨F', by rwa [Function.update_of_ne same], ⟨.inl rfl⟩⟩
    · have whole : (own ++ es).take k = own ++ es.take (k - own.length) := by
        rw [List.take_append, List.take_of_length_le (by omega)]
      obtain ⟨S₀, disk, absent, noFolder, folder⟩ := ih (d.changes name has readable)
        (fun e he => names e (List.mem_cons_of_mem _ he))
        (fun e he => lines e (List.mem_cons_of_mem _ he)) distinct (k - own.length)
      refine ⟨S₀, ?_, ⟨fun other h => ?_, fun other h => ?_, fun other mp' F' mem h => ?_⟩⟩
      · rw [whole, applyAll_append, hown]
        rwa [hown] at disk
      · obtain ⟨ne, later⟩ := not_or.mp (List.mem_cons.not.mp h)
        rw [absent other later, Function.update_of_ne ne]
      · have ne : other ≠ user := by rintro rfl; rw [has] at h; cases h
        exact noFolder other (by rwa [Function.update_of_ne ne])
      · rcases List.mem_cons.mp mem with same | later
        · cases same
          rw [has] at h
          cases h
          refine ⟨_, (absent _ fresh).trans (Function.update_self _ _ _),
            ⟨.inr ⟨c, fill, (changesOf it F (F.index.getD (0, 0)).1 c fill).length, fills, ?_⟩⟩⟩
          rw [List.take_length, whole, hown]
          refine ⟨rfl, fun d hd => ?_, fun _ => ?_⟩
          · exact List.mem_append_left _ (List.mem_map.mpr ⟨d, hd, rfl⟩)
          · rw [changesOf_eq]
            exact List.mem_append_right _ (List.mem_singleton_self _)
        · have ne : other ≠ user := by
            rintro rfl
            exact fresh (List.mem_map.mpr ⟨_, later, rfl⟩)
          obtain ⟨G, hG, changed⟩ := folder other mp' F' later (by rwa [Function.update_of_ne ne])
          rw [whole]
          refine ⟨G, hG, changed.append fun removed => ?_⟩
          obtain ⟨d, -, same⟩ := List.mem_map.mp (hown ▸ removed)
          obtain ⟨s, target⟩ := effect_target (userPath port user) d
          rw [same] at target
          exact ne (userPath_apart (List.prefix_append _ _) (target ▸ List.prefix_append _ _))
  | @noFolder S S' user mp rest lost es has into tail ih =>
    obtain ⟨fresh, distinct⟩ := List.nodup_cons.mp distinct
    have closed := d.noFolder _ (names _ List.mem_cons_self) has
    obtain ⟨S₀, disk, absent, noFolder, folder⟩ := ih d
      (fun e he => names e (List.mem_cons_of_mem _ he))
      (fun e he => lines e (List.mem_cons_of_mem _ he)) distinct (k - lost.length)
    refine ⟨S₀, ?_, ⟨fun other h => absent other (not_or.mp (List.mem_cons.not.mp h)).2, noFolder,
      fun other mp' F' mem h => ?_⟩⟩
    · rw [List.take_append, applyAll_append,
        applyAll_intoFolder closed fun e he => into e (List.mem_of_mem_take he)]
      exact disk
    · rcases List.mem_cons.mp mem with same | later
      · cases same
        rw [has] at h
        cases h
      · obtain ⟨G, hG, changed⟩ := folder other mp' F' later h
        rw [List.take_append]
        refine ⟨G, hG, changed.append fun removed => ?_⟩
        obtain ⟨s, text, same | same⟩ := into _ (List.mem_of_mem_take removed) <;> cases same

end Steps

/-! A new node -/

theorem lookup_emptyHome (port : Nat) (p : Path) :
    (emptyHome port).lookup p = if p <+: home port then some .dir else none := by
  have prefixes : p <+: home port ↔ p = [] ∨ p = ["home".toList] ∨
      p = ["home".toList, "cis5050".toList] ∨ p = home port := by
    rw [← List.mem_inits]
    simp [home]
  rw [emptyHome, AList.lookup_to_alist]
  by_cases h : p <+: home port
  · rw [if_pos h]
    rcases prefixes.mp h with rfl | rfl | rfl | rfl
    · exact List.dlookup_cons_eq _ _ _
    · exact (List.dlookup_cons_ne _ _ (by simp)).trans (List.dlookup_cons_eq _ _ _)
    · exact ((List.dlookup_cons_ne _ _ (by simp)).trans
        (List.dlookup_cons_ne _ _ (by simp))).trans (List.dlookup_cons_eq _ _ _)
    · exact (((List.dlookup_cons_ne _ _ (by simp [home])).trans
        (List.dlookup_cons_ne _ _ (by simp [home]))).trans
        (List.dlookup_cons_ne _ _ (by simp [home]))).trans (List.dlookup_cons_eq _ _ _)
  · rw [if_neg h, List.dlookup_eq_none]
    intro mem
    simp only [List.keys, List.map_cons, List.map_nil, List.mem_cons, List.not_mem_nil,
      or_false] at mem
    exact h (prefixes.mpr mem)

/-- A storage folder with nothing in it. -/
theorem disk_emptyHome (port : Nat) : Disk (emptyHome port) port fun _ => none := by
  have outside : ∀ user, (emptyHome port).lookup (userPath port user) ≠ some .dir := by
    intro user
    rw [lookup_emptyHome, if_neg (below_home port user)]
    simp
  refine ⟨fun p nonempty present => ?_, ?_, fun user F _ h => ?_, fun user _ _ => outside user,
    outside logName⟩
  · rw [lookup_emptyHome] at present ⊢
    by_cases h : p <+: home port
    · rw [if_pos ((List.dropLast_prefix p).trans h)]
    · exact absurd (if_neg h) present
  · rw [lookup_emptyHome, if_pos (List.prefix_refl _)]
  · cases h

end NodeDisk
