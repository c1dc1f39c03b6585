import PennCloud.ChunkOverlay

/-!
# A folder in the middle of a checkpoint

The changes of `append_kvs` may be cut short between any two of them. As long as
every record that is ordered to be deleted is still in its chunk, beside the one
that the metadata point to, the orders can be given again by the next
checkpoint.
-/

namespace ChunkCrash

open Text UnorderedMap ChunkFiles ChunkFormat ChunkFolder ChunkOverlay

/-- The orders to delete spare the record that the metadata point to, and each key of the
metadata has a value. -/
structure Spare (F : Folder) : Prop where
  spare : ∀ key i, F.pending i key + (if F.places.lookup key = some i then 1 else 0) ≤
    (F.records i key).length
  listed : ∀ key, F.places.lookup key ≠ none → ∃ value ≠ [], F.value key = some value

/-- What a checkpoint that is cut short may leave: for each key the old value or the new one. -/
structure Between (mp : KvMap) (F G : Folder) : Prop where
  spare : Spare G
  value : ∀ key, G.value key = F.value key ∨ G.value key = overlaid (mp.lookup key) (F.value key)

theorem keeps_spare {F : Folder} (spare : Spare F) (mp : KvMap) : Keeps F mp := by
  refine ⟨fun key i _ place => ?_, fun key value i _ _ _ => spare.spare key i⟩
  have kept := spare.spare key i
  rw [if_pos place] at kept
  exact kept

theorem spare_settled {F : Folder} (settled : Settled F) : Spare F := by
  refine ⟨fun key i => ?_, settled.stored⟩
  rw [pending_settled settled]
  split
  · rename_i place
    exact records_settled settled place
  · exact Nat.zero_le _

theorem between_refl {F : Folder} (spare : Spare F) (mp : KvMap) : Between mp F F :=
  ⟨spare, fun _ => .inl rfl⟩

/-- The loop adds no empty value. -/
theorem fills_nonempty {kvs : List (Str × Str)} {c c' : Chunk} {changes : List Change}
    (fills : Fills kvs c c' changes) :
    ∀ i records, Change.addRecords i records ∈ changes → ∀ r ∈ records, r.2 ≠ [] := by
  induction fills with
  | done c => simp
  | delete tail ih => exact ih
  | stay size written tail ih =>
    intro i records mem r hr
    rcases List.mem_cons.mp mem with same | later
    · cases same
      rw [List.mem_singleton.mp hr]
      exact written
    · exact ih i records later r hr
  | roll written tail ih =>
    intro i records mem r hr
    rcases List.mem_cons.mp mem with same | later
    · cases same
      rw [List.mem_singleton.mp hr]
      exact written
    · rcases List.mem_cons.mp later with same | later
      · cases same
        cases hr
      · exact ih i records later r hr

/-- The changes add records of these pairs, none of them empty. -/
def Adds (kvs : List (Str × Str)) (changes : List Change) : Prop :=
  ∀ d ∈ changes, ∃ i records, d = .addRecords i records ∧ ∀ r ∈ records, r ∈ kvs ∧ r.2 ≠ []

theorem adds_fills {kvs : List (Str × Str)} {c c' : Chunk} {fill : List Change}
    (fills : Fills kvs c c' fill) (index : Nat) : Adds kvs (.addRecords index [] :: fill) := by
  intro d hd
  rcases List.mem_cons.mp hd with rfl | later
  · exact ⟨index, [], rfl, by simp⟩
  · obtain ⟨i, records, rfl, own⟩ := fills_changes fills d later
    exact ⟨i, records, rfl, fun r hr => ⟨own r hr, fills_nonempty fills i records later r hr⟩⟩

theorem adds_take {kvs : List (Str × Str)} {changes : List Change} (adds : Adds kvs changes)
    (j : Nat) : Adds kvs (changes.take j) := fun d hd => adds d (List.mem_of_mem_take hd)

/-- Records are added at the end. -/
theorem records_adds {kvs : List (Str × Str)} {changes : List Change} (adds : Adds kvs changes)
    (F : Folder) (i : Nat) (key : Str) :
    ∃ more, (changes.foldl Change.apply F).records i key = F.records i key ++ more ∧
      ∀ v ∈ more, (key, v) ∈ kvs ∧ v ≠ [] := by
  induction changes generalizing F with
  | nil => exact ⟨[], by simp, by simp⟩
  | cons d changes ih =>
    obtain ⟨j, records, rfl, own⟩ := adds d List.mem_cons_self
    obtain ⟨more, later, fresh⟩ := ih (fun e he => adds e (List.mem_cons_of_mem _ he))
      (Change.apply F (.addRecords j records))
    refine ⟨(if i = j then valuesOf records key else []) ++ more, ?_, fun v hv => ?_⟩
    · rw [List.foldl_cons, later, records_addRecords, List.append_assoc]
    · rcases List.mem_append.mp hv with first | rest
      · split at first
        · obtain ⟨r, hr, rfl⟩ := List.mem_map.mp first
          obtain ⟨mem, same⟩ := List.mem_filter.mp hr
          obtain rfl : r.1 = key := by simpa using same
          exact own r mem
        · cases first
      · exact fresh v rest

section Prefix
variable {port : Nat} {user : Str} {it : Iteration Loop} {mp : KvMap} {F : Folder} {c : Chunk}
  {fill : List Change}

/-- Cut short in the loop over the pairs. -/
theorem between_adds (spare : Spare F) {changes : List Change}
    (adds : Adds (it.pairs (.kvMap user) mp) changes) :
    Between mp F (changes.foldl Change.apply F) := by
  obtain ⟨-, metadata, deletes⟩ := adds_keep (fun d hd =>
    let ⟨i, records, same, _⟩ := adds d hd
    ⟨i, records, same⟩) F
  obtain ⟨G, hG⟩ : ∃ G, G = changes.foldl Change.apply F := ⟨_, rfl⟩
  rw [← hG] at metadata deletes ⊢
  have places : G.places = F.places := by rw [Folder.places, metadata]; rfl
  have value : ∀ key, G.value key = F.value key ∨
      ∃ v ≠ [], mp.lookup key = some v ∧ G.value key = some v := by
    intro key
    rw [Folder.value, Folder.value, places]
    cases place : F.places.lookup key with
    | none => exact .inl rfl
    | some i =>
      obtain ⟨more, records, fresh⟩ := records_adds adds F i key
      rw [Option.bind_some, Option.bind_some, hG, records]
      rcases List.eq_nil_or_concat more with rfl | ⟨init, v, rfl⟩
      · exact .inl (by rw [List.append_nil])
      · obtain ⟨mem, nonempty⟩ := fresh v (by simp)
        exact .inr ⟨v, nonempty, (it.mem_pairs _ _).mp mem, by simp⟩
  refine ⟨⟨fun key i => ?_, fun key placed => ?_⟩, fun key => ?_⟩
  · obtain ⟨more, records, -⟩ := records_adds adds F i key
    have old := spare.spare key i
    rw [Folder.pending, deletes, places, hG, records, List.length_append]
    exact old.trans (Nat.le_add_right _ _)
  · rw [places] at placed
    rcases value key with same | ⟨v, nonempty, -, new⟩
    · rw [same]
      exact spare.listed key placed
    · exact ⟨v, nonempty, new⟩
  · rcases value key with same | ⟨v, nonempty, update, new⟩
    · exact .inl same
    · exact .inr (by rw [new, update]; simp [overlaid, nonempty])

/-- The counters are not looked at. -/
theorem between_index {G : Folder} (between : Between mp F G) (index size : Nat) :
    Between mp F (Change.apply G (.setIndex index size)) :=
  ⟨⟨between.spare.spare, between.spare.listed⟩, between.value⟩

/-- What the loop leaves for a key, with the metadata it writes: the records, the place, the
orders to delete, and the value. -/
theorem fills_key (spare : Spare F)
    (fills : Fills (it.pairs (.kvMap user) mp) (opened port user F) c fill) (key : Str) :
    ((c.metadata.lookup key).bind fun i =>
      ((filled F (F.index.getD (0, 0)).1 fill).records i key).getLast?) =
        overlaid (mp.lookup key) (F.value key) ∧
    (∀ i, F.pending i key + (if c.metadata.lookup key = some i then 1 else 0) ≤
      ((filled F (F.index.getD (0, 0)).1 fill).records i key).length) ∧
    ((mp.lookup key = some [] → F.places.lookup key ≠ none) → ∀ i,
      F.pending i key + ordered c.delList i key +
        (if c.metadata.lookup key = some i then 1 else 0) ≤
          ((filled F (F.index.getD (0, 0)).1 fill).records i key).length) := by
  have distinct := it.nodup_keys (.kvMap user) mp
  have same : (opened port user F).metadata = F.places := rfl
  have none : ∀ i, ordered (opened port user F).delList i key = 0 := fun _ => rfl
  cases hk : mp.lookup key with
  | none =>
    have absent : key ∉ (it.pairs (.kvMap user) mp).map Prod.fst := by
      intro mem
      obtain ⟨⟨k, v⟩, hv, rfl⟩ := List.mem_map.mp mem
      rw [(it.mem_pairs _ _).mp hv] at hk
      cases hk
    obtain ⟨place, orders⟩ := fills_absent fills absent
    have records : ∀ i, (filled F (F.index.getD (0, 0)).1 fill).records i key =
        F.records i key := by
      intro i
      rw [filled, records_others (fills_others fills absent), records_touched]
    refine ⟨?_, fun i => ?_, fun _ i => ?_⟩
    · rw [place, same]
      simp only [records]
      rfl
    · rw [place, same, records]
      exact spare.spare key i
    · rw [orders, none, place, same, records, Nat.add_zero]
      exact spare.spare key i
  | some value =>
    have mem := (it.mem_pairs (.kvMap user) mp).mpr hk
    by_cases deleted : value = []
    · subst deleted
      have gone := fills_deleted fills distinct mem
      obtain ⟨orders, kept⟩ := fills_deleted_orders fills distinct mem
      have records : ∀ i, (filled F (F.index.getD (0, 0)).1 fill).records i key =
          F.records i key := by
        intro i
        rw [filled, kept, records_touched]
      refine ⟨by rw [gone]; rfl, fun i => ?_, fun present i => ?_⟩
      · rw [gone, if_neg (by simp), records, Nat.add_zero]
        exact (Nat.le_add_right _ _).trans (spare.spare key i)
      · obtain ⟨place, hp⟩ := Option.ne_none_iff_exists'.mp (present rfl)
        have booked : at' F.places key 0 = place := by rw [at', hp]; rfl
        have old := spare.spare key i
        simp only [hp, Option.some.injEq] at old
        rw [gone, if_neg (by simp), orders, none, same, booked, records, Nat.zero_add, Nat.add_zero]
        exact old
    · obtain ⟨a, -, place, orders, kept⟩ := fills_written fills distinct deleted mem
      have records : ∀ i, (filled F (F.index.getD (0, 0)).1 fill).records i key =
          F.records i key ++ if i = a then [value] else [] := by
        intro i
        rw [filled, kept, records_touched]
      have longer : ∀ i, (F.records i key).length + (if some a = some i then 1 else 0) =
          (F.records i key ++ if i = a then [value] else []).length := by
        intro i
        by_cases here : i = a
        · simp [here]
        · simp [here, Ne.symm here]
      refine ⟨?_, fun i => ?_, fun _ i => ?_⟩
      · rw [place, Option.bind_some, records, if_pos rfl]
        simp [overlaid, deleted]
      · rw [place, records, ← longer]
        exact Nat.add_le_add_right ((Nat.le_add_right _ _).trans (spare.spare key i)) _
      · rw [place, orders, none, same, records, ← longer, Nat.zero_add]
        exact Nat.add_le_add_right (spare.spare key i) _

/-- Each key of the new metadata has a new value. -/
theorem listed_loop (spare : Spare F)
    (fills : Fills (it.pairs (.kvMap user) mp) (opened port user F) c fill) {key : Str}
    (placed : c.metadata.lookup key ≠ none) :
    ∃ value ≠ [], overlaid (mp.lookup key) (F.value key) = some value := by
  cases hk : mp.lookup key with
  | none =>
    have absent : key ∉ (it.pairs (.kvMap user) mp).map Prod.fst := by
      intro mem
      obtain ⟨⟨k, v⟩, hv, rfl⟩ := List.mem_map.mp mem
      rw [(it.mem_pairs _ _).mp hv] at hk
      cases hk
    rw [(fills_absent fills absent).1] at placed
    exact spare.listed key placed
  | some value =>
    by_cases deleted : value = []
    · subst deleted
      have gone := fills_deleted fills (it.nodup_keys (.kvMap user) mp) ((it.mem_pairs _ _).mpr hk)
      exact absurd gone placed
    · exact ⟨value, deleted, by simp [overlaid, deleted]⟩

/-- A folder with the records of the loop and the new metadata, where the orders to delete spare
the record of each key. -/
theorem between_new (spare : Spare F)
    (fills : Fills (it.pairs (.kvMap user) mp) (opened port user F) c fill) {G : Folder}
    (chunks : G.chunks = (filled F (F.index.getD (0, 0)).1 fill).chunks)
    (metadata : G.metadata = some (it.pairs (.metadata c.usr) c.metadata))
    (spared : ∀ key i, G.pending i key + (if c.metadata.lookup key = some i then 1 else 0) ≤
      ((filled F (F.index.getD (0, 0)).1 fill).records i key).length) : Between mp F G := by
  have places : ∀ key, G.places.lookup key = c.metadata.lookup key := by
    intro key
    rw [Folder.places, metadata]
    exact lookup_mapOf_pairs it _ _ key
  have records : ∀ i key, G.records i key =
      (filled F (F.index.getD (0, 0)).1 fill).records i key := by
    intro i key
    rw [Folder.records, Folder.records, Folder.chunk, Folder.chunk, chunks]
  have value : ∀ key, G.value key = overlaid (mp.lookup key) (F.value key) := by
    intro key
    rw [Folder.value, places, ← (fills_key spare fills key).1]
    simp only [records]
  refine ⟨⟨fun key i => ?_, fun key placed => ?_⟩, fun key => .inr (value key)⟩
  · rw [places, records]
    exact spared key i
  · rw [places] at placed
    rw [value]
    exact listed_loop spare fills placed

/-- Cut short once the metadata are written, before the orders to delete. -/
theorem between_metadata (spare : Spare F)
    (fills : Fills (it.pairs (.kvMap user) mp) (opened port user F) c fill) (index size : Nat) :
    Between mp F ([Change.setIndex index size, .setMetadata (it.pairs (.metadata c.usr)
      c.metadata)].foldl Change.apply (filled F (F.index.getD (0, 0)).1 fill)) := by
  refine between_new spare fills rfl rfl fun key i => ?_
  have deletes := (filled_keep fills F (F.index.getD (0, 0)).1).2.2
  refine le_trans (le_of_eq ?_) ((fills_key spare fills key).2.1 i)
  exact congrArg (fun d => ordered (Option.getD d []) i key + _) deletes

/-- Cut short once the orders to delete are written, which name records that are there. -/
theorem between_written (spare : Spare F)
    (fills : Fills (it.pairs (.kvMap user) mp) (opened port user F) c fill)
    (present : ∀ key, mp.lookup key = some [] → F.places.lookup key ≠ none) :
    Between mp F ((written it (F.index.getD (0, 0)).1 c fill).foldl Change.apply F) := by
  rw [after_written]
  refine between_new spare fills rfl rfl fun key i => ?_
  have deletes := (filled_keep fills F (F.index.getD (0, 0)).1).2.2
  refine le_trans (le_of_eq ?_) ((fills_key spare fills key).2.2 (present key) i)
  rw [Folder.pending, Option.getD_some, ordered_append, deletes]
  rfl

/-- A complete checkpoint. -/
theorem between_complete (spare : Spare F)
    (fills : Fills (it.pairs (.kvMap user) mp) (opened port user F) c fill) :
    Between mp F ((changesOf it F (F.index.getD (0, 0)).1 c fill).foldl Change.apply F) := by
  have keeps := keeps_spare spare mp
  exact ⟨spare_settled (settled_complete fills keeps spare.listed),
    fun key => .inr (value_complete fills keeps key)⟩

/-- The changes that were made leave no torn delete list: it is removed again, or no chunk has
been rewritten and the keys that are deleted were there. -/
def Untorn (mp : KvMap) (F : Folder) (made : List Change) : Prop :=
  .dropDeletes ∈ made ∨ ((∀ i records, .rewrite i records ∉ made) ∧
    ∀ pairs, .addDeletes pairs ∈ made → ∀ key, mp.lookup key = some [] →
      F.places.lookup key ≠ none)

/-- Without a rewritten chunk, the changes stop at the orders to delete at the latest. -/
theorem take_unwritten {G : Folder} {counts : List (Nat × UMap Str Nat)} {first : List Change}
    {j : Nat} (rewritten : ∀ i records, Change.rewrite i records ∉
      (first ++ (rewrites G counts ++ [Change.dropDeletes])).take j)
    (listed : Change.dropDeletes ∉ (first ++ (rewrites G counts ++ [Change.dropDeletes])).take j) :
    (first ++ (rewrites G counts ++ [Change.dropDeletes])).take j = first.take j := by
  by_cases early : j ≤ first.length
  · exact List.take_append_of_le_length early
  · obtain ⟨m, rfl⟩ : ∃ m, j = first.length + (m + 1) := ⟨j - first.length - 1, by omega⟩
    rw [List.take_length_add_append] at rewritten listed
    cases counts with
    | nil => exact absurd (List.mem_append_right _ (by simp [rewrites])) listed
    | cons e rest =>
      exact absurd (List.mem_append_right _ (by simp [rewrites]))
        (rewritten e.1 (dropCounted e.2 (G.chunk e.1)))

/-- The delete list is removed last. -/
theorem dropDeletes_last (it : Iteration Loop) (F : Folder) (index : Nat)
    (fills : Fills (it.pairs (.kvMap user) mp) (opened port user F) c fill) :
    Change.dropDeletes ∉ changesBefore it F index c fill := by
  intro mem
  have rewritten : ∀ (counts : List (Nat × UMap Str Nat)) (G : Folder),
      Change.dropDeletes ∉ rewrites G counts := by
    intro counts
    induction counts with
    | nil => simp [rewrites]
    | cons e rest ih => simp [rewrites, ih]
  rcases List.mem_append.mp mem with early | late
  · rcases List.mem_append.mp (show _ ∈ (Change.addRecords index [] :: fill) ++ _ from early) with
      add | rest
    · obtain ⟨i, records, same, -⟩ := adds_fills fills index _ add
      cases same
    · simp at rest
  · exact rewritten _ _ late

/-- A checkpoint that is cut short with no torn delete list. -/
theorem between_take (spare : Spare F)
    (fills : Fills (it.pairs (.kvMap user) mp) (opened port user F) c fill) (j : Nat)
    (untorn : Untorn mp F ((changesOf it F (F.index.getD (0, 0)).1 c fill).take j)) :
    Between mp F (((changesOf it F (F.index.getD (0, 0)).1 c fill).take j).foldl
      Change.apply F) := by
  by_cases complete : Change.dropDeletes ∈ (changesOf it F (F.index.getD (0, 0)).1 c fill).take j
  · have all : (changesOf it F (F.index.getD (0, 0)).1 c fill).take j =
        changesOf it F (F.index.getD (0, 0)).1 c fill := by
      refine List.take_of_length_le ?_
      by_contra short
      rw [changesOf_eq, List.length_append, List.length_singleton] at short
      rw [changesOf_eq, List.take_append_of_le_length (by omega)] at complete
      exact dropDeletes_last it F _ fills (List.mem_of_mem_take complete)
    rw [all]
    exact between_complete spare fills
  · obtain ⟨rewritten, present⟩ := untorn.resolve_left complete
    have stops : (changesOf it F (F.index.getD (0, 0)).1 c fill).take j =
      (written it (F.index.getD (0, 0)).1 c fill).take j := take_unwritten rewritten complete
    rw [stops] at present ⊢
    -- The loop over the pairs comes first, then the counters, the metadata and the orders.
    obtain ⟨adds, hadds⟩ : ∃ adds, adds = Change.addRecords (F.index.getD (0, 0)).1 [] :: fill :=
      ⟨_, rfl⟩
    have loop : written it (F.index.getD (0, 0)).1 c fill = adds ++
        [.setIndex c.appendIndex c.currentSize,
          .setMetadata (it.pairs (.metadata c.usr) c.metadata), .addDeletes c.delList] := by
      rw [hadds]
      rfl
    have own : Adds (it.pairs (.kvMap user) mp) adds := hadds ▸ adds_fills fills _
    have done : adds.foldl Change.apply F = filled F (F.index.getD (0, 0)).1 fill := by
      rw [hadds]
      rfl
    by_cases early : j ≤ adds.length
    · rw [loop, List.take_append_of_le_length early]
      exact between_adds spare (adds_take own j)
    · obtain ⟨m, rfl⟩ : ∃ m, j = adds.length + (m + 1) := ⟨j - adds.length - 1, by omega⟩
      match m with
      | 0 =>
        rw [loop, List.take_length_add_append, List.foldl_append]
        exact between_index (between_adds spare own) c.appendIndex c.currentSize
      | 1 =>
        rw [loop, List.take_length_add_append, List.foldl_append, done]
        exact between_metadata spare fills c.appendIndex c.currentSize
      | m + 2 =>
        have all : (written it (F.index.getD (0, 0)).1 c fill).take (adds.length + (m + 2 + 1)) =
            written it (F.index.getD (0, 0)).1 c fill := by
          refine List.take_of_length_le ?_
          rw [loop, List.length_append]
          simp
        rw [all] at present ⊢
        refine between_written spare fills fun key => present c.delList ?_ key
        rw [loop]
        simp

end Prefix

end ChunkCrash
