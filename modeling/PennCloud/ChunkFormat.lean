import PennCloud.ChunkFiles

/-!
# The text of the chunk files

What the files of a user's folder were written with is what is read from them,
and the records that are left of a chunk after a deletion are, for each key,
its records without the first ones.
-/

namespace ChunkFormat

open Text FileTree UnorderedMap ChunkFiles

/-- A key takes one line. -/
def OneLine (key : Str) : Prop := '\n' ∉ key

instance (key : Str) : Decidable (OneLine key) := inferInstanceAs (Decidable (_ ∉ key))

/-! Keys with their chunks -/

theorem readPairs_pairLines {pairs : List (Str × Nat)} (keys : ∀ e ∈ pairs, OneLine e.1) :
    readPairs (split (pairLines pairs) '\n') = some pairs := by
  induction pairs with
  | nil => rfl
  | cons e rest ih =>
    obtain ⟨key, index⟩ := e
    have line : OneLine key := keys _ List.mem_cons_self
    have text : pairLines ((key, index) :: rest) =
        key ++ '\n' :: (toDecimal index ++ '\n' :: pairLines rest) := by
      simp [pairLines]
    have tail := ih fun e he => keys e (List.mem_cons_of_mem _ he)
    rw [text, split_line line, split_line (newline_notMem_toDecimal index), readPairs,
      stoull_toDecimal, Option.bind_some, tail]
    rfl

theorem pairLines_append (a b : List (Str × Nat)) :
    pairLines (a ++ b) = pairLines a ++ pairLines b :=
  List.flatMap_append

theorem readIndex_indexText (index size : Nat) :
    readIndex (indexText index size) = some (index, size) := by
  have size' := split_last (newline_notMem_toDecimal size) (toDecimal_ne_nil size)
  rw [readIndex, indexText, split_line (newline_notMem_toDecimal index), size']
  simp only [stoull_toDecimal, Option.bind_some, Option.map_some]

/-! Records -/

theorem readRecords_chunkText {records : List (Str × Str)} (keys : ∀ r ∈ records, OneLine r.1)
    {fuel : Nat} (enough : records.length ≤ fuel) :
    readRecords fuel (chunkText records) = some records := by
  induction records generalizing fuel with
  | nil => cases fuel <;> rfl
  | cons r rest ih =>
    obtain ⟨key, value⟩ := r
    obtain ⟨fuel, rfl⟩ : ∃ k, fuel = k + 1 :=
      ⟨fuel - 1, by simp only [List.length_cons] at enough; omega⟩
    have line : OneLine key := keys _ List.mem_cons_self
    have text : chunkText ((key, value) :: rest) =
        key ++ '\n' :: (toDecimal value.length ++ '\n' :: (value ++ chunkText rest)) := by
      simp [chunkText, appendKv]
    have some' : key ++ '\n' :: (toDecimal value.length ++ '\n' :: (value ++ chunkText rest)) ≠ [] :=
      by simp
    have fewer : rest.length ≤ fuel := by simpa using enough
    have tail := ih (fun r hr => keys r (List.mem_cons_of_mem _ hr)) fewer
    rw [text, readRecords, if_neg some', getLine_append line]
    simp only [getLine_append (newline_notMem_toDecimal value.length), stoull_toDecimal,
      Option.bind_some, List.drop_left, List.take_left, tail, Option.map_some]

theorem length_le_chunkText (records : List (Str × Str)) :
    records.length ≤ (chunkText records).length := by
  induction records with
  | nil => exact Nat.zero_le _
  | cons r rest ih =>
    have text : chunkText (r :: rest) = appendKv r.1 r.2 ++ chunkText rest := rfl
    have first : 0 < (appendKv r.1 r.2).length := by
      simp only [appendKv, List.length_append, List.length_cons]
      omega
    rw [text, List.length_append, List.length_cons]
    omega

theorem loadChunk_chunkText {records : List (Str × Str)}
    (keys : ∀ r ∈ records, OneLine r.1) : loadChunk (chunkText records) = some records :=
  readRecords_chunkText keys (length_le_chunkText records)

theorem chunkText_append (a b : List (Str × Str)) :
    chunkText (a ++ b) = chunkText a ++ chunkText b :=
  List.flatMap_append

/-- The values of a key in a chunk, in order. -/
def valuesOf (records : List (Str × Str)) (key : Str) : List Str :=
  (records.filter fun r => r.1 = key).map Prod.snd

theorem valuesOf_append (a b : List (Str × Str)) (key : Str) :
    valuesOf (a ++ b) key = valuesOf a key ++ valuesOf b key := by
  simp [valuesOf]

theorem valuesOf_single (r : Str × Str) (key : Str) :
    valuesOf [r] key = if r.1 = key then [r.2] else [] := by
  by_cases h : r.1 = key
  · simp [valuesOf, h]
  · simp [valuesOf, h]

theorem valuesOf_cons (r : Str × Str) (rest : List (Str × Str)) (key : Str) :
    valuesOf (r :: rest) key = if r.1 = key then r.2 :: valuesOf rest key
      else valuesOf rest key := by
  by_cases h : r.1 = key
  · simp [valuesOf, h]
  · simp [valuesOf, h]

/-- The value read is that of the last record of the key. -/
theorem findRecord_eq (records : List (Str × Str)) (key : Str) :
    findRecord records key = (valuesOf records key).getLast? := by
  induction records using List.reverseRecOn with
  | nil => rfl
  | append_singleton records r ih =>
    have step : findRecord (records ++ [r]) key =
        if r.1 = key then some r.2 else findRecord records key := List.foldl_append
    rw [step, ih, valuesOf_append, valuesOf_single]
    by_cases h : r.1 = key
    · simp [h]
    · simp [h]

/-! Deletion -/

theorem at'_insert (m : UMap Str Nat) (key k : Str) (count : Nat) :
    at' (m.insert key count) k 0 = if k = key then count else at' m k 0 := by
  by_cases h : k = key
  · subst h
    simp [at']
  · simp [at', AList.lookup_insert_ne h, h]

/-- Of each key the deletion drops as many records from the front as it counts. -/
theorem valuesOf_dropCounted (counts : UMap Str Nat) (records : List (Str × Str)) (key : Str) :
    valuesOf (dropCounted counts records) key =
      (valuesOf records key).drop (at' counts key 0) := by
  induction records generalizing counts with
  | nil => simp [dropCounted, valuesOf]
  | cons r rest ih =>
    by_cases counted : 0 < at' counts r.1 0
    · rw [dropCounted, if_pos counted, ih, at'_insert, valuesOf_cons]
      by_cases same : r.1 = key
      · subst same
        obtain ⟨count, hc⟩ : ∃ k, at' counts r.1 0 = k + 1 := ⟨at' counts r.1 0 - 1, by omega⟩
        simp [hc]
      · rw [if_neg (Ne.symm same), if_neg same]
    · rw [dropCounted, if_neg counted, valuesOf_cons, valuesOf_cons, ih]
      by_cases same : r.1 = key
      · subst same
        have zero : at' counts r.1 0 = 0 := by omega
        simp [zero]
      · rw [if_neg same, if_neg same]

theorem mem_dropCounted {counts : UMap Str Nat} {records : List (Str × Str)} {r : Str × Str}
    (h : r ∈ dropCounted counts records) : r ∈ records := by
  induction records generalizing counts with
  | nil => exact h
  | cons s rest ih =>
    rw [dropCounted] at h
    split at h
    · exact List.mem_cons_of_mem s (ih h)
    · rcases List.mem_cons.mp h with rfl | later
      · exact List.mem_cons_self
      · exact List.mem_cons_of_mem s (ih later)

/-- How often the list orders a record of the key in the chunk to be deleted. -/
def ordered (pairs : List (Str × Nat)) (index : Nat) (key : Str) : Nat :=
  pairs.countP fun e => e.1 = key ∧ e.2 = index

theorem ordered_append (a b : List (Str × Nat)) (index : Nat) (key : Str) :
    ordered (a ++ b) index key = ordered a index key + ordered b index key :=
  List.countP_append

theorem ordered_single (e : Str × Nat) (index : Nat) (key : Str) :
    ordered [e] index key = if e.1 = key ∧ e.2 = index then 1 else 0 := by
  by_cases h : e.1 = key ∧ e.2 = index
  · simp [ordered, h]
  · simp only [ordered, List.countP_singleton, decide_eq_true_eq, if_neg h]

theorem find2_countDeletes (pairs : List (Str × Nat)) (index : Nat) (key : Str) :
    (find2 (countDeletes pairs) index key).getD 0 = ordered pairs index key := by
  induction pairs using List.reverseRecOn with
  | nil => rfl
  | append_singleton pairs e ih =>
    have step : countDeletes (pairs ++ [e]) = set2 (countDeletes pairs) e.2 e.1
        ((find2 (countDeletes pairs) e.2 e.1).getD 0 + 1) := List.foldl_append
    rw [step, find2_set2, ordered_append, ordered_single, ← ih]
    by_cases h : index = e.2 ∧ key = e.1
    · obtain ⟨rfl, rfl⟩ := h
      simp
    · have h' : ¬ (e.1 = key ∧ e.2 = index) := fun g => h ⟨g.2.symm, g.1.symm⟩
      simp [h, h']

end ChunkFormat
