import PennCloud.MetadataText
import PennCloud.StorageHandler

/-!
# The ids in the metadata

The lines of a stored metadata text with their ids, which the last id bounds. A
handler that reads such a text, or prints one, has objects within the bound.
-/

namespace MetadataIds

open Text UnorderedMap StorageMetadata MetadataText
open Pattern (matchWhole Matches Blanks lit blank)

/-! Lines -/

/-- A line after the first, with an id up to the bound. The path of a header is without blanks. -/
inductive EntryLine (n : Nat) : Str → Prop where
  | root {path : Str} {id : Nat} (count : Nat) (dark : ∀ c ∈ path, isSpace c = false)
      (small : id ≤ n) : EntryLine n (headerLine rootWords path id count)
  | folder {path : Str} {id : Nat} (count : Nat) (dark : ∀ c ∈ path, isSpace c = false)
      (small : id ≤ n) : EntryLine n (headerLine folderWords path id count)
  | item {name : Str} {id : Nat} (isFile : Bool) (spelled : ∀ c ∈ name, pathChar c = true)
      (small : id ≤ n) : EntryLine n (itemLine name id isFile)

/-- A metadata text whose last id is `n`. -/
def Stored (n : Nat) (text : Str) : Prop :=
  ∃ lines, text = unlines (latestLine n :: lines) ∧ ∀ line ∈ lines, EntryLine n line

theorem EntryLine.mono {m n : Nat} (le : m ≤ n) {line : Str} (entry : EntryLine m line) :
    EntryLine n line := by
  cases entry with
  | root count dark small => exact .root count dark (small.trans le)
  | folder count dark small => exact .folder count dark (small.trans le)
  | item isFile spelled small => exact .item isFile spelled (small.trans le)

theorem dark_of_pathChar {c : Char} (spelled : pathChar c = true) : isSpace c = false := by
  by_contra space
  have space : isSpace c = true := by simpa using space
  simp only [isSpace, Bool.or_eq_true, decide_eq_true_eq] at space
  rcases space with (((((rfl | rfl) | rfl) | rfl) | rfl) | rfl) <;> exact absurd spelled (by decide)

theorem dark_toDecimal {n : Nat} {c : Char} (mem : c ∈ toDecimal n) : isSpace c = false :=
  isDigit_not_space (isDigit_of_mem_toDecimal mem)

theorem blanks_toDecimal (n : Nat) : (toDecimal n).countP isSpace = 0 :=
  Pattern.countP_isSpace_eq_zero fun _ => dark_toDecimal

theorem blanks_latestLine (n : Nat) : (latestLine n).countP isSpace = 2 := by
  rw [latestLine, List.countP_append, blanks_toDecimal]
  rfl

theorem blanks_headerLine (words : Str) {path : Str} (id count : Nat)
    (dark : ∀ c ∈ path, isSpace c = false) :
    (headerLine words path id count).countP isSpace = words.countP isSpace + 4 := by
  simp only [headerLine, List.countP_append, blanks_toDecimal,
    Pattern.countP_isSpace_eq_zero dark]
  rfl

theorem blanks_itemLine {name : Str} (id : Nat) (isFile : Bool)
    (spelled : ∀ c ∈ name, pathChar c = true) :
    (itemLine name id isFile).countP isSpace = 3 := by
  simp only [itemLine, List.countP_append, blanks_toDecimal,
    Pattern.countP_isSpace_eq_zero fun c mem => dark_of_pathChar (spelled c mem)]
  cases isFile <;> rfl

/-- A number between blanks. -/
theorem blanks_number {pattern : List Pattern.Item} {n : Nat} (tail : Blanks pattern n) :
    Blanks (blank :: .run 1 Char.isDigit :: pattern) (n + 1) :=
  .blank (fun _ space => space) (.run (fun _ => isDigit_not_space) tail)

theorem blanks_name {pattern : List Pattern.Item} {n : Nat} (tail : Blanks pattern n) :
    Blanks (.run 0 pathChar :: blank :: pattern) (n + 1) :=
  .run (fun _ => dark_of_pathChar) (.blank (fun _ space => space) tail)

theorem blanks_kLatestIdRegex : Blanks kLatestIdRegex 2 :=
  (Blanks.blank (fun _ space => space) ((blanks_number .nil).lit "ID:".toList)).lit
    "Latest".toList

theorem blanks_kFolderContentRegex : Blanks kFolderContentRegex 3 := by
  have kind : ∀ c, (c = 'F' || c = '|' || c = 'D') = true → isSpace c = false := by
    intro c kind
    simp only [Bool.or_eq_true, decide_eq_true_eq] at kind
    rcases kind with (rfl | rfl) | rfl <;> decide
  have type : Blanks [blank, .run 1 fun c => c = 'F' || c = '|' || c = 'D'] 1 :=
    .blank (fun _ space => space) (.run kind .nil)
  exact blanks_name ((blanks_number type).lit "ID".toList)

theorem blanks_folderRegex (words : Str) :
    Blanks (folderRegex words) (5 + words.countP isSpace) := by
  have slash : ∀ c, (c == '/') = true → isSpace c = false := by
    intro c same
    rw [eq_of_beq same]
    decide
  have count := (blanks_number .nil).lit "Items".toList
  have number := blanks_number (.blank (fun _ space => space) count)
  have path := Blanks.one slash (blanks_name (number.lit "ID".toList))
  exact (Blanks.blank (fun _ space => space) path).lit words

/-- A header that is read has a path of the alphabet. -/
theorem spelled_of_match {words path : Str} {id count : Nat} {captures : List Str}
    (dark : ∀ c ∈ path, isSpace c = false)
    (matched : matchWhole (folderRegex words) (headerLine (words ++ [' ']) path id count) =
      some captures) : ∃ rest, path = '/' :: rest ∧ ∀ c ∈ rest, pathChar c = true := by
  have whole := Pattern.matchWhole_isSome.mp (Option.isSome_of_eq_some matched)
  obtain ⟨after, split, first⟩ := Pattern.matches_lit.mp whole
  obtain ⟨space, afterSpace, rfl, -, slash, afterSlash, rfl, isSlash, taken, afterPath, rfl, -,
    spelled, second, rest, rfl, isBlank, -⟩ := first
  obtain rfl := eq_of_beq isSlash
  have tail : ' ' :: (path ++ ' ' :: ("ID ".toList ++ (toDecimal id ++ (" Items ".toList ++
      toDecimal count)))) = space :: '/' :: (taken ++ second :: rest) := by
    refine (List.append_right_inj words).mp ?_
    rw [← split, headerLine]
    simp
  have darkTaken : ∀ c ∈ '/' :: taken, isSpace c = false :=
    List.forall_mem_cons.mpr ⟨by decide, fun c mem => dark_of_pathChar (spelled c mem)⟩
  exact ⟨taken, (append_blank_inj dark darkTaken (by decide) isBlank (List.cons.inj tail).2).1,
    spelled⟩

/-! Reading a line -/

section Reading
variable {n : Nat} {line : Str} {captures : List Str}

theorem EntryLine.not_latest (entry : EntryLine n line) :
    matchWhole kLatestIdRegex line = none := by
  refine Pattern.matchWhole_blanks blanks_kLatestIdRegex ?_
  cases entry with
  | root count dark small =>
    rw [blanks_headerLine _ _ _ dark]
    decide +kernel
  | folder count dark small =>
    rw [blanks_headerLine _ _ _ dark]
    decide +kernel
  | item isFile spelled small =>
    rw [blanks_itemLine _ _ spelled]
    decide

theorem EntryLine.content (entry : EntryLine n line)
    (matched : matchWhole kFolderContentRegex line = some captures) :
    ∃ name id type, captures = [name, toDecimal id, [type]] ∧
      (∀ c ∈ name, pathChar c = true) ∧ id ≤ n := by
  have blanks := blanks_kFolderContentRegex.count
    (Pattern.matchWhole_isSome.mp (Option.isSome_of_eq_some matched))
  cases entry with
  | root count dark small =>
    rw [blanks_headerLine _ _ _ dark] at blanks
    exact absurd blanks (by decide +kernel)
  | folder count dark small =>
    rw [blanks_headerLine _ _ _ dark] at blanks
    exact absurd blanks (by decide +kernel)
  | @item name id isFile spelled small =>
    rw [match_itemLine id isFile spelled] at matched
    cases matched
    exact ⟨name, id, _, rfl, spelled, small⟩

/-- What a header pattern captures from a line. -/
theorem EntryLine.header {words : Str} (kind : words = "Root folder:".toList ∨ words = "Folder:".toList)
    (entry : EntryLine n line) (matched : matchWhole (folderRegex words) line = some captures) :
    ∃ path id count, captures = [path, toDecimal id, toDecimal count] ∧
      (∀ c ∈ path, pathChar c = true) ∧ id ≤ n := by
  have blanks := (blanks_folderRegex words).count
    (Pattern.matchWhole_isSome.mp (Option.isSome_of_eq_some matched))
  have own : ∀ {path : Str} {id count : Nat}, (∀ c ∈ path, isSpace c = false) → id ≤ n →
      matchWhole (folderRegex words) (headerLine (words ++ [' ']) path id count) = some captures →
      ∃ path id count, captures = [path, toDecimal id, toDecimal count] ∧
        (∀ c ∈ path, pathChar c = true) ∧ id ≤ n := by
    intro path id count dark small matched
    obtain ⟨rest, rfl, spelled⟩ := spelled_of_match dark matched
    rw [match_folderRegex id count spelled] at matched
    cases matched
    exact ⟨rest, id, count, rfl, spelled, small⟩
  cases entry with
  | root count dark small =>
    rw [blanks_headerLine _ _ _ dark] at blanks
    rcases kind with rfl | rfl
    · exact own dark small (by rwa [show rootWords = "Root folder:".toList ++ [' '] by
        decide +kernel] at matched)
    · exact absurd blanks (by decide +kernel)
  | folder count dark small =>
    rw [blanks_headerLine _ _ _ dark] at blanks
    rcases kind with rfl | rfl
    · exact absurd blanks (by decide +kernel)
    · exact own dark small (by rwa [show folderWords = "Folder:".toList ++ [' '] by
        decide +kernel] at matched)
  | item isFile spelled small =>
    rw [blanks_itemLine _ _ spelled] at blanks
    rcases kind with rfl | rfl <;> exact absurd blanks (by decide +kernel)

end Reading

/-! Reading a text -/

/-- The numbers of the lines that give the last id. -/
def latestIds (text : Str) : List Nat :=
  (split text '\n').filterMap fun line =>
    (matchWhole kLatestIdRegex line).map fun captures => digitsValue (captures.headD [])

/-- The id that is read from a line. -/
def lineId (line : Str) : Option Nat :=
  [kRootFolderEntryRegex, kFolderEntryRegex, kFolderContentRegex].findSome? fun pattern =>
    (matchWhole pattern line).bind fun captures => captures[1]?.map digitsValue

/-- The ids that occur in a text. -/
def entryIds (text : Str) : List Nat := (split text '\n').filterMap lineId

theorem EntryLine.newline {n : Nat} {line : Str} (entry : EntryLine n line) : '\n' ∉ line := by
  have header : ∀ {words path : Str} (id count : Nat), '\n' ∉ words →
      (∀ c ∈ path, isSpace c = false) → '\n' ∉ headerLine words path id count := by
    intro words path id count noBreak dark
    have inPath : '\n' ∉ path := fun mem => absurd (dark _ mem) (by decide)
    simp [headerLine, noBreak, inPath, newline_notMem_toDecimal]
  cases entry with
  | root count dark small => exact header _ _ (by decide +kernel) dark
  | folder count dark small => exact header _ _ (by decide +kernel) dark
  | item isFile spelled small => exact newline_itemLine _ _ spelled

theorem EntryLine.lineId_le {n id : Nat} {line : Str} (entry : EntryLine n line)
    (read : lineId line = some id) : id ≤ n := by
  obtain ⟨pattern, mem, found⟩ := List.exists_of_findSome?_eq_some read
  obtain ⟨captures, matched, second⟩ := Option.bind_eq_some_iff.mp found
  have number : ∃ id', captures[1]? = some (toDecimal id') ∧ id' ≤ n := by
    simp only [List.mem_cons, List.not_mem_nil, or_false] at mem
    rcases mem with rfl | rfl | rfl
    · obtain ⟨path, id', count, rfl, -, small⟩ := entry.header (.inl rfl) matched
      exact ⟨id', rfl, small⟩
    · obtain ⟨path, id', count, rfl, -, small⟩ := entry.header (.inr rfl) matched
      exact ⟨id', rfl, small⟩
    · obtain ⟨name, id', type, rfl, -, small⟩ := entry.content matched
      exact ⟨id', rfl, small⟩
  obtain ⟨id', known, small⟩ := number
  rw [known, Option.map_some, digitsValue_toDecimal, Option.some.injEq] at second
  rwa [← second]

theorem lineId_latestLine (n : Nat) : lineId (latestLine n) = none := by
  have other : ∀ k, k ≠ 2 → (latestLine n).countP isSpace ≠ k := fun k ne => by
    rw [blanks_latestLine]
    exact ne.symm
  have root : matchWhole kRootFolderEntryRegex (latestLine n) = none :=
    Pattern.matchWhole_blanks (blanks_folderRegex _) (other _ (by decide +kernel))
  have folder : matchWhole kFolderEntryRegex (latestLine n) = none :=
    Pattern.matchWhole_blanks (blanks_folderRegex _) (other _ (by decide +kernel))
  have content := Pattern.matchWhole_blanks blanks_kFolderContentRegex (other _ (by decide))
  simp [lineId, root, folder, content]

theorem split_stored {n : Nat} {lines : List Str} (entries : ∀ line ∈ lines, EntryLine n line) :
    split (unlines (latestLine n :: lines)) '\n' = latestLine n :: lines :=
  split_unlines (List.forall_mem_cons.mpr
    ⟨newline_latestLine n, fun line mem => (entries line mem).newline⟩)

theorem latestIds_stored {n : Nat} {text : Str} (stored : Stored n text) : latestIds text = [n] := by
  obtain ⟨lines, rfl, entries⟩ := stored
  rw [latestIds, split_stored entries, List.filterMap_cons, match_latestLine]
  simp only [Option.map_some, List.headD_cons, digitsValue_toDecimal, List.cons.injEq, true_and]
  exact List.filterMap_eq_nil_iff.mpr fun line mem => by rw [(entries line mem).not_latest]; rfl

theorem entryIds_stored {n id : Nat} {text : Str} (stored : Stored n text)
    (mem : id ∈ entryIds text) : id ≤ n := by
  obtain ⟨lines, rfl, entries⟩ := stored
  rw [entryIds, split_stored entries, List.filterMap_cons, lineId_latestLine] at mem
  obtain ⟨line, listed, read⟩ := List.mem_filterMap.mp mem
  exact (entries line listed).lineId_le read

theorem Stored.unique {m n : Nat} {text : Str} (first : Stored m text) (second : Stored n text) :
    m = n := by
  have same := (latestIds_stored first).symm.trans (latestIds_stored second)
  exact (List.cons.inj same).1

end MetadataIds
