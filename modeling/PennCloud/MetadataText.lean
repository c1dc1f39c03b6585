import PennCloud.StorageTree

/-!
# The lines of the metadata

How each line is printed, which pattern it matches, and what is read from it.
-/

namespace MetadataText

open Text Pattern UnorderedMap StorageMetadata

/-! Lines -/

def latestWords : Str := "Latest ID: ".toList
def rootWords : Str := "Root folder: ".toList
def folderWords : Str := "Folder: ".toList

def latestLine (latest : Nat) : Str := latestWords ++ toDecimal latest

def headerLine (words path : Str) (id count : Nat) : Str :=
  words ++ (path ++ (" ID ".toList ++ (toDecimal id ++ (" Items ".toList ++ toDecimal count))))

def typeChar (isFile : Bool) : Char := if isFile then 'F' else 'D'

def itemLine (name : Str) (id : Nat) (isFile : Bool) : Str :=
  name ++ (" ID ".toList ++ (toDecimal id ++ [' ', typeChar isFile]))

/-- An item of a directory: its name, its id and whether it is a file. -/
structure Item where
  name : Str
  id : Nat
  isFile : Bool
  deriving DecidableEq, Repr

def Item.line (item : Item) : Str := itemLine item.name item.id item.isFile

/-- A directory as it is printed. -/
structure Block where
  path : Str
  id : Nat
  items : List Item

def Block.lines (words : Str) (b : Block) : List Str :=
  headerLine words b.path b.id b.items.length :: b.items.map Item.line

/-- The metadata of a tree whose root folder is printed first. -/
def metadataLines (latest : Nat) (root : Block) (folders : List Block) : List Str :=
  latestLine latest :: (root.lines rootWords ++ folders.flatMap (Block.lines folderWords))

def unlines (lines : List Str) : Str := lines.flatMap fun line => line ++ ['\n']

theorem unlines_cons (line : Str) (lines : List Str) :
    unlines (line :: lines) = line ++ '\n' :: unlines lines := by
  simp [unlines]

theorem unlines_append (first second : List Str) :
    unlines (first ++ second) = unlines first ++ unlines second :=
  List.flatMap_append

theorem split_unlines {lines : List Str} (single : ∀ line ∈ lines, '\n' ∉ line) :
    split (unlines lines) '\n' = lines := by
  induction lines with
  | nil => rfl
  | cons line lines ih =>
    rw [unlines_cons, split_line (single line List.mem_cons_self),
      ih fun later mem => single later (List.mem_cons_of_mem line mem)]

theorem entryLine_eq (name : Str) (d : Dirent) :
    entryLine name d = itemLine name d.id d.isFile ++ ['\n'] := by
  have type : d.type = [typeChar d.isFile] := by
    rw [Dirent.type, typeChar]
    split <;> simp
  rw [entryLine, itemLine, type]
  simp

/-! Matching -/

theorem digits_nonempty (n : Nat) : 1 ≤ (toDecimal n).length :=
  List.length_pos_iff.mpr (toDecimal_ne_nil n)

theorem spelledID : " ID ".toList = ' ' :: ("ID".toList ++ [' ']) := by simp

theorem spelledItems : " Items ".toList = ' ' :: ("Items".toList ++ [' ']) := by simp

theorem match_latestLine (latest : Nat) :
    matchWhole kLatestIdRegex (latestLine latest) = some [toDecimal latest] := by
  have spelled : latestLine latest = "Latest".toList ++ ' ' :: ("ID:".toList ++ ' ' ::
      (toDecimal latest ++ [])) := by
    unfold latestLine latestWords
    simp
  rw [spelled]
  unfold kLatestIdRegex
  refine matchWhole_of_reads (.lit _ (.one (by decide) (.lit _ (.one (by decide) ?_)))) rfl
  exact .run (fun _ => isDigit_of_mem_toDecimal) (digits_nonempty latest) (by simp) (.nil [])

/-- What stands between the words of a header and its end. -/
theorem match_folderRegex {words path : Str} (id count : Nat)
    (spelled : ∀ c ∈ path, pathChar c = true) :
    matchWhole (folderRegex words) (headerLine (words ++ [' ']) ('/' :: path) id count) =
      some [path, toDecimal id, toDecimal count] := by
  have line : headerLine (words ++ [' ']) ('/' :: path) id count = words ++ ' ' :: '/' ::
      (path ++ ' ' :: ("ID".toList ++ ' ' :: (toDecimal id ++ ' ' :: ("Items".toList ++ ' ' ::
        (toDecimal count ++ []))))) := by
    rw [headerLine, spelledID, spelledItems]
    simp
  rw [line]
  unfold folderRegex
  refine matchWhole_of_reads (.lit _ (.one (by decide) (.one (by decide) ?_))) rfl
  refine .run spelled (Nat.zero_le _) (by simp; decide) (.one (by decide) ?_)
  refine .lit _ (.one (by decide) ?_)
  refine .run (fun _ => isDigit_of_mem_toDecimal) (digits_nonempty id) (by simp) ?_
  refine .one (by decide) (.lit _ (.one (by decide) ?_))
  exact .run (fun _ => isDigit_of_mem_toDecimal) (digits_nonempty count) (by simp) (.nil [])

theorem match_itemLine {name : Str} (id : Nat) (isFile : Bool)
    (spelled : ∀ c ∈ name, pathChar c = true) :
    matchWhole kFolderContentRegex (itemLine name id isFile) =
      some [name, toDecimal id, [typeChar isFile]] := by
  have line : itemLine name id isFile = name ++ ' ' :: ("ID".toList ++ ' ' ::
      (toDecimal id ++ ' ' :: ([typeChar isFile] ++ []))) := by
    rw [itemLine, spelledID]
    simp
  rw [line]
  unfold kFolderContentRegex
  refine matchWhole_of_reads ?_ rfl
  refine .run spelled (Nat.zero_le _) (by simp; decide) (.one (by decide) ?_)
  refine .lit _ (.one (by decide) ?_)
  refine .run (fun _ => isDigit_of_mem_toDecimal) (digits_nonempty id) (by simp) ?_
  refine .one (by decide) (.run (fun c mem => ?_) (by simp) (by simp) (.nil []))
  rw [List.mem_singleton.mp mem]
  cases isFile <;> decide

theorem match_rootHeader {path : Str} (id count : Nat)
    (spelled : ∀ c ∈ path, pathChar c = true) :
    matchWhole kRootFolderEntryRegex (headerLine rootWords ('/' :: path) id count) =
      some [path, toDecimal id, toDecimal count] := by
  have words : rootWords = "Root folder:".toList ++ [' '] := by decide +kernel
  rw [words]
  exact match_folderRegex id count spelled

theorem match_folderHeader {path : Str} (id count : Nat)
    (spelled : ∀ c ∈ path, pathChar c = true) :
    matchWhole kFolderEntryRegex (headerLine folderWords ('/' :: path) id count) =
      some [path, toDecimal id, toDecimal count] := by
  have words : folderWords = "Folder:".toList ++ [' '] := by decide +kernel
  rw [words]
  exact match_folderRegex id count spelled

/-- The patterns of the lines begin with different characters. -/
theorem latest_ne_root (path : Str) (id count : Nat) :
    matchWhole kLatestIdRegex (headerLine rootWords path id count) = none :=
  matchWhole_other (c := 'L') (d := 'R') (by decide +kernel) (by decide +kernel) (by decide)

theorem latest_ne_folder (path : Str) (id count : Nat) :
    matchWhole kLatestIdRegex (headerLine folderWords path id count) = none :=
  matchWhole_other (c := 'L') (d := 'F') (by decide +kernel) (by decide +kernel) (by decide)

theorem root_ne_folder (path : Str) (id count : Nat) :
    matchWhole kRootFolderEntryRegex (headerLine folderWords path id count) = none :=
  matchWhole_other (c := 'R') (d := 'F') (by decide +kernel) (by decide +kernel) (by decide)

/-! Newlines -/

theorem newline_of_pathChar {s : Str} (spelled : ∀ c ∈ s, pathChar c = true) : '\n' ∉ s := by
  intro mem
  exact absurd (spelled _ mem) (by decide)

theorem newline_latestWords : '\n' ∉ latestWords := by decide +kernel

theorem newline_latestLine (latest : Nat) : '\n' ∉ latestLine latest := by
  intro mem
  rcases List.mem_append.mp mem with words | number
  · exact newline_latestWords words
  · exact newline_notMem_toDecimal latest number

theorem newline_headerLine {words path : Str} (id count : Nat) (noBreak : '\n' ∉ words)
    (spelled : ∀ c ∈ path, pathChar c = true) : '\n' ∉ headerLine words path id count := by
  simp [headerLine, noBreak, newline_of_pathChar spelled, newline_notMem_toDecimal]

theorem newline_itemLine {name : Str} (id : Nat) (isFile : Bool)
    (spelled : ∀ c ∈ name, pathChar c = true) : '\n' ∉ itemLine name id isFile := by
  have type : '\n' ≠ typeChar isFile := by cases isFile <;> decide
  simp [itemLine, newline_of_pathChar spelled, newline_notMem_toDecimal, type]

structure Block.Spelled (b : Block) : Prop where
  path : ∀ c ∈ b.path, pathChar c = true
  names : ∀ item ∈ b.items, ∀ c ∈ item.name, pathChar c = true

theorem newline_lines {words : Str} {b : Block} (noBreak : '\n' ∉ words) (spelled : b.Spelled) :
    ∀ line ∈ b.lines words, '\n' ∉ line := by
  intro line mem
  rcases List.mem_cons.mp mem with rfl | mem
  · exact newline_headerLine _ _ noBreak spelled.path
  · obtain ⟨item, listed, rfl⟩ := List.mem_map.mp mem
    exact newline_itemLine _ _ (spelled.names item listed)

theorem newline_metadataLines {latest : Nat} {root : Block} {folders : List Block}
    (first : root.Spelled) (others : ∀ b ∈ folders, b.Spelled) :
    ∀ line ∈ metadataLines latest root folders, '\n' ∉ line := by
  intro line mem
  rcases List.mem_cons.mp mem with rfl | mem
  · exact newline_latestLine latest
  · rcases List.mem_append.mp mem with mem | mem
    · exact newline_lines (by decide +kernel) first line mem
    · obtain ⟨b, listed, mem⟩ := List.mem_flatMap.mp mem
      exact newline_lines (by decide +kernel) (others b listed) line mem

end MetadataText
