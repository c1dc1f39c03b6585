import PennCloud.FormBodies
import PennCloud.FreshIds

/-!
# The dispatch of storage forms

`storage_handler` of `storage_reply.h` tells the forms of the file pages apart by words
that it looks for anywhere in the decoded body, one after the other. A form is handled
as what it is where no name or content in it has a word that is looked for earlier.
-/

namespace StorageForms

open Text Pattern StorageMetadata StorageHandler FormBodies
open SharedMetadata (validChar validFilename)

/-! The functions of `storage_interface.h`, as the requests that they make -/

def uploadFile (fp content : Str) : StorageServiceReq := ⟨.fileUpload, .fileUploadReq fp content⟩
def downloadFile (fp : Str) : StorageServiceReq := ⟨.fileDownload, .fileDownloadReq fp⟩
def createDir (fp : Str) : StorageServiceReq := ⟨.dirCreate, .dirCreateOrQueryReq fp⟩
def renameFile (fp newName : Str) : StorageServiceReq := ⟨.fileRename, .renameReq fp newName⟩
def renameDir (fp newName : Str) : StorageServiceReq := ⟨.dirRename, .renameReq fp newName⟩
def moveFile (fp newDir : Str) : StorageServiceReq := ⟨.fileMove, .moveReq fp newDir⟩
def moveDir (fp newDir : Str) : StorageServiceReq := ⟨.dirMove, .moveReq fp newDir⟩
def deleteFile (fp : Str) : StorageServiceReq := ⟨.fileDele, .deleteReq fp⟩
def deleteDir (fp : Str) : StorageServiceReq := ⟨.dirDele, .deleteReq fp⟩

/-! The patterns. An optional slash in front of a run of names is one of the run. -/

def kNewfolderRegex : List Item := lit "newfolder=".toList ++ [.run 0 pathChar]
def kDownloadRegex : List Item := lit "download=".toList ++ [.run 0 pathChar]

/-- What follows the type in the patterns of a rename and a move: a path and a name. -/
def pathAndName : List Item := .run 0 pathChar :: (lit "=".toList ++ [.run 0 pathChar])

/-- What follows the type in the pattern of a deletion. -/
def onlyPath : List Item := lit "=".toList ++ [.run 0 pathChar]

/-- The group `file|folder` of the patterns. -/
def typeName (isFile : Bool) : Str := if isFile then "file".toList else "folder".toList

/-- A match of the word, a type and a pattern at the start of the text: whether it is a file, and what
the pattern captured. -/
def matchTyped (word : Str) (pattern : List Item) (s : Str) : Option (Bool × List Str) :=
  ((matchItems (lit (word ++ typeName true) ++ pattern) s).map fun r => (true, r.1)).or
    ((matchItems (lit (word ++ typeName false) ++ pattern) s).map fun r => (false, r.1))

/-- The search for a pattern with a type in it. -/
def searchTyped (word : Str) (pattern : List Item) : Str → Option (Bool × List Str)
  | [] => matchTyped word pattern []
  | c :: cs => (matchTyped word pattern (c :: cs)).or (searchTyped word pattern cs)

def searchRename (body : Str) : Option (Bool × List Str) :=
  searchTyped "rename".toList pathAndName body

def searchMove (body : Str) : Option (Bool × List Str) := searchTyped "move".toList pathAndName body

def searchDelete (body : Str) : Option (Bool × List Str) :=
  searchTyped "delete".toList onlyPath body

/-! The handler -/

/-- The path of a folder to create: the path of the page without `/file`, and the name. -/
def folderPath (path foldername : Str) : Option Str :=
  path.getLast?.bind fun last =>
    (substrFrom path 5).map fun folder =>
      if last ≠ '/' then folder ++ ('/' :: foldername) else folder ++ foldername

/-- The path of an uploaded file. -/
def uploadedName (path filename : Str) : Str :=
  (if 6 < path.length then '/' :: (path.drop 6 ++ ['/']) else []) ++ filename

def isUpload (body : Str) : Bool := decide ("name=\"uploadfile\"".toList <:+: body)

/-- What `storage_handler` does with a POST: the request that it makes before it shows the page
again, if any. It is `none` where it throws. -/
def storageHandler (path reqBody : Str) : Option (Option StorageServiceReq) :=
  let body := httpParse reqBody
  match search kNewfolderRegex body with
  | some found =>
    let foldername := found.captures.headD []
    (folderPath path foldername).map fun fp =>
      if validFilename foldername then some (createDir fp) else none
  | none =>
    if isUpload body then
      (getFileName body).bind fun filename =>
        (getFileContent reqBody).map fun content =>
          if validFilename filename then some (uploadFile (uploadedName path filename) content)
          else none
    else match searchRename body with
    | some (isFile, captures) =>
      let fp := captures.headD []
      let newName := captures.tail.headD []
      some (some (if isFile then renameFile fp newName else renameDir fp newName))
    | none => match searchMove body with
      | some (isFile, captures) =>
        let fp := captures.headD []
        let newDir := captures.tail.headD []
        some (some (if isFile then moveFile fp newDir else moveDir fp newDir))
      | none => match searchDelete body with
        | some (isFile, captures) =>
          let fp := captures.headD []
          some (some (if isFile then deleteFile fp else deleteDir fp))
        | none => match search kDownloadRegex body with
          | some found => some (some (downloadFile (found.captures.headD [])))
          | none => some none

/-! What the patterns find -/

/-- A word with a run of any length after it stands where the word does. -/
theorem search_word {word s : Str} :
    (search (lit word ++ [.run 0 pathChar]) s).isSome ↔ word <:+: s := by
  rw [search_isSome]
  constructor
  · rintro ⟨front, rest, rfl, found⟩
    obtain ⟨t, rfl, -⟩ := accepts_lit.mp (matchItems_isSome.mp found)
    exact ⟨front, t, List.append_assoc ..⟩
  · rintro ⟨front, t, rfl⟩
    refine ⟨front, word ++ t, List.append_assoc .., matchItems_isSome.mpr (accepts_lit.mpr ?_)⟩
    exact ⟨t, rfl, [], t, rfl, Nat.zero_le _, by simp, trivial⟩

theorem searchTyped_isSome {word s : Str} {pattern : List Item} :
    (searchTyped word pattern s).isSome ↔
      ∃ front rest, s = front ++ rest ∧ (matchTyped word pattern rest).isSome := by
  induction s with
  | nil =>
    constructor
    · intro found
      exact ⟨[], [], rfl, found⟩
    · rintro ⟨front, rest, same, found⟩
      obtain ⟨rfl, rfl⟩ := List.append_eq_nil_iff.mp same.symm
      exact found
  | cons c cs ih =>
    rw [searchTyped, Option.isSome_or, Bool.or_eq_true, ih]
    constructor
    · rintro (here | ⟨front, rest, rfl, found⟩)
      · exact ⟨[], c :: cs, rfl, here⟩
      · exact ⟨c :: front, rest, rfl, found⟩
    · rintro ⟨front, rest, same, found⟩
      cases front with
      | nil =>
        obtain rfl : c :: cs = rest := same
        exact .inl found
      | cons d front =>
        obtain ⟨-, rfl⟩ := List.cons.inj same
        exact .inr ⟨front, rest, rfl, found⟩

theorem matchTyped_isSome {word s : Str} {pattern : List Item} :
    (matchTyped word pattern s).isSome ↔
      ∃ isFile t, s = word ++ (typeName isFile ++ t) ∧ Accepts pattern t := by
  have typed : ∀ isFile, (matchItems (lit (word ++ typeName isFile) ++ pattern) s).isSome ↔
      ∃ t, s = word ++ (typeName isFile ++ t) ∧ Accepts pattern t := by
    intro isFile
    simp only [matchItems_isSome, accepts_lit, List.append_assoc]
  rw [matchTyped, Option.isSome_or, Option.isSome_map, Option.isSome_map, Bool.or_eq_true, typed,
    typed]
  constructor
  · rintro (file | folder)
    · exact ⟨true, file⟩
    · exact ⟨false, folder⟩
  · rintro ⟨isFile, found⟩
    cases isFile with
    | true => exact .inl found
    | false => exact .inr found

/-- No text goes on as a file and as a folder. -/
theorem typeName_append_ne {t u : Str} : typeName false ++ t ≠ typeName true ++ u := by
  intro same
  have second : 'o' = 'i' := (List.cons.inj (List.cons.inj same).2).1
  cases second

theorem matchTyped_front {word t : Str} {pattern : List Item} {r : List Str × Nat} (isFile : Bool)
    (found : matchItems pattern t = some r) :
    matchTyped word pattern (word ++ (typeName isFile ++ t)) = some (isFile, r.1) := by
  have here : matchItems (lit (word ++ typeName isFile) ++ pattern)
      (word ++ (typeName isFile ++ t)) =
      some (r.1, r.2 + (word ++ typeName isFile).length) := by
    rw [← List.append_assoc, matchItems_lit, found]
    rfl
  cases isFile with
  | true =>
    rw [matchTyped, here]
    rfl
  | false =>
    have other : matchItems (lit (word ++ typeName true) ++ pattern)
        (word ++ (typeName false ++ t)) = none := by
      refine matchItems_eq_none fun accepted => ?_
      obtain ⟨u, same, -⟩ := accepts_lit.mp accepted
      rw [List.append_assoc] at same
      exact typeName_append_ne (List.append_cancel_left same)
    rw [matchTyped, other, here]
    rfl

theorem searchTyped_front {word s : Str} {pattern : List Item} {r : Bool × List Str}
    (found : matchTyped word pattern s = some r) : searchTyped word pattern s = some r := by
  cases s with
  | nil => exact found
  | cons c cs => rw [searchTyped, found, Option.some_or]

theorem matchItems_run {s : Str} (spelled : ∀ c ∈ s, pathChar c = true) :
    matchItems [.run 0 pathChar] s = some ([s], s.length) := by
  have reads : Reads [.run 0 pathChar] (s ++ []) [s] [] :=
    .run spelled (Nat.zero_le _) (by simp) (.nil [])
  have found := matchItems_of_reads reads
  rwa [List.append_nil, List.append_nil] at found

theorem accepts_equals {t : Str} :
    Accepts (lit "=".toList ++ [.run 0 pathChar]) t ↔ ∃ u, t = '=' :: u := by
  rw [accepts_lit]
  constructor
  · rintro ⟨u, rfl, -⟩
    exact ⟨u, rfl⟩
  · rintro ⟨u, rfl⟩
    exact ⟨u, rfl, [], u, rfl, Nat.zero_le _, by simp, trivial⟩

theorem accepts_pathAndName {t : Str} (spelled : ∀ c ∈ t, pathChar c = true) :
    Accepts pathAndName t ↔ '=' ∈ t := by
  constructor
  · rintro ⟨taken, rest, rfl, -, -, tail⟩
    obtain ⟨u, rfl⟩ := accepts_equals.mp tail
    exact List.mem_append_right _ List.mem_cons_self
  · intro mem
    obtain ⟨taken, u, rfl⟩ := List.append_of_mem mem
    have accepted := fun c mem => spelled c (List.mem_append_left _ mem)
    exact ⟨taken, '=' :: u, rfl, Nat.zero_le _, accepted, accepts_equals.mpr ⟨u, rfl⟩⟩

/-- The path takes all up to the last equality sign. -/
theorem matchItems_pathAndName {fp newName : Str} (path : ∀ c ∈ fp, pathChar c = true)
    (name : ∀ c ∈ newName, pathChar c = true) (plain : '=' ∉ newName) :
    ∃ n, matchItems pathAndName (fp ++ '=' :: newName) = some ([fp, newName], n) := by
  have here : matchItems (lit "=".toList ++ [.run 0 pathChar]) ('=' :: newName) =
      some ([newName], newName.length + 1) := by
    have found := matchItems_lit "=".toList [.run 0 pathChar] newName
    rw [matchItems_run name] at found
    exact found
  have last : ∀ more t, '=' :: newName = more ++ t → more ≠ [] →
      matchItems (lit "=".toList ++ [.run 0 pathChar]) t = none := by
    intro more t same some
    refine matchItems_eq_none fun accepted => ?_
    obtain ⟨u, rfl⟩ := accepts_equals.mp accepted
    cases more with
    | nil => exact some rfl
    | cons d more =>
      obtain ⟨-, rfl⟩ := List.cons.inj same
      exact plain (List.mem_append_right _ List.mem_cons_self)
  exact ⟨_, matchRun_last [] path (Nat.zero_le _) here last⟩

/-! The forms -/

/-- The forms of the file pages as they are filled in. The header block of an upload goes on after
the names with `extra`. -/
inductive Form where
  | upload (boundary filename extra content : Str)
  | rename (isFile : Bool) (fp newName : Str)
  | move (isFile : Bool) (fp newDir : Str)
  | delete (isFile : Bool) (fp : Str)
  | download (fp : Str)

/-- The second line of an upload up to the name of the file. -/
def disposition : Str :=
  "\nContent-Disposition: form-data".toList ++
    ';' :: ' ' :: ("name=\"uploadfile\"".toList ++ ';' :: " filename=".toList)

/-- The header block of the part that is uploaded. -/
def header (boundary filename extra : Str) : Str :=
  (dashes ++ boundary) ++ '\r' :: (disposition ++ '"' :: (filename ++ '"' :: extra))

/-- What a browser sends, before it escapes the texts of the short forms. -/
def Form.text : Form → Str
  | .upload boundary filename extra content =>
    header boundary filename extra ++ (blankLine ++ (content ++ closing boundary))
  | .rename isFile fp newName => "rename".toList ++ (typeName isFile ++ (fp ++ '=' :: newName))
  | .move isFile fp newDir => "move".toList ++ (typeName isFile ++ (fp ++ '=' :: newDir))
  | .delete isFile fp => "delete".toList ++ (typeName isFile ++ '=' :: fp)
  | .download fp => "download=".toList ++ fp

/-- The body is the form, which `http_parse` restores where it is a short one. -/
def Form.Sent (form : Form) (reqBody : Str) : Prop :=
  match form with
  | .upload .. => reqBody = form.text
  | _ => httpParse reqBody = form.text

/-- The operation that the form asks for, on the page with this path. -/
def Form.request (path : Str) : Form → StorageServiceReq
  | .upload _ filename _ content => uploadFile (uploadedName path filename) content
  | .rename isFile fp newName => if isFile then renameFile fp newName else renameDir fp newName
  | .move isFile fp newDir => if isFile then moveFile fp newDir else moveDir fp newDir
  | .delete isFile fp => if isFile then deleteFile fp else deleteDir fp
  | .download fp => downloadFile fp

/-- The text is over the alphabet of the forms. -/
def Spelled (s : Str) : Prop := ∀ c ∈ s, pathChar c = true

instance (s : Str) : Decidable (Spelled s) := inferInstanceAs (Decidable (∀ _ ∈ _, _))

/-- A boundary has no line end and no percent sign in it, and a part is a header block, a blank line
and the content, of a length that `Content-Length` can say. -/
def Form.Fits : Form → Prop
  | .upload boundary filename extra content =>
    validFilename filename = true ∧ ('\r' ∉ boundary ∧ '%' ∉ boundary) ∧
      (∀ c, extra.head? = some c → c = '\r') ∧
      (¬ blankLine <:+: header boundary filename extra ∧
        ¬ crlf <:+ header boundary filename extra) ∧
      (Form.upload boundary filename extra content).text.length ≤ INT_MAX
  | .rename _ fp newName => Spelled fp ∧ Spelled newName
  | .move _ fp newDir => Spelled fp ∧ Spelled newDir
  | .delete _ fp => Spelled fp
  | .download fp => Spelled fp

/-- The word with a type stands in the text, and an equality sign somewhere after it. -/
def Mentions (word s : Str) : Prop :=
  ∃ front isFile rest, s = front ++ (word ++ (typeName isFile ++ rest)) ∧ '=' ∈ rest

def NamesDeletion (s : Str) : Prop :=
  ∃ front isFile rest, s = front ++ ("delete".toList ++ (typeName isFile ++ '=' :: rest))

def NamesFolder (s : Str) : Prop := "newfolder=".toList <:+: s

/-- Nothing in the form is a word of a form that is looked for earlier, and a new name or target has
no equality sign. -/
def Form.Unambiguous (form : Form) : Prop :=
  match form with
  | .upload .. => ¬ NamesFolder (httpParse form.text)
  | .rename _ _ newName => ¬ NamesFolder form.text ∧ '=' ∉ newName
  | .move _ _ newDir => ¬ NamesFolder form.text ∧ ¬ Mentions "rename".toList form.text ∧
    '=' ∉ newDir
  | .delete .. => ¬ NamesFolder form.text ∧ ¬ Mentions "rename".toList form.text ∧
    ¬ Mentions "move".toList form.text
  | .download _ => ¬ NamesFolder form.text ∧ ¬ Mentions "rename".toList form.text ∧
    ¬ Mentions "move".toList form.text ∧ ¬ NamesDeletion form.text

/-! The decoded upload -/

theorem notMem_of_validChar {s : Str} {c : Char} (valid : validFilename s = true)
    (odd : validChar c = false) : c ∉ s := by
  intro mem
  have fine := List.all_eq_true.mp valid c mem
  rw [odd] at fine
  cases fine

theorem map_plusToBlank {s : Str} (plain : '+' ∉ s) : s.map plusToBlank = s := by
  induction s with
  | nil => rfl
  | cons c s ih =>
    obtain ⟨other, later⟩ := not_or.mp (List.mem_cons.not.mp plain)
    rw [List.map_cons, plusToBlank, if_neg (Ne.symm other), ih later]

theorem disposition_plain : '%' ∉ disposition ∧ '+' ∉ disposition ∧ '\r' ∉ disposition := by
  decide +kernel

section Upload

variable {boundary filename extra : Str} (valid : validFilename filename = true)
include valid

/-- What stands before the content is decoded to itself, but for the boundary. -/
theorem httpParse_header (plain : '%' ∉ boundary)
    (lines : ∀ c, extra.head? = some c → c = '\r') (rest : Str) :
    ∃ later, httpParse (header boundary filename extra ++ (blankLine ++ rest)) =
      (dashes ++ boundary).map plusToBlank ++
        '\r' :: (disposition ++ '"' :: (filename ++ '"' :: '\r' :: later)) := by
  obtain ⟨percent, plus, -⟩ := disposition_plain
  have noPercent : '%' ∉ (dashes ++ boundary) ++ '\r' :: (disposition ++ '"' :: (filename ++ ['"'])) := by
    have name : '%' ∉ filename := notMem_of_validChar valid (by decide)
    simp [dashes, plain, percent, name]
  have noPlus : '+' ∉ '\r' :: (disposition ++ '"' :: (filename ++ ['"'])) := by
    have name : '+' ∉ filename := notMem_of_validChar valid (by decide)
    simp [plus, name]
  have lineEnd : ∃ tail, extra ++ (blankLine ++ rest) = ['\r'] ++ tail := by
    cases extra with
    | nil => exact ⟨_, rfl⟩
    | cons c extra =>
      obtain rfl := lines c rfl
      exact ⟨_, rfl⟩
  obtain ⟨tail, same⟩ := lineEnd
  have split : header boundary filename extra ++ (blankLine ++ rest) =
      ((dashes ++ boundary) ++ '\r' :: (disposition ++ '"' :: (filename ++ ['"']))) ++
        (['\r'] ++ tail) := by
    rw [← same, header]
    simp
  refine ⟨httpParse tail, ?_⟩
  rw [split, httpParse_plain noPercent, httpParse_plain (by decide : '%' ∉ ['\r']), List.map_append,
    map_plusToBlank noPlus]
  simp [plusToBlank]

theorem getFileName_upload {front later : Str} (plain : '\r' ∉ front) :
    getFileName (front ++ '\r' :: (disposition ++ '"' :: (filename ++ '"' :: '\r' :: later))) =
      some filename := by
  have quoted : '\r' ∉ filename ∧ ';' ∉ filename :=
    ⟨notMem_of_validChar valid (by decide), notMem_of_validChar valid (by decide)⟩
  obtain ⟨-, -, noReturn⟩ := disposition_plain
  have line : front ++ '\r' :: (disposition ++ '"' :: (filename ++ '"' :: '\r' :: later)) =
      front ++ '\r' :: ((disposition ++ '"' :: (filename ++ ['"'])) ++ '\r' :: later) := by simp
  have second : '\r' ∉ disposition ++ '"' :: (filename ++ ['"']) := by
    simp [noReturn, quoted]
  have field : (split (disposition ++ '"' :: (filename ++ ['"'])) ';')[2]? =
      some (" filename=".toList ++ '"' :: (filename ++ ['"'])) := by
    have last : ';' ∉ " filename=".toList ++ '"' :: (filename ++ ['"']) := by
      simp [quoted]
    have name : ';' ∉ ' ' :: "name=\"uploadfile\"".toList := by decide +kernel
    delta disposition
    rw [List.append_assoc, List.cons_append, split_line (by decide +kernel),
      List.cons_append, List.append_assoc, List.cons_append, ← List.cons_append, split_line name,
      split_last last (by simp)]
    rfl
  rw [getFileName, line, split_line plain, split_line second]
  have body : (split (disposition ++ '"' :: (filename ++ ['"'])) ';')[2]?.map betweenQuotes =
      some filename := by
    rw [field, Option.map_some, betweenQuotes_marked (by decide +kernel)]
  exact body

end Upload

theorem isUpload_upload (front later : Str) :
    isUpload (front ++ '\r' :: (disposition ++ later)) = true := by
  refine decide_eq_true ?_
  refine ⟨front ++ '\r' :: ("\nContent-Disposition: form-data".toList ++ [';', ' ']),
    ';' :: (" filename=".toList ++ later), ?_⟩
  delta disposition
  simp only [List.append_assoc, List.cons_append, List.nil_append]

/-! The branches of the handler -/

theorem search_newfolder {s : Str} (no : ¬ NamesFolder s) : search kNewfolderRegex s = none := by
  refine Option.not_isSome_iff_eq_none.mp ?_
  intro found
  exact no (search_word.mp found)

theorem searchTyped_mentions {word s : Str} (spelled : Spelled s) :
    (searchTyped word pathAndName s).isSome ↔ Mentions word s := by
  rw [searchTyped_isSome]
  constructor
  · rintro ⟨front, rest, rfl, found⟩
    obtain ⟨isFile, t, rfl, accepted⟩ := matchTyped_isSome.mp found
    have here : '=' ∈ t := (accepts_pathAndName fun c mem => spelled c (by simp [mem])).mp accepted
    exact ⟨front, isFile, t, rfl, here⟩
  · rintro ⟨front, isFile, t, rfl, mem⟩
    have accepted : Accepts pathAndName t :=
      (accepts_pathAndName fun c mem => spelled c (by simp [mem])).mpr mem
    exact ⟨front, _, rfl, matchTyped_isSome.mpr ⟨isFile, t, rfl, accepted⟩⟩

theorem searchTyped_none {word s : Str} (spelled : Spelled s) (no : ¬ Mentions word s) :
    searchTyped word pathAndName s = none := by
  refine Option.not_isSome_iff_eq_none.mp ?_
  intro found
  exact no ((searchTyped_mentions spelled).mp found)

theorem searchDelete_isSome {s : Str} : (searchDelete s).isSome ↔ NamesDeletion s := by
  rw [searchDelete, searchTyped_isSome]
  constructor
  · rintro ⟨front, rest, rfl, found⟩
    obtain ⟨isFile, t, rfl, accepted⟩ := matchTyped_isSome.mp found
    obtain ⟨u, rfl⟩ := accepts_equals.mp accepted
    exact ⟨front, isFile, u, rfl⟩
  · rintro ⟨front, isFile, u, rfl⟩
    exact ⟨front, _, rfl, matchTyped_isSome.mpr ⟨isFile, _, rfl, accepts_equals.mpr ⟨u, rfl⟩⟩⟩

/-- A text over the alphabet of the forms has no quotation mark. -/
theorem isUpload_spelled {s : Str} (spelled : Spelled s) : isUpload s = false := by
  refine decide_eq_false ?_
  intro infixed
  have mark : '"' ∈ s := infixed.subset (by decide +kernel)
  have odd : pathChar '"' = true := spelled _ mark
  exact absurd odd (by decide)

theorem storageHandler_newfolder {path reqBody : Str} {req : StorageServiceReq}
    (names : NamesFolder (httpParse reqBody))
    (made : storageHandler path reqBody = some (some req)) : req.type = .dirCreate := by
  obtain ⟨found, here⟩ := Option.isSome_iff_exists.mp (search_word.mpr names)
  have folder : search kNewfolderRegex (httpParse reqBody) = some found := here
  simp only [storageHandler, folder] at made
  obtain ⟨fp, -, same⟩ := Option.map_eq_some_iff.mp made
  split at same
  · cases same
    rfl
  · cases same

theorem storageHandler_upload {path reqBody filename content : Str}
    (no : ¬ NamesFolder (httpParse reqBody)) (upload : isUpload (httpParse reqBody) = true)
    (name : getFileName (httpParse reqBody) = some filename)
    (valid : validFilename filename = true) (body : getFileContent reqBody = some content) :
    storageHandler path reqBody = some (some (uploadFile (uploadedName path filename) content)) := by
  simp only [storageHandler, search_newfolder no, upload, name, body, valid, if_true,
    Option.bind_some, Option.map_some]

section Short

variable {path reqBody : Str} (spelled : Spelled (httpParse reqBody))
  (no : ¬ NamesFolder (httpParse reqBody))
include spelled no

theorem storageHandler_rename {isFile : Bool} {fp newName : Str}
    (found : searchRename (httpParse reqBody) = some (isFile, [fp, newName])) :
    storageHandler path reqBody = some (some ((Form.rename isFile fp newName).request path)) := by
  simp only [storageHandler, search_newfolder no, isUpload_spelled spelled, found]
  rfl

theorem storageHandler_move {isFile : Bool} {fp newDir : Str}
    (noRename : searchRename (httpParse reqBody) = none)
    (found : searchMove (httpParse reqBody) = some (isFile, [fp, newDir])) :
    storageHandler path reqBody = some (some ((Form.move isFile fp newDir).request path)) := by
  simp only [storageHandler, search_newfolder no, isUpload_spelled spelled, noRename, found]
  rfl

theorem storageHandler_delete {isFile : Bool} {fp : Str}
    (noRename : searchRename (httpParse reqBody) = none)
    (noMove : searchMove (httpParse reqBody) = none)
    (found : searchDelete (httpParse reqBody) = some (isFile, [fp])) :
    storageHandler path reqBody = some (some ((Form.delete isFile fp).request path)) := by
  simp only [storageHandler, search_newfolder no, isUpload_spelled spelled, noRename, noMove, found]
  rfl

theorem storageHandler_download {fp : Str} {found : Match}
    (noRename : searchRename (httpParse reqBody) = none)
    (noMove : searchMove (httpParse reqBody) = none)
    (noDelete : searchDelete (httpParse reqBody) = none)
    (here : search kDownloadRegex (httpParse reqBody) = some found)
    (captured : found.captures = [fp]) :
    storageHandler path reqBody = some (some ((Form.download fp).request path)) := by
  simp only [storageHandler, search_newfolder no, isUpload_spelled spelled, noRename, noMove,
    noDelete, here, captured]
  rfl

end Short

/-! Every form -/

theorem Spelled.append {s t : Str} (first : Spelled s) (second : Spelled t) : Spelled (s ++ t) := by
  intro c mem
  rcases List.mem_append.mp mem with left | right
  · exact first c left
  · exact second c right

theorem spelled_typed {word s : Str} (first : Spelled word) (isFile : Bool) (second : Spelled s) :
    Spelled (word ++ (typeName isFile ++ s)) := by
  have type : Spelled (typeName isFile) := by
    cases isFile
    · exact (by decide : ∀ c ∈ typeName false, pathChar c = true)
    · exact (by decide : ∀ c ∈ typeName true, pathChar c = true)
  exact first.append (type.append second)

theorem spelled_equals {s : Str} (spelled : Spelled s) : Spelled ('=' :: s) :=
  List.forall_mem_cons.mpr ⟨by decide, spelled⟩

theorem searchTyped_form {word fp newName : Str} (isFile : Bool) (path : Spelled fp)
    (name : Spelled newName) (plain : '=' ∉ newName) :
    searchTyped word pathAndName (word ++ (typeName isFile ++ (fp ++ '=' :: newName))) =
      some (isFile, [fp, newName]) := by
  obtain ⟨n, found⟩ := matchItems_pathAndName path name plain
  exact searchTyped_front (matchTyped_front isFile found)

/-- The last equality sign of a text. -/
theorem last_equals {s : Str} (mem : '=' ∈ s) : ∃ front back, s = front ++ '=' :: back ∧
    '=' ∉ back := by
  obtain ⟨as, bs, same, absent⟩ := List.eq_append_cons_of_mem (List.mem_reverse.mpr mem)
  refine ⟨bs.reverse, as.reverse, ?_, ?_⟩
  · rw [← List.reverse_reverse s, same]
    simp
  · intro here
    exact absent (List.mem_reverse.mp here)

/-- A form with an equality sign in its second text is read as one with a shorter text. -/
theorem searchTyped_other {word fp newName : Str} (isFile : Bool) (path : Spelled fp)
    (name : Spelled newName) (mem : '=' ∈ newName) : ∃ other, other ≠ newName ∧ ∃ longer,
    searchTyped word pathAndName (word ++ (typeName isFile ++ (fp ++ '=' :: newName))) =
      some (isFile, [longer, other]) := by
  obtain ⟨front, back, rfl, absent⟩ := last_equals mem
  have left : Spelled front := fun c mem => name c (List.mem_append_left _ mem)
  have right : Spelled back := fun c mem => name c (by simp [mem])
  have found : searchTyped word pathAndName
      (word ++ (typeName isFile ++ ((fp ++ '=' :: front) ++ '=' :: back))) =
      some (isFile, [fp ++ '=' :: front, back]) :=
    searchTyped_form isFile (path.append (spelled_equals left)) right absent
  rw [List.append_assoc, List.cons_append] at found
  refine ⟨back, ?_, _, found⟩
  intro same
  rw [same] at absent
  exact absent (by simp)

theorem request_type_ne (form : Form) (path : Str) : (form.request path).type ≠ .dirCreate := by
  cases form with
  | upload => exact nofun
  | download => exact nofun
  | rename isFile => cases isFile <;> exact nofun
  | move isFile => cases isFile <;> exact nofun
  | delete isFile => cases isFile <;> exact nofun

/-- A form that is performed does not have the first of the words in it. -/
theorem no_newfolder (form : Form) {path reqBody : Str}
    (made : storageHandler path reqBody = some (some (form.request path))) :
    ¬ NamesFolder (httpParse reqBody) := by
  intro names
  exact request_type_ne form path (storageHandler_newfolder names made)

theorem upload_iff {boundary filename extra content path : Str}
    (fits : (Form.upload boundary filename extra content).Fits) :
    storageHandler path (Form.upload boundary filename extra content).text =
        some (some (uploadFile (uploadedName path filename) content)) ↔
      ¬ NamesFolder (httpParse (Form.upload boundary filename extra content).text) := by
  obtain ⟨valid, ⟨noReturn, noPercent⟩, lines, ⟨noBlank, lineOpen⟩, small⟩ := fits
  constructor
  · exact no_newfolder (.upload boundary filename extra content)
  · intro no
    obtain ⟨later, decoded⟩ := httpParse_header valid noPercent lines (content ++ closing boundary)
    have first : '\r' ∉ (dashes ++ boundary).map plusToBlank := by
      intro mem
      obtain ⟨c, there, same⟩ := List.mem_map.mp mem
      rw [plusToBlank] at same
      split at same
      · cases same
      · subst same
        simp [dashes, noReturn] at there
    have upload := isUpload_upload ((dashes ++ boundary).map plusToBlank)
      ('"' :: (filename ++ '"' :: '\r' :: later))
    have name : getFileName ((dashes ++ boundary).map plusToBlank ++
        '\r' :: (disposition ++ '"' :: (filename ++ '"' :: '\r' :: later))) = some filename :=
      getFileName_upload valid first
    rw [← decoded] at upload name
    have body : getFileContent (Form.upload boundary filename extra content).text = some content :=
      getFileContent_closing (find_blankLine noBlank lineOpen) noReturn small
    exact storageHandler_upload no upload name valid body

theorem performed_rename (isFile : Bool) {fp newName path reqBody : Str}
    (fits : (Form.rename isFile fp newName).Fits)
    (sent : httpParse reqBody = (Form.rename isFile fp newName).text) :
    storageHandler path reqBody = some (some ((Form.rename isFile fp newName).request path)) ↔
      (Form.rename isFile fp newName).Unambiguous := by
  obtain ⟨old, new⟩ := fits
  have spelled : Spelled (httpParse reqBody) := by
    rw [sent]
    exact spelled_typed (by decide) isFile (old.append (spelled_equals new))
  constructor
  · intro made
    have no := no_newfolder _ made
    refine ⟨by rwa [sent] at no, ?_⟩
    intro mem
    obtain ⟨other, ne, longer, found⟩ := searchTyped_other isFile old new mem
    rw [storageHandler_rename spelled no (by rw [sent]; exact found)] at made
    cases isFile <;> (cases made; exact ne rfl)
  · rintro ⟨no, plain⟩
    rw [← sent] at no
    refine storageHandler_rename spelled no ?_
    rw [sent]
    exact searchTyped_form isFile old new plain

section Mentioned

variable {path reqBody : Str} {req : StorageServiceReq} (spelled : Spelled (httpParse reqBody))
  (made : storageHandler path reqBody = some (some req)) (no : ¬ NamesFolder (httpParse reqBody))
include spelled made no

/-- A form that mentions a renaming is taken for one. -/
theorem not_mentions_rename (other : req.type ≠ .fileRename ∧ req.type ≠ .dirRename) :
    ¬ Mentions "rename".toList (httpParse reqBody) := by
  intro mentions
  obtain ⟨⟨isFile, captures⟩, here⟩ :=
    Option.isSome_iff_exists.mp ((searchTyped_mentions spelled).mpr mentions)
  have found : searchRename (httpParse reqBody) = some (isFile, captures) := here
  simp only [storageHandler, search_newfolder no, isUpload_spelled spelled, found] at made
  cases isFile <;> cases made
  · exact other.2 rfl
  · exact other.1 rfl

variable (noRename : ¬ Mentions "rename".toList (httpParse reqBody))
include noRename

theorem not_mentions_move (other : req.type ≠ .fileMove ∧ req.type ≠ .dirMove) :
    ¬ Mentions "move".toList (httpParse reqBody) := by
  intro mentions
  obtain ⟨⟨isFile, captures⟩, here⟩ :=
    Option.isSome_iff_exists.mp ((searchTyped_mentions spelled).mpr mentions)
  have found : searchMove (httpParse reqBody) = some (isFile, captures) := here
  have none : searchRename (httpParse reqBody) = .none := searchTyped_none spelled noRename
  simp only [storageHandler, search_newfolder no, isUpload_spelled spelled, none, found] at made
  cases isFile <;> cases made
  · exact other.2 rfl
  · exact other.1 rfl

theorem not_namesDeletion (noMove : ¬ Mentions "move".toList (httpParse reqBody))
    (other : req.type ≠ .fileDele ∧ req.type ≠ .dirDele) :
    ¬ NamesDeletion (httpParse reqBody) := by
  intro names
  obtain ⟨⟨isFile, captures⟩, found⟩ :=
    Option.isSome_iff_exists.mp (searchDelete_isSome.mpr names)
  have first : searchRename (httpParse reqBody) = none := searchTyped_none spelled noRename
  have second : searchMove (httpParse reqBody) = none := searchTyped_none spelled noMove
  simp only [storageHandler, search_newfolder no, isUpload_spelled spelled, first, second,
    found] at made
  cases isFile <;> cases made
  · exact other.2 rfl
  · exact other.1 rfl

end Mentioned

theorem performed_move (isFile : Bool) {fp newDir path reqBody : Str}
    (fits : (Form.move isFile fp newDir).Fits)
    (sent : httpParse reqBody = (Form.move isFile fp newDir).text) :
    storageHandler path reqBody = some (some ((Form.move isFile fp newDir).request path)) ↔
      (Form.move isFile fp newDir).Unambiguous := by
  obtain ⟨old, new⟩ := fits
  have spelled : Spelled (httpParse reqBody) := by
    rw [sent]
    exact spelled_typed (by decide) isFile (old.append (spelled_equals new))
  constructor
  · intro made
    have no := no_newfolder _ made
    have noRename : ¬ Mentions "rename".toList (httpParse reqBody) :=
      not_mentions_rename spelled made no (by cases isFile <;> exact ⟨nofun, nofun⟩)
    refine ⟨by rwa [sent] at no, by rwa [sent] at noRename, ?_⟩
    intro mem
    obtain ⟨other, ne, longer, found⟩ := searchTyped_other isFile old new mem
    rw [storageHandler_move spelled no (searchTyped_none spelled noRename)
      (by rw [sent]; exact found)] at made
    cases isFile <;> (cases made; exact ne rfl)
  · rintro ⟨no, noRename, plain⟩
    rw [← sent] at no noRename
    refine storageHandler_move spelled no (searchTyped_none spelled noRename) ?_
    rw [sent]
    exact searchTyped_form isFile old new plain

theorem performed_delete (isFile : Bool) {fp path reqBody : Str}
    (old : Spelled fp) (sent : httpParse reqBody = (Form.delete isFile fp).text) :
    storageHandler path reqBody = some (some ((Form.delete isFile fp).request path)) ↔
      (Form.delete isFile fp).Unambiguous := by
  have spelled : Spelled (httpParse reqBody) := by
    rw [sent]
    exact spelled_typed (by decide) isFile (spelled_equals old)
  constructor
  · intro made
    have no := no_newfolder _ made
    have noRename : ¬ Mentions "rename".toList (httpParse reqBody) :=
      not_mentions_rename spelled made no (by cases isFile <;> exact ⟨nofun, nofun⟩)
    have noMove : ¬ Mentions "move".toList (httpParse reqBody) :=
      not_mentions_move spelled made no noRename (by cases isFile <;> exact ⟨nofun, nofun⟩)
    rw [sent] at no noRename noMove
    exact ⟨no, noRename, noMove⟩
  · rintro ⟨no, noRename, noMove⟩
    rw [← sent] at no noRename noMove
    have captured : matchItems onlyPath ('=' :: fp) = some ([fp], fp.length + 1) := by
      have found := matchItems_lit "=".toList [.run 0 pathChar] fp
      rw [matchItems_run old] at found
      exact found
    refine storageHandler_delete spelled no (searchTyped_none spelled noRename)
      (searchTyped_none spelled noMove) ?_
    rw [sent]
    exact searchTyped_front (matchTyped_front isFile captured)

theorem performed_download {fp path reqBody : Str} (old : Spelled fp)
    (sent : httpParse reqBody = (Form.download fp).text) :
    storageHandler path reqBody = some (some ((Form.download fp).request path)) ↔
      (Form.download fp).Unambiguous := by
  have spelled : Spelled (httpParse reqBody) := by
    rw [sent]
    exact Spelled.append (by decide) old
  constructor
  · intro made
    have no := no_newfolder _ made
    have noRename : ¬ Mentions "rename".toList (httpParse reqBody) :=
      not_mentions_rename spelled made no ⟨nofun, nofun⟩
    have noMove : ¬ Mentions "move".toList (httpParse reqBody) :=
      not_mentions_move spelled made no noRename ⟨nofun, nofun⟩
    have noDelete : ¬ NamesDeletion (httpParse reqBody) :=
      not_namesDeletion spelled made no noRename noMove ⟨nofun, nofun⟩
    rw [sent] at no noRename noMove noDelete
    exact ⟨no, noRename, noMove, noDelete⟩
  · rintro ⟨no, noRename, noMove, noDelete⟩
    rw [← sent] at no noRename noMove noDelete
    have here : search kDownloadRegex (Form.download fp).text =
        some ⟨0, fp.length + "download=".toList.length, [fp]⟩ := by
      refine search_of_matchItems ?_
      have found := matchItems_lit "download=".toList [.run 0 pathChar] fp
      rw [matchItems_run old] at found
      exact found
    rw [← sent] at here
    exact storageHandler_download spelled no (searchTyped_none spelled noRename)
      (searchTyped_none spelled noMove)
      (Option.not_isSome_iff_eq_none.mp (noDelete ∘ searchDelete_isSome.mp)) here rfl

/-- A form is performed as it was filled in exactly where it is unambiguous. -/
theorem performed_iff (form : Form) (path reqBody : Str) (fits : form.Fits)
    (sent : form.Sent reqBody) :
    storageHandler path reqBody = some (some (form.request path)) ↔ form.Unambiguous := by
  cases form with
  | upload boundary filename extra content =>
    obtain rfl : reqBody = _ := sent
    exact upload_iff fits
  | rename isFile fp newName => exact performed_rename isFile fits sent
  | move isFile fp newDir => exact performed_move isFile fits sent
  | delete isFile fp => exact performed_delete isFile fits sent
  | download fp => exact performed_download fits sent

/-- An upload, and the renaming of a file with an equality sign in its path. -/
theorem performed_upload_and_rename :
    storageHandler "/file/d".toList
      (Form.upload "b-".toList "a.txt".toList [] "move=1\r\n".toList).text =
      some (some (uploadFile "/d/a.txt".toList "move=1\r\n".toList)) ∧
    storageHandler "/file".toList "renamefile%2Fa%3Db=c".toList =
      some (some (renameFile "/a=b".toList ['c'])) := by
  constructor
  · have fits : (Form.upload "b-".toList "a.txt".toList [] "move=1\r\n".toList).Fits :=
      ⟨by decide +kernel, by decide +kernel, nofun, by decide +kernel, by decide +kernel⟩
    refine (performed_iff _ "/file/d".toList _ fits rfl).mpr ?_
    rw [Form.Unambiguous, NamesFolder]
    decide +kernel
  · have fits : (Form.rename true "/a=b".toList ['c']).Fits := ⟨by decide +kernel, by decide +kernel⟩
    have sent : httpParse "renamefile%2Fa%3Db=c".toList =
        (Form.rename true "/a=b".toList ['c']).text := by decide +kernel
    refine (performed_iff _ "/file".toList _ fits sent).mpr ?_
    rw [Form.Unambiguous, NamesFolder]
    decide +kernel

/-- The renaming of a folder named `newfolder` makes a folder with the new name. -/
theorem not_performed : ¬ ∀ (form : Form) (path reqBody : Str), form.Fits → form.Sent reqBody →
    storageHandler path reqBody = some (some (form.request path)) := by
  intro performed
  have fits : (Form.rename false "/newfolder".toList ['x']).Fits :=
    ⟨by decide +kernel, by decide +kernel⟩
  have sent : httpParse "renamefolder%2Fnewfolder=x".toList =
      (Form.rename false "/newfolder".toList ['x']).text := by decide +kernel
  have made := performed _ "/file".toList _ fits sent
  have created : storageHandler "/file".toList "renamefolder%2Fnewfolder=x".toList =
      some (some (createDir ['/', 'x'])) := by decide +kernel
  rw [created] at made
  cases made

end StorageForms
