import PennCloud.KvInterface
import PennCloud.Pattern
import PennCloud.UnorderedMap

/-!
# The directory tree of a storage handler

The first half of `storage.h`: directory entries, the metadata text they are
written to and parsed from, and the lookup of a path. An entry is an object in
memory; pointers to it are kept by its parent, by its children and in the map
from ids. A function is `none` where the source throws, follows a null, freed or
uninitialised pointer, or does not end; recursions over the graph of pointers
take fuel.
-/

namespace StorageMetadata

open Text Pattern KvInterface UnorderedMap

abbrev Ptr := Nat

/-- `Dirent`. The parent is not initialised by the constructor. `GetEntry` leaves a null
pointer behind where there is no entry. -/
structure Dirent where
  relativePath : Str
  id : Nat
  isFile : Bool
  parent : Option Ptr := none
  isRoot : Bool := false
  entries : UMap Str (Option Ptr) := ∅

/-- `StorageHandler`, with the objects it has allocated. The root is not initialised by the
constructor, and there is no id before the metadata is parsed. -/
structure Handler where
  usr : Str
  backendFd : Int
  metadataStr : Str := []
  root : Option Ptr := none
  directories : UMap Nat Ptr := ∅
  latestId : Option Nat := none
  memory : UMap Ptr Dirent := ∅
  nextPtr : Ptr := 0

/-- What a run of the handler depends on besides its input: the order of the entry maps, and a
bound on the recursions. -/
structure Env where
  it : Iteration Ptr
  fuel : Nat

/-! Objects -/

/-- Follow a pointer, which may be null. -/
def Handler.deref (h : Handler) (p : Option Ptr) : Option Dirent := p.bind h.memory.lookup

def Handler.update (h : Handler) (p : Option Ptr) (f : Dirent → Dirent) : Option Handler :=
  p.bind fun q => (h.memory.lookup q).map fun d => { h with memory := h.memory.insert q (f d) }

/-- `std::make_unique<Dirent>`. -/
def Handler.allocate (h : Handler) (d : Dirent) : Handler × Ptr :=
  ({ h with memory := h.memory.insert h.nextPtr d, nextPtr := h.nextPtr + 1 }, h.nextPtr)

def Handler.free (h : Handler) (p : Option Ptr) : Handler :=
  match p with
  | some q => { h with memory := h.memory.erase q }
  | none => h

def Dirent.addEntry (name : Str) (entry : Option Ptr) (d : Dirent) : Dirent :=
  { d with entries := d.entries.insert name entry }

def Dirent.deleteEntry (name : Str) (d : Dirent) : Dirent :=
  { d with entries := d.entries.erase name }

def Dirent.updateParent (parent : Option Ptr) (d : Dirent) : Dirent := { d with parent := parent }

def Dirent.updateRelativePath (name : Str) (d : Dirent) : Dirent := { d with relativePath := name }

def Dirent.setIsRoot (d : Dirent) : Dirent := { d with isRoot := true }

def Dirent.hasEntry (d : Dirent) (name : Str) : Bool := (d.entries.lookup name).isSome

def Dirent.type (d : Dirent) : Str := if d.isFile then "F".toList else "D".toList

/-- `GetEntry`, whose subscript adds a null pointer where there is no entry. -/
def Handler.getEntry (h : Handler) (p : Option Ptr) (name : Str) : Option (Option Ptr × Handler) :=
  (h.deref p).bind fun d =>
    match d.entries.lookup name with
    | some entry => some (entry, h)
    | none => (h.update p (Dirent.addEntry name none)).map fun h => (none, h)

/-- `Path`. -/
def pathOf (h : Handler) : Nat → Option Ptr → Option Str
  | 0, _ => none
  | fuel + 1, p =>
    (h.deref p).bind fun d =>
      if d.isRoot then some ('/' :: d.relativePath)
      else d.parent.bind fun parent =>
        (pathOf h fuel (some parent)).map fun path => path ++ '/' :: d.relativePath

def Handler.path (env : Env) (h : Handler) (p : Option Ptr) : Option Str := pathOf h env.fuel p

/-- `FindOrCreateDirMapping`. An object of the id is taken as it is. -/
def Handler.findOrCreateDirMapping (h : Handler) (id : Nat) (entryName : Str) (isFile : Bool) :
    Handler × Ptr :=
  match h.directories.lookup id with
  | some p => (h, p)
  | none =>
    let made := h.allocate { relativePath := entryName, id := id, isFile := isFile }
    ({ made.1 with directories := made.1.directories.insert id made.2 }, made.2)

/-! Writing the metadata -/

def showInt : Int → Str
  | .ofNat n => toDecimal n
  | .negSucc n => '-' :: toDecimal (n + 1)

/-- `latest_id_`, which is -1 before it is read. -/
def showLatest : Option Nat → Str
  | some id => toDecimal id
  | none => "-1".toList

/-- The line of an entry: its name in the directory, its id and its type. -/
def entryLine (name : Str) (entry : Dirent) : Str :=
  name ++ (" ID ".toList ++ (toDecimal entry.id ++ (' ' :: (entry.type ++ ['\n']))))

/-- The loop over the entries of a directory: their lines, and the directories among them. -/
def writeEntries (h : Handler) : List (Str × Option Ptr) → Option (Str × List (Option Ptr))
  | [] => some ([], [])
  | (name, p) :: rest =>
    (h.deref p).bind fun entry => (writeEntries h rest).map fun r =>
      (entryLine name entry ++ r.1, if entry.isFile then r.2 else p :: r.2)

/-- The header of a directory and its entries. -/
def writeFolder (env : Env) (h : Handler) (header : Str) (p : Option Ptr) :
    Option (Str × List (Option Ptr)) :=
  (h.deref p).bind fun d => (h.path env p).bind fun path =>
    (writeEntries h (env.it.pairs (p.getD 0) d.entries)).map fun r =>
      (header ++ (path ++ (" ID ".toList ++ (toDecimal d.id ++ (" Items ".toList ++
        (toDecimal d.entries.keys.length ++ ('\n' :: r.1)))))), r.2)

/-- The queue of `GetMetadataStr`. -/
def writeQueue (env : Env) (h : Handler) : Nat → List (Option Ptr) → Option Str
  | _, [] => some []
  | 0, _ :: _ => none
  | fuel + 1, p :: queue =>
    (writeFolder env h "Folder: ".toList p).bind fun r =>
      (writeQueue env h fuel (queue ++ r.2)).map fun rest => r.1 ++ rest

def Handler.getMetadataStr (env : Env) (h : Handler) : Option Str :=
  (writeFolder env h "Root folder: ".toList h.root).bind fun r =>
    (writeQueue env h env.fuel r.2).map fun rest =>
      "Latest ID: ".toList ++ (showLatest h.latestId ++ ('\n' :: (r.1 ++ rest)))

/-! Reading the metadata -/

def pathChar (c : Char) : Bool :=
  c.isAlphanum || c = '_' || c = '.' || c = '/' || c = '-' || c = '+' || c = '='

def kLatestIdRegex : List Item :=
  lit "Latest".toList ++ blank :: (lit "ID:".toList ++ blank :: [.run 1 Char.isDigit])

/-- The two folder headers differ in their first words. -/
def folderRegex (words : Str) : List Item :=
  lit words ++ blank :: .one (· == '/') :: .run 0 pathChar :: blank :: (lit "ID".toList ++
    blank :: .run 1 Char.isDigit :: blank :: (lit "Items".toList ++ blank ::
    [.run 1 Char.isDigit]))

def kRootFolderEntryRegex : List Item := folderRegex "Root folder:".toList
def kFolderEntryRegex : List Item := folderRegex "Folder:".toList

/-- The last group of the source is a single character; that is checked where it is read. -/
def kFolderContentRegex : List Item :=
  .run 0 pathChar :: blank :: (lit "ID".toList ++ blank :: .run 1 Char.isDigit :: blank ::
    [.run 1 fun c => c = 'F' || c = '|' || c = 'D'])

/-- `ParseDirEntry`. A line that does not match is passed over. -/
def Handler.parseDirEntry (env : Env) (h : Handler) (parent : Ptr) (entryStr : Str) :
    Option Handler :=
  match matchWhole kFolderContentRegex entryStr with
  | some [name, number, [type]] =>
    (stoi number).bind fun id => (h.path env (some parent)).bind fun _ =>
      let found := h.findOrCreateDirMapping id name (type = 'F')
      (found.1.update (some parent) (Dirent.addEntry name (some found.2))).bind fun h =>
        h.update (some found.2) (Dirent.updateParent (some parent))
  | _ => some h

/-- The items of a directory, up to the end of the text, and the lines after them. -/
def parseItems (env : Env) (parent : Ptr) : Nat → List Str → Handler →
    Option (Handler × List Str)
  | 0, lines, h => some (h, lines)
  | _ + 1, [], h => some (h, [])
  | n + 1, line :: lines, h =>
    (h.parseDirEntry env parent line).bind fun h => parseItems env parent n lines h

/-- The last component of a path. -/
def lastName (path : Str) : Str := (path.reverse.takeWhile (· ≠ '/')).reverse

/-- `ParseDirectory`, on what its header captured after the first slash. -/
def Handler.parseDirectory (env : Env) (h : Handler) (captures : List Str) (isRoot : Bool)
    (lines : List Str) : Option (Handler × Ptr × List Str) :=
  match captures with
  | [path, number, items] =>
    (stoi number).bind fun id => (stoi items).bind fun count =>
      let found := h.findOrCreateDirMapping id (lastName path) false
      (if isRoot then found.1.update (some found.2) Dirent.setIsRoot else some found.1).bind
        fun h => (parseItems env found.2 count lines h).map fun r => (r.1, found.2, r.2)
  | _ => none

/-- The loop of `ParseMetadataFile`. Each turn takes a line, so the fuel is the number of lines. -/
def parseLines (env : Env) : Nat → List Str → Handler → Option Handler
  | 0, _, h => some h
  | _ + 1, [], h => some h
  | fuel + 1, line :: lines, h =>
    match matchWhole kLatestIdRegex line with
    | some captures =>
      (stoi (captures.headD [])).bind fun id =>
        parseLines env fuel lines { h with latestId := some id }
    | none =>
      match matchWhole kRootFolderEntryRegex line with
      | some captures =>
        (h.parseDirectory env captures true lines).bind fun r =>
          parseLines env fuel r.2.2 { r.1 with root := some r.2.1 }
      | none =>
        match matchWhole kFolderEntryRegex line with
        | some captures =>
          (h.parseDirectory env captures false lines).bind fun r => parseLines env fuel r.2.2 r.1
        | none => parseLines env fuel lines h

/-- `ParseMetadataFile`, which adds to the tree that is there. -/
def Handler.parseMetadataFile (env : Env) (h : Handler) : Option (Bool × Handler) :=
  if h.metadataStr = [] then some (false, h)
  else
    let lines := split h.metadataStr '\n'
    (parseLines env lines.length lines h).map fun h => (true, h)

/-! Paths -/

/-- What `ValidatePathAndGetDir` returns and leaves in its arguments. -/
structure Found where
  valid : Bool
  parentDir : Option Ptr
  dir : Option Ptr
  relativePath : Str
  handler : Handler

/-- The components of the path, from a directory down. The characters of the component that is
being read come first. -/
def walk (h : Handler) (parent : Option Ptr) (relativePath : Str) : Str → Str → Option Found
  | token, [] =>
    let name := if token = [] then relativePath else token
    (if token = [] then some true else (h.deref parent).map fun d => d.hasEntry token).bind
      fun known =>
        if known then
          (h.getEntry parent name).map fun r => ⟨true, parent, r.1, name, r.2⟩
        else some ⟨false, parent, none, name, h⟩
  | token, c :: cs =>
    if c = '/' then
      if token = [] then walk h parent relativePath [] cs
      else (h.deref parent).bind fun d =>
        match d.entries.lookup token with
        | some entry => walk h entry token [] cs
        | none => some ⟨false, none, none, token, h⟩
    else walk h parent relativePath (token ++ [c]) cs

def Handler.validatePathAndGetDir (h : Handler) (path : Str) : Option Found :=
  if path = "/".toList then some ⟨true, h.root, h.root, [], h⟩
  else walk h h.root [] [] path

end StorageMetadata
