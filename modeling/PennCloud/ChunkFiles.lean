import PennCloud.KvInterface
import PennCloud.UnorderedMap

/-!
# The chunk files of a user

`chunk.h`: a user's folder holds numbered chunk files with key-value records,
the index of the chunk being filled, the chunk of each key, and during a
checkpoint the records to delete. A function is `none` where the source throws
or reads past the end of a vector.
-/

namespace ChunkFiles

open Text FileTree KvInterface UnorderedMap

/-- The loops over hash maps of a checkpoint. -/
inductive Loop where
  | updates
  | kvMap (user : Str)
  | metadata (user : Str)
  | delMap (user : Str)
  deriving DecidableEq

abbrev KvMap := UMap Str Str

def SIZE_LIMIT : Nat := 67108864

/-- `struct Chunk`. The two counters have no initial value in the source, and are not
used before `init` has set them, except on a folder that is not there. -/
structure Chunk where
  appendIndex : Nat
  currentSize : Nat
  usr : Str
  folder : Str
  metadata : UMap Str Nat
  delList : List (Str × Nat)

/-- A file of the folder. -/
def Chunk.path (c : Chunk) (name : Str) : Path := resolve (c.folder ++ '/' :: name)

def chunkName (index : Nat) : Str := "chunk-".toList ++ toDecimal index

/-- The lines of `chunk_metadata` and of `delete_list`: a key, then its chunk. -/
def readPairs : List Str → Option (List (Str × Nat))
  | key :: value :: rest =>
    (stoull value).bind fun index => (readPairs rest).map fun pairs => (key, index) :: pairs
  | _ => some []

def readIndex (text : Str) : Option (Nat × Nat) :=
  match split text '\n' with
  | index :: size :: _ => (stoull index).bind fun i => (stoull size).map fun s => (i, s)
  | _ => none

def init (t : Tree) (PREFIX usr : Str) : Option (KvState × Chunk) :=
  let folder := PREFIX ++ usr
  let fresh : Chunk := ⟨0, 0, usr, folder, ∅, []⟩
  if t.lookup (resolve folder) = none then some (.userError, fresh)
  else
    let counters := match content t (fresh.path "chunk_index".toList) with
      | some text => readIndex text
      | none => some (0, 0)
    let pairs := match content t (fresh.path "chunk_metadata".toList) with
      | some text => readPairs (split text '\n')
      | none => some []
    counters.bind fun counter => pairs.map fun entries =>
      (.finished, { fresh with
        appendIndex := counter.1
        currentSize := counter.2
        metadata := entries.foldl (fun m e => m.insert e.1 e.2) ∅ })

/-- The records of a chunk file: a key line, a size line, and that many bytes. -/
def readRecords : Nat → Str → Option (List (Str × Str))
  | 0, _ => some []
  | fuel + 1, text =>
    if text = [] then some []
    else
      let key := getLine '\n' text
      let size := getLine '\n' key.2
      (stoull size.1).bind fun n =>
        (readRecords fuel (size.2.drop n)).map fun records => (key.1, size.2.take n) :: records

/-- `load_chunk`. Each record consumes a character, so the fuel suffices. -/
def loadChunk (text : Str) : Option (List (Str × Str)) := readRecords text.length text

/-- The loop of `get_value`: each record of the key overwrites the value found before. -/
def findRecord (records : List (Str × Str)) (key : Str) : Option Str :=
  records.foldl (fun found r => if r.1 = key then some r.2 else found) none

def Chunk.getValue (c : Chunk) (t : Tree) (key : Str) : Option (KvState × Str) :=
  match c.metadata.lookup key with
  | none => some (.keyError, [])
  | some index =>
    match content t (c.path (chunkName index)) with
    | none => some (.keyError, [])
    | some text => (loadChunk text).map fun records =>
      match findRecord records key with
      | some value => (.finished, value)
      | none => (.keyError, [])

/-- `get_all_kv`. The status of `get_value` is not looked at. -/
def Chunk.getAllKv (c : Chunk) (t : Tree) : Option KvMap :=
  c.metadata.entries.foldlM (fun ret e => (c.getValue t e.1).map fun r => ret.insert e.1 r.2) ∅

/-- The text `append_kv` writes. -/
def appendKv (key value : Str) : Str :=
  key ++ '\n' :: (toDecimal value.length ++ '\n' :: value)

/-- `tellp` of the stream at the end of a chunk file; a stream that is not open gives -1. -/
def tellp (t : Tree) (p : Path) : Nat :=
  match content t p with
  | some text => text.length
  | none => 18446744073709551615

/-- One turn of the loop of `append_kvs`. The open file is always the one of `append_index`. -/
def Chunk.appendOne (limit : Nat) (cj : Chunk × Journal) (e : Str × Str) : Chunk × Journal :=
  let c := cj.1
  if e.2 = [] then
    ({ c with
        delList := c.delList ++ [(e.1, at' c.metadata e.1 0)]
        metadata := c.metadata.erase e.1 }, cj.2)
  else
    let file := c.path (chunkName c.appendIndex)
    let delList := match c.metadata.lookup e.1 with
      | some index => c.delList ++ [(e.1, index)]
      | none => c.delList
    let j := cj.2.perform (.append file (appendKv e.1 e.2))
    let c := { c with delList := delList, metadata := c.metadata.insert e.1 c.appendIndex }
    if limit < tellp j.tree file then
      ({ c with appendIndex := c.appendIndex + 1, currentSize := 0 },
        j.perform (.append (c.path (chunkName (c.appendIndex + 1))) []))
    else ({ c with currentSize := tellp j.tree file }, j)

def pairLines (pairs : List (Str × Nat)) : Str :=
  pairs.flatMap fun e => e.1 ++ '\n' :: (toDecimal e.2 ++ ['\n'])

def indexText (index size : Nat) : Str := toDecimal index ++ '\n' :: toDecimal size

def Chunk.writeMetaBack (it : Iteration Loop) (c : Chunk) (j : Journal) : Journal :=
  j.performAll [
    .write (c.path "chunk_index".toList) (indexText c.appendIndex c.currentSize),
    .write (c.path "chunk_metadata".toList) (pairLines (it.pairs (.metadata c.usr) c.metadata)),
    .append (c.path "delete_list".toList) (pairLines c.delList)]

/-- `del_mp[value][key] += 1` for each line of the delete list. -/
def countDeletes (pairs : List (Str × Nat)) : UMap Nat (UMap Str Nat) :=
  pairs.foldl (fun m e => set2 m e.2 e.1 ((find2 m e.2 e.1).getD 0 + 1)) ∅

/-- Erase each record whose key still has a count, counting down. -/
def dropCounted : UMap Str Nat → List (Str × Str) → List (Str × Str)
  | _, [] => []
  | counts, r :: rest =>
    if 0 < at' counts r.1 0 then dropCounted (counts.insert r.1 (at' counts r.1 0 - 1)) rest
    else r :: dropCounted counts rest

def chunkText (records : List (Str × Str)) : Str := records.flatMap fun r => appendKv r.1 r.2

/-- Rewrite one chunk file without the records to delete. -/
def Chunk.rewriteChunk (c : Chunk) (j : Journal) (e : Nat × UMap Str Nat) : Option Journal :=
  let path := c.path (chunkName e.1)
  let records := match content j.tree path with
    | some text => loadChunk text
    | none => some []
  records.map fun rs => j.perform (.write path (chunkText (dropCounted e.2 rs)))

def Chunk.lazyDelete (it : Iteration Loop) (c : Chunk) (j : Journal) : Option Journal :=
  match content j.tree (c.path "delete_list".toList) with
  | none => some j
  | some text =>
    (readPairs (split text '\n')).bind fun pairs =>
      ((it.pairs (.delMap c.usr) (countDeletes pairs)).foldlM c.rewriteChunk j).map fun j =>
        j.performAll (removeFile (c.folder ++ "/delete_list".toList))

def Chunk.appendKvs (it : Iteration Loop) (limit : Nat) (c : Chunk) (mp : KvMap) (j : Journal) :
    Option Journal :=
  let j := j.perform (.append (c.path (chunkName c.appendIndex)) [])
  let cj := (it.pairs (.kvMap c.usr) mp).foldl (Chunk.appendOne limit) (c, j)
  cj.1.lazyDelete it (cj.1.writeMetaBack it cj.2)

end ChunkFiles
