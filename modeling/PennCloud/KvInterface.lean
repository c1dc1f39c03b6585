import PennCloud.FileTree

/-!
# Commands, replies and configuration of a backend node

The states and messages of `kv_interface.h` and `proto.proto`, the addresses of
`address_parse.h`, the storage prefix of `kv_config.h` and the shell commands of
`file_operation.h`. The field `seq` of a command is never written or read by
any node and is left out.
-/

namespace KvInterface

open Text FileTree

/-- `KV_State`. -/
inductive KvState where
  | finished
  | linkError
  | userError
  | keyError
  | valueError
  | seqError
  | logError
  | recError
  | syncError
  deriving DecidableEq, Repr

/-- The command words `run_command` tells apart. -/
inductive Com where
  | puts
  | cput
  | gets
  | dele
  | all
  | ckpt
  | sync
  | cluster
  | kill
  | restart
  | other
  deriving DecidableEq, Repr

structure KvCommand where
  com : Com
  usr : Option Str := none
  key : Str := []
  value1 : Str := []
  value2 : Str := []
  addrs : List Str := []
  deriving DecidableEq, Repr

/-- The accessor `usr()`, which reads an absent field as empty. -/
def KvCommand.user (command : KvCommand) : Str := command.usr.getD []

structure KvRet where
  status : KvState
  value : Str := []
  keyValues : List (Str × Str) := []
  deriving DecidableEq, Repr

structure Address where
  name : Str
  ip : Str
  port : Nat
  deriving DecidableEq, Repr

/-- `atoi` on a port of the configuration, which is written without a sign and fits an `int`:
blanks are skipped, and no digit reads as zero. -/
def atoi (s : Str) : Nat := digitsValue ((s.dropWhile isSpace).takeWhile Char.isDigit)

/-- `Address::init`. Without a colon `pos + 1` wraps to zero and the whole name is read. -/
def Address.init (name : Str) : Address :=
  if ':' ∈ name then ⟨name, (getLine ':' name).1, atoi (getLine ':' name).2⟩
  else ⟨name, name, atoi name⟩

/-- The storage folder of the node at a port. -/
def PREFIX (port : Nat) : Str := "/home/cis5050/".toList ++ toDecimal port ++ "/".toList

/-- The path of the storage folder. -/
def home (port : Nat) : Path := ["home".toList, "cis5050".toList, toDecimal port]

/-- `kLogFp_` as `RunServer` sets it. -/
def kLogFp (port : Nat) : Str := PREFIX port ++ "logging".toList

/-- The words of the first command of a shell line. -/
def shellWords (line : Str) : List Str :=
  let command := line.takeWhile fun c => c ≠ ';' ∧ c ≠ '|' ∧ c ≠ '\n'
  ((split command ' ').flatMap fun w => split w '\t').filter (· ≠ [])

/-- `remove_file`: `rm -rf` run by the shell on an unquoted path. A word that is not an
absolute path names something in the working directory, where nothing is stored. Quotes,
expansions and redirections of the shell are not modelled, so a path may have none of
`shellQuoting`. -/
def removeFile (path : Str) : List Effect :=
  ((shellWords ("rm -rf ".toList ++ path)).drop 2).filterMap fun word =>
    if word.head? = some '/' then some (.remove (resolve word)) else none

/-- The characters that end a word or a command of the shell. -/
def shellBreaks : List Char := [' ', '\t', ';', '|', '\n']

/-- The other characters that the shell does not take for themselves within a word: quotes,
parentheses, redirections, expansions, patterns, and the one that ends a C string. -/
def shellQuoting : List Char := "'\"\\`$&()<>*?[\x7b\x7d\x00".toList

theorem mem_shellWords {line word : Str} (h : word ∈ shellWords line) :
    ∀ c ∈ word, c ∈ line ∧ c ∉ shellBreaks := by
  intro c hc
  obtain ⟨mem, -⟩ := List.mem_filter.mp h
  obtain ⟨outer, mem, inner⟩ := List.mem_flatMap.mp mem
  obtain ⟨mem', tab⟩ := mem_split inner hc
  obtain ⟨command, space⟩ := mem_split mem mem'
  have ended := List.mem_takeWhile_imp command
  simp only [decide_eq_true_eq] at ended
  exact ⟨(List.takeWhile_prefix _).subset command, by simp [shellBreaks, space, tab, ended]⟩

/-- What `remove_file` removes: paths without the characters that break words. -/
theorem mem_removeFile {path : Str} {e : Effect} (h : e ∈ removeFile path) :
    ∃ word, e = .remove (resolve word) ∧ ∀ c ∈ word, c ∉ shellBreaks := by
  obtain ⟨word, mem, found⟩ := List.mem_filterMap.mp h
  split at found
  · cases found
    exact ⟨word, rfl, fun c hc => (mem_shellWords (List.mem_of_mem_drop mem) c hc).2⟩
  · cases found

theorem plainName_toDecimal (n : Nat) : PlainName (toDecimal n) where
  nonempty := toDecimal_ne_nil n
  notDot h := by
    have hd : '.' ∈ toDecimal n := by rw [h]; decide
    exact absurd (isDigit_of_mem_toDecimal hd) (by decide)
  notDotDot h := by
    have hd : '.' ∈ toDecimal n := by rw [h]; decide
    exact absurd (isDigit_of_mem_toDecimal hd) (by decide)
  noSlash h := absurd (isDigit_of_mem_toDecimal h) (by decide)

theorem resolve_home (port : Nat) :
    resolve ("/home/cis5050".toList ++ '/' :: toDecimal port) = home port := by
  have base : resolve "/home/cis5050".toList = ["home".toList, "cis5050".toList] := by decide +kernel
  rw [resolve_entry _ (plainName_toDecimal port), base]
  simp only [home, List.cons_append, List.nil_append]

theorem PREFIX_append (port : Nat) (name : Str) :
    PREFIX port ++ name = ("/home/cis5050".toList ++ '/' :: toDecimal port) ++ '/' :: name := by
  have folder : "/home/cis5050/".toList = "/home/cis5050".toList ++ ['/'] := by simp
  have slash : "/".toList = ['/'] := by simp
  unfold PREFIX
  simp only [folder, slash, List.append_assoc, List.cons_append, List.nil_append]

theorem resolve_PREFIX (port : Nat) {name : Str} (plain : PlainName name) :
    resolve (PREFIX port ++ name) = home port ++ [name] := by
  rw [PREFIX_append, resolve_entry _ plain, resolve_home]

theorem plainName_logging : PlainName "logging".toList := by constructor <;> simp

@[simp] theorem resolve_kLogFp (port : Nat) :
    resolve (kLogFp port) = home port ++ ["logging".toList] :=
  resolve_PREFIX port plainName_logging

end KvInterface
