import PennCloud.MetadataParsing

/-!
# The metadata says the tree

What a handler prints of its tree is parsed to that tree, whatever the order of the
entry maps.
-/

namespace MetadataRoundTrip

open Text UnorderedMap StorageMetadata StorageTree MetadataText MetadataPrinting MetadataParsing

/-- What is printed of a tree is parsed to the same tree: the same ids, names, kinds and parents,
the same paths and the same last id. -/
theorem parse_getMetadataStr {t : Tree} (wf : t.WellFormed) (named : Named t) {h : Handler}
    {ptr : Nat → Ptr} (holds : Holds t h ptr) {latest : Nat} (known : h.latestId = some latest)
    (small : latest ≤ INT_MAX) {env : Env} (enough : INT_MAX < env.fuel) :
    ∃ text, h.getMetadataStr env = some text ∧
      ∀ (env' : Env) (usr : Str) (fd : Int), INT_MAX < env'.fuel →
        ∃ h', Handler.parseMetadataFile env' { usr := usr, backendFd := fd, metadataStr := text } =
            some (true, h') ∧ Exact t h' ∧ h'.latestId = some latest ∧
          ∀ id n, t.node id = some n → ∃ path, t.PathOf id path ∧
            h.path env (some (ptr id)) = some path ∧ h'.path env' (some (ptrOf h' id)) = some path := by
  obtain ⟨text, printed, said⟩ := said_of_holds wf named.spelled holds known small enough
  refine ⟨text, printed, fun env' usr fd enough' => ?_⟩
  obtain ⟨h', parsed, exact, latest'⟩ := said env' usr fd enough'
  refine ⟨h', parsed, exact, latest', fun id n here => ?_⟩
  obtain ⟨path, isPath, before⟩ := holds.laid.path wf.toRooted enough here
  obtain ⟨path', isPath', after⟩ := exact.laid.path wf.toRooted enough' here
  exact ⟨path, isPath, before, by rw [isPath.unique wf.toRooted isPath', after]⟩

/-- A file in a folder of bob. -/
def bobsTree : Tree where
  root := 1
  node id := if id = 1 then some ⟨['b', 'o', 'b'], false, none⟩
    else if id = 2 then some ⟨['d'], false, some 1⟩
    else if id = 3 then some ⟨['f'], true, some 2⟩ else none

theorem node_bobsTree {id : Nat} {n : Node} : bobsTree.node id = some n ↔
    (id = 1 ∧ n = ⟨['b', 'o', 'b'], false, none⟩) ∨ (id = 2 ∧ n = ⟨['d'], false, some 1⟩) ∨
      (id = 3 ∧ n = ⟨['f'], true, some 2⟩) := by
  rw [bobsTree]
  grind

theorem wellFormed_bobsTree : bobsTree.WellFormed where
  root := ⟨_, rfl⟩
  rooted here := by
    have top : bobsTree.Depth 1 0 := .root
    have folder : bobsTree.Depth 2 1 := .entry rfl rfl rfl rfl top
    have file : bobsTree.Depth 3 2 := .entry rfl rfl rfl rfl folder
    rcases node_bobsTree.mp here with ⟨rfl, -⟩ | ⟨rfl, -⟩ | ⟨rfl, -⟩
    · exact ⟨0, top⟩
    · exact ⟨1, folder⟩
    · exact ⟨2, file⟩
  distinct first second up named := by
    rcases node_bobsTree.mp first with ⟨rfl, rfl⟩ | ⟨rfl, rfl⟩ | ⟨rfl, rfl⟩ <;>
      rcases node_bobsTree.mp second with ⟨rfl, rfl⟩ | ⟨rfl, rfl⟩ | ⟨rfl, rfl⟩ <;> simp_all
  inInt here := by
    rcases node_bobsTree.mp here with ⟨rfl, -⟩ | ⟨rfl, -⟩ | ⟨rfl, -⟩ <;> decide

theorem named_bobsTree : Named bobsTree := by
  intro id n here
  rcases node_bobsTree.mp here with ⟨-, rfl⟩ | ⟨-, rfl⟩ | ⟨-, rfl⟩ <;> decide

def bobsHandler : Handler where
  usr := ['b', 'o', 'b']
  backendFd := 5
  root := some 1
  latestId := some 3
  memory := (((∅ : UMap Ptr Dirent).insert 1 ⟨['b', 'o', 'b'], 1, false, none, true,
    (∅ : UMap Str (Option Ptr)).insert ['d'] (some 2)⟩).insert 2 ⟨['d'], 2, false, some 1, false,
    (∅ : UMap Str (Option Ptr)).insert ['f'] (some 3)⟩).insert 3 ⟨['f'], 3, true, some 2, false, ∅⟩

theorem holds_bobsTree : Holds bobsTree bobsHandler id where
  root := rfl
  laid := by
    have only : ∀ (k name : Str) (c : Ptr) (p : Option Ptr),
        ((∅ : UMap Str (Option Ptr)).insert k (some c)).lookup name = some p ↔
          name = k ∧ p = some c := by
      intro k name c p
      by_cases same : name = k
      · rw [same, AList.lookup_insert, Option.some.injEq, eq_comm]
        simp
      · rw [AList.lookup_insert_ne same]
        simp [same]
    intro id n here
    rcases node_bobsTree.mp here with ⟨rfl, rfl⟩ | ⟨rfl, rfl⟩ | ⟨rfl, rfl⟩
    · refine ⟨_, rfl, rfl, rfl, rfl, rfl, nofun, fun _ name p => ?_⟩
      rw [only]
      constructor
      · rintro ⟨rfl, rfl⟩
        exact ⟨2, _, rfl, rfl, rfl, rfl⟩
      · rintro ⟨c, m, node, parent, rfl, rfl⟩
        rcases node_bobsTree.mp node with ⟨rfl, rfl⟩ | ⟨rfl, rfl⟩ | ⟨rfl, rfl⟩ <;> simp_all
    · refine ⟨_, rfl, rfl, rfl, rfl, rfl, fun q up => by cases up; rfl, fun _ name p => ?_⟩
      rw [only]
      constructor
      · rintro ⟨rfl, rfl⟩
        exact ⟨3, _, rfl, rfl, rfl, rfl⟩
      · rintro ⟨c, m, node, parent, rfl, rfl⟩
        rcases node_bobsTree.mp node with ⟨rfl, rfl⟩ | ⟨rfl, rfl⟩ | ⟨rfl, rfl⟩ <;> simp_all
    · exact ⟨_, rfl, rfl, rfl, rfl, rfl, fun q up => by cases up; rfl, nofun⟩

def deepEnv : Env := ⟨.stored Ptr, INT_MAX + 1⟩

theorem parse_getMetadataStr_bob : ∃ text, bobsHandler.getMetadataStr deepEnv = some text ∧
    ∀ (env' : Env) (usr : Str) (fd : Int), INT_MAX < env'.fuel →
      ∃ h', Handler.parseMetadataFile env' { usr := usr, backendFd := fd, metadataStr := text } =
          some (true, h') ∧ Exact bobsTree h' ∧ h'.latestId = some 3 ∧
        ∀ id n, bobsTree.node id = some n → ∃ path, bobsTree.PathOf id path ∧
          bobsHandler.path deepEnv (some id) = some path ∧
            h'.path env' (some (ptrOf h' id)) = some path :=
  parse_getMetadataStr wellFormed_bobsTree named_bobsTree holds_bobsTree rfl (by decide)
    (Nat.lt_succ_self _)

end MetadataRoundTrip
