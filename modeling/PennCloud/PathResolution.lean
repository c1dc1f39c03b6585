import PennCloud.MetadataRoundTrip
import PennCloud.TreePaths

/-!
# What the lookup of a path finds

The lookup follows the names that a slash ends and then looks for what is left of
the path. Where nothing is left it looks for the last name once more, in the entry
that it has already found: a path that ends with a slash is not resolved.
-/

namespace StorageTree

open Text UnorderedMap StorageMetadata MetadataParsing MetadataRoundTrip

/-- The names that a slash ends, and what follows the last slash. -/
def way : Str → Str → List Str × Str
  | token, [] => ([], token)
  | token, c :: cs =>
    if c = '/' then
      if token = [] then way [] cs else (token :: (way [] cs).1, (way [] cs).2)
    else way (token ++ [c]) cs

/-- The path ends with a slash, or is empty. -/
def Trailing (path : Str) : Prop := path = [] ∨ path.getLast? = some '/'

instance (path : Str) : Decidable (Trailing path) := inferInstanceAs (Decidable (_ ∨ _))

/-- Files have no entries of their own. -/
def FilesEmpty (t : Tree) (h : Handler) (ptr : Nat → Ptr) : Prop :=
  ∀ id n d, t.node id = some n → n.isFile = true → h.memory.lookup (ptr id) = some d → d.entries = ∅

theorem Exact.filesEmpty {t : Tree} {h : Handler} (exact : Exact t h) :
    FilesEmpty t h (ptrOf h) := exact.files

/-! Names on the way -/

theorem splitFrom_way (token rest : Str) : (splitFrom '/' token rest).filter (· ≠ []) =
    (way token rest).1 ++ if (way token rest).2 = [] then [] else [(way token rest).2] := by
  induction rest generalizing token with
  | nil =>
    rw [splitFrom, way]
    by_cases empty : token = [] <;> simp [empty]
  | cons c rest ih =>
    rw [splitFrom, way]
    by_cases slash : c = '/'
    · rw [if_pos slash, if_pos slash, List.filter_cons, ih]
      by_cases empty : token = [] <;> simp [empty]
    · rw [if_neg slash, if_neg slash]
      exact ih _

theorem components_way (path : Str) : components path =
    (way [] path).1 ++ if (way [] path).2 = [] then [] else [(way [] path).2] :=
  splitFrom_way [] path

theorem way_trailing (token rest : Str) :
    (way token rest).2 = [] ↔ Trailing (token ++ rest) ∧ (rest = [] → token = []) := by
  induction rest generalizing token with
  | nil =>
    rw [way, List.append_nil]
    exact ⟨fun empty => ⟨.inl empty, fun _ => empty⟩, fun both => both.2 rfl⟩
  | cons c rest ih =>
    have last : Trailing (token ++ c :: rest) ↔ (c :: rest).getLast? = some '/' := by
      rw [Trailing, List.getLast?_append_of_ne_nil _ (List.cons_ne_nil c rest)]
      simp
    rw [last]
    have skip : (way [] rest).2 = [] ↔ ('/' :: rest).getLast? = some '/' := by
      rw [ih]
      cases rest with
      | nil => simp [Trailing]
      | cons d rest => simp [Trailing, List.getLast?_cons_cons]
    rw [way]
    by_cases slash : c = '/'
    · subst slash
      rw [if_pos rfl]
      by_cases empty : token = []
      · rw [if_pos empty, skip]
        simp
      · rw [if_neg empty]
        simpa using skip
    · rw [if_neg slash, ih]
      cases rest with
      | nil => simp [Trailing, slash]
      | cons d rest => simp [Trailing, List.getLast?_cons_cons]

/-- Nothing is left of a path that ends with a slash. -/
theorem way_eq_nil (path : Str) : (way [] path).2 = [] ↔ Trailing path := by
  rw [way_trailing]
  simp

theorem components_of_trailing {path : Str} (trailing : Trailing path) :
    components path = (way [] path).1 := by
  rw [components_way, if_pos ((way_eq_nil path).mpr trailing), List.append_nil]

theorem components_of_named {path : Str} (named : ¬ Trailing path) :
    components path = (way [] path).1 ++ [(way [] path).2] := by
  rw [components_way, if_neg fun empty => named ((way_eq_nil path).mp empty)]

/-! Entries at names -/

section Leads
variable {t : Tree}

theorem Tree.Leads.unique (wf : t.WellFormed) {a b c : Nat} {names : List Str}
    (first : t.Leads a names b) (second : t.Leads a names c) : b = c := by
  induction first with
  | here id =>
    cases second
    rfl
  | step child parent rest ih =>
    generalize spelled : Node.name _ :: _ = names' at second
    cases second with
    | here => cases spelled
    | step child' parent' rest' =>
      obtain ⟨named, rfl⟩ := List.cons.inj spelled
      obtain rfl := wf.distinct child child' (parent.trans parent'.symm) named
      exact ih rest'

theorem Tree.Leads.append {a b c : Nat} {first second : List Str} (one : t.Leads a first b)
    (other : t.Leads b second c) : t.Leads a (first ++ second) c := by
  induction one with
  | here id => exact other
  | step child parent rest ih => exact .step child parent (ih other)

/-- The last name is that of the entry. -/
theorem Tree.Leads.of_append {a c : Nat} {first second : List Str}
    (leads : t.Leads a (first ++ second) c) : ∃ b, t.Leads a first b ∧ t.Leads b second c := by
  induction first generalizing a with
  | nil => exact ⟨a, .here a, leads⟩
  | cons name first ih =>
    cases leads with
    | step child parent rest =>
      obtain ⟨b, one, other⟩ := ih rest
      exact ⟨b, .step child parent one, other⟩

theorem Tree.Leads.last {a c : Nat} {name : Str} (leads : t.Leads a [name] c) :
    ∃ n, t.node c = some n ∧ n.parent = some a ∧ n.name = name := by
  cases leads with
  | step child parent rest =>
    cases rest
    exact ⟨_, child, parent, rfl⟩

theorem Tree.Leads.node {a b : Nat} {names : List Str} (leads : t.Leads a names b) {o : Node}
    (here : t.node a = some o) : ∃ n, t.node b = some n := by
  induction leads generalizing o with
  | here id => exact ⟨o, here⟩
  | step child parent rest ih => exact ih child

end Leads

section Lookup
variable {t : Tree} {h : Handler} {ptr : Nat → Ptr}

/-- The entries of any object are those of the tree. -/
theorem Laid.lookup_iff (wf : t.Rooted) (laid : Laid t h ptr) (files : FilesEmpty t h ptr)
    {a : Nat} {o : Node} {d : Dirent} (here : t.node a = some o)
    (object : h.memory.lookup (ptr a) = some d) (name : Str) (p : Option Ptr) :
    d.entries.lookup name = some p ↔
      ∃ b n, t.node b = some n ∧ n.parent = some a ∧ n.name = name ∧ p = some (ptr b) := by
  cases kind : o.isFile with
  | false =>
    obtain ⟨d', object', shows⟩ := laid a o here
    cases object.symm.trans object'
    exact shows.entries kind name p
  | true =>
    rw [files a o d here kind object]
    constructor
    · intro entry
      cases entry
    · rintro ⟨b, n, child, parent, -, -⟩
      obtain ⟨o', above, directory⟩ := wf.directory child parent
      cases here.symm.trans above
      rw [kind] at directory
      cases directory

/-- The lookup follows the names on the way, or fails without a directory. -/
theorem walk_way (wf : t.WellFormed) (laid : Laid t h ptr) (files : FilesEmpty t h ptr)
    (token rest : Str) {a : Nat} {o : Node} (relativePath : Str) (here : t.node a = some o) :
    (∀ b, t.Leads a (way token rest).1 b → walk h (some (ptr a)) relativePath token rest =
      walk h (some (ptr b)) ((way token rest).1.getLast?.getD relativePath) (way token rest).2 []) ∧
    ((¬ ∃ b, t.Leads a (way token rest).1 b) → ∃ name,
      walk h (some (ptr a)) relativePath token rest = some ⟨false, none, none, name, h⟩) := by
  induction rest generalizing token a o relativePath with
  | nil =>
    refine ⟨fun b leads => ?_, fun none => absurd ⟨a, .here a⟩ none⟩
    cases leads
    rfl
  | cons c rest ih =>
    rw [walk, way]
    by_cases slash : c = '/'
    · by_cases empty : token = []
      · simp only [if_pos slash, if_pos empty]
        exact ih [] relativePath here
      · simp only [if_pos slash, if_neg empty]
        obtain ⟨d, object, -⟩ := laid a o here
        simp only [Handler.deref, Option.bind_some, object]
        constructor
        · intro b leads
          cases leads with
          | step child parent rest' =>
            have entry := (laid.lookup_iff wf.toRooted files here object _ _).mpr
              ⟨_, _, child, parent, rfl, rfl⟩
            rw [entry]
            simp only []
            rw [(ih [] _ child).1 b rest', List.getLast?_cons]
            rfl
        · intro lost
          cases entry : d.entries.lookup token with
          | none => exact ⟨token, rfl⟩
          | some p =>
            obtain ⟨b, n, child, parent, named, rfl⟩ :=
              (laid.lookup_iff wf.toRooted files here object _ _).mp entry
            refine (ih [] token child).2 ?_
            rintro ⟨c, leads⟩
            subst named
            exact lost ⟨c, .step child parent leads⟩
    · simp only [if_neg slash]
      exact ih (token ++ [c]) relativePath here

/-- The last name is that of an entry. -/
theorem walk_child (wf : t.WellFormed) (laid : Laid t h ptr) {b c : Nat} {n : Node}
    (child : t.node c = some n) (parent : n.parent = some b) (named : n.name ≠ [])
    (relativePath : Str) : walk h (some (ptr b)) relativePath n.name [] =
      some ⟨true, some (ptr b), some (ptr c), n.name, h⟩ := by
  obtain ⟨d, object, entry⟩ := laid.entry wf.toRooted child parent
  rw [walk_last _ _ _ named]
  simp only [object, Option.map_some, Option.bind_some, Dirent.hasEntry, entry,
    Option.isSome_some, if_true, Handler.getEntry]

/-- There is no entry of the last name. -/
theorem walk_new (wf : t.WellFormed) (laid : Laid t h ptr) (files : FilesEmpty t h ptr) {b : Nat}
    {o : Node} (here : t.node b = some o) {name : Str} (named : name ≠ [])
    (free : ∀ c n, t.node c = some n → n.parent = some b → n.name ≠ name) (relativePath : Str) :
    walk h (some (ptr b)) relativePath name [] = some ⟨false, some (ptr b), none, name, h⟩ := by
  obtain ⟨d, object, -⟩ := laid b o here
  have unknown : d.entries.lookup name = none := by
    cases entry : d.entries.lookup name with
    | none => rfl
    | some p =>
      obtain ⟨c, n, child, parent, spelled, -⟩ :=
        (laid.lookup_iff wf.toRooted files here object _ _).mp entry
      exact absurd spelled (free c n child parent)
  rw [walk_last _ _ _ named]
  simp only [Handler.deref, Option.bind_some, object, Option.map_some, Dirent.hasEntry, unknown,
    Option.isSome_none, Bool.false_eq_true, if_false]

/-- Without a last name the last one on the way is asked for. -/
theorem walk_nameless (h : Handler) (parent : Option Ptr) (relativePath : Str) :
    walk h parent relativePath [] [] = (h.getEntry parent relativePath).map fun r =>
      ⟨true, parent, r.1, relativePath, r.2⟩ := by
  rw [walk]
  simp only [if_true, Option.bind_some]

/-- Without a last name the lookup is answered with some entry of the one that was found, or with
null. -/
theorem walk_again (wf : t.WellFormed) (laid : Laid t h ptr) (files : FilesEmpty t h ptr) {b : Nat}
    {o : Node} (here : t.node b = some o) (relativePath : Str) :
    ∃ dir h', walk h (some (ptr b)) relativePath [] [] =
        some ⟨true, some (ptr b), dir, relativePath, h'⟩ ∧
      (dir = none ∨ ∃ c n, t.node c = some n ∧ n.parent = some b ∧ n.name = relativePath ∧
        dir = some (ptr c)) := by
  obtain ⟨d, object, -⟩ := laid b o here
  rw [walk_nameless, Handler.getEntry]
  simp only [Handler.deref, Option.bind_some, object]
  cases entry : d.entries.lookup relativePath with
  | none =>
    simp only [Handler.update, Option.bind_some, object, Option.map_some]
    exact ⟨none, _, rfl, .inl rfl⟩
  | some p =>
    exact ⟨p, h, rfl, .inr ((laid.lookup_iff wf.toRooted files here object _ _).mp entry)⟩

end Lookup

/-! Paths -/

section Paths
variable {t : Tree} {h : Handler} {ptr : Nat → Ptr} {path : Str}

theorem not_trailing_iff : ¬ Trailing path ↔ path ≠ [] ∧ path.getLast? ≠ some '/' := by
  rw [Trailing, not_or]

theorem entryAt_of_named {id : Nat} (named : ¬ Trailing path)
    (leads : t.Leads t.root (components path) id) : t.EntryAt path id :=
  .inr ⟨(not_trailing_iff.mp named).1, (not_trailing_iff.mp named).2, leads⟩

theorem trailing_root : Trailing "/".toList := .inr (by decide +kernel)

theorem components_root : components "/".toList = [] := by decide +kernel

/-- No entry has the path. -/
theorem validate_missing (wf : t.WellFormed) (holds : Holds t h ptr) (files : FilesEmpty t h ptr)
    (missing : ¬ ∃ id, t.Leads t.root (components path) id) :
    ∃ parentDir name, h.validatePathAndGetDir path = some ⟨false, parentDir, none, name, h⟩ ∧
      (¬ Trailing path → ∀ b, t.Leads t.root (way [] path).1 b →
        parentDir = some (ptr b) ∧ name = (way [] path).2) ∧
      ((¬ ∃ b, t.Leads t.root (way [] path).1 b) → parentDir = none) := by
  have notRoot : path ≠ "/".toList := by
    rintro rfl
    rw [components_root] at missing
    exact missing ⟨t.root, .here _⟩
  obtain ⟨name, top⟩ := wf.root
  obtain ⟨follow, lost⟩ := walk_way wf holds.laid files [] path [] top
  rw [Handler.validatePathAndGetDir, if_neg notRoot, holds.root]
  by_cases reached : ∃ b, t.Leads t.root (way [] path).1 b
  · obtain ⟨b, leads⟩ := reached
    obtain ⟨o, here⟩ := leads.node top
    have named : ¬ Trailing path := by
      intro trailing
      rw [components_of_trailing trailing] at missing
      exact missing ⟨b, leads⟩
    have rest : (way [] path).2 ≠ [] := fun empty => named ((way_eq_nil path).mp empty)
    rw [components_of_named named] at missing
    have free : ∀ c n, t.node c = some n → n.parent = some b → n.name ≠ (way [] path).2 := by
      intro c n child parent same
      refine missing ⟨c, leads.append ?_⟩
      rw [← same]
      exact .step child parent (.here c)
    rw [follow b leads, walk_new wf holds.laid files here rest free]
    refine ⟨_, _, rfl, fun _ c other => ?_, fun none => absurd ⟨b, leads⟩ none⟩
    rw [leads.unique wf other]
    exact ⟨rfl, rfl⟩
  · obtain ⟨name, failed⟩ := lost reached
    exact ⟨none, name, failed, fun _ b leads => absurd ⟨b, leads⟩ reached, fun _ => rfl⟩

/-- A path that ends with a slash, but for the path of the root folder, is looked up beyond the
entry that it names. -/
theorem validate_trailing (wf : t.WellFormed) (holds : Holds t h ptr) (files : FilesEmpty t h ptr)
    (trailing : Trailing path) (notRoot : path ≠ "/".toList) {b : Nat}
    (leads : t.Leads t.root (components path) b) :
    ∃ dir h', h.validatePathAndGetDir path =
        some ⟨true, some (ptr b), dir, (way [] path).1.getLast?.getD [], h'⟩ ∧
      (dir = none ∨ ∃ c n, t.node c = some n ∧ n.parent = some b ∧
        n.name = (way [] path).1.getLast?.getD [] ∧ dir = some (ptr c)) := by
  obtain ⟨name, top⟩ := wf.root
  rw [components_of_trailing trailing] at leads
  obtain ⟨o, here⟩ := leads.node top
  obtain ⟨dir, h', walked, found⟩ := walk_again wf holds.laid files here
    ((way [] path).1.getLast?.getD [])
  refine ⟨dir, h', ?_, found⟩
  rw [Handler.validatePathAndGetDir, if_neg notRoot, holds.root,
    (walk_way wf holds.laid files [] path [] top).1 b leads,
    (way_eq_nil path).mpr trailing, walked]

/-- The name that the lookup asks for in the end: what is left of the path, or the last name on the
way once more. -/
def lastAsked (path : Str) : Str :=
  if (way [] path).2 = [] then (way [] path).1.getLast?.getD [] else (way [] path).2

/-- The lookup of the path ends with an entry in its directory. -/
structure Tree.Finds (t : Tree) (path : Str) (x b : Nat) (n : Node) : Prop where
  notRoot : path ≠ "/".toList
  leads : t.Leads t.root (way [] path).1 b
  here : t.node x = some n
  parent : n.parent = some b
  named : n.name = lastAsked path

theorem validate_finds (wf : t.WellFormed) (holds : Holds t h ptr) (files : FilesEmpty t h ptr)
    {x b : Nat} {n : Node} (finds : t.Finds path x b n) : h.validatePathAndGetDir path =
      some ⟨true, some (ptr b), some (ptr x), n.name, h⟩ := by
  obtain ⟨name, top⟩ := wf.root
  rw [Handler.validatePathAndGetDir, if_neg finds.notRoot, holds.root,
    (walk_way wf holds.laid files [] path [] top).1 b finds.leads]
  have named := finds.named
  rw [lastAsked] at named
  by_cases rest : (way [] path).2 = []
  · rw [if_pos rest] at named
    obtain ⟨d, object, entry⟩ := holds.laid.entry wf.toRooted finds.here finds.parent
    rw [rest, walk_nameless, ← named]
    simp only [Handler.getEntry, object, Option.bind_some, entry, Option.map_some]
  · rw [if_neg rest] at named
    rw [← named]
    exact walk_child wf holds.laid finds.here finds.parent (named ▸ rest) _

theorem finds_of_entryAt {x : Nat} (entryAt : t.EntryAt path x) (below : x ≠ t.root) :
    ∃ b n, t.Finds path x b n := by
  rcases entryAt with ⟨-, root⟩ | ⟨nonempty, last, leads⟩
  · exact absurd root below
  · have named : ¬ Trailing path := not_trailing_iff.mpr ⟨nonempty, last⟩
    rw [components_of_named named] at leads
    obtain ⟨b, way, final⟩ := leads.of_append
    obtain ⟨n, here, parent, spelled⟩ := final.last
    refine ⟨b, n, fun root => named (root ▸ trailing_root), way, here, parent, ?_⟩
    rw [lastAsked, if_neg fun empty => named ((way_eq_nil path).mp empty), spelled]

/-- Every lookup finds the root folder or an entry, fails, or returns a null pointer. -/
theorem validate_cases (wf : t.WellFormed) (holds : Holds t h ptr) (files : FilesEmpty t h ptr)
    (path : Str) : path = "/".toList ∨ (∃ x b n, t.Finds path x b n) ∨
      (∃ parentDir name, h.validatePathAndGetDir path = some ⟨false, parentDir, none, name, h⟩) ∨
      ∃ parentDir name h', h.validatePathAndGetDir path = some ⟨true, parentDir, none, name, h'⟩ := by
  by_cases root : path = "/".toList
  · exact .inl root
  · right
    by_cases known : ∃ id, t.Leads t.root (components path) id
    · obtain ⟨id, leads⟩ := known
      by_cases trailing : Trailing path
      · obtain ⟨dir, h', looked, null | ⟨c, n, child, parent, named, -⟩⟩ :=
          validate_trailing wf holds files trailing root leads
        · exact .inr (.inr ⟨_, _, h', null ▸ looked⟩)
        · rw [components_of_trailing trailing] at leads
          refine .inl ⟨c, id, n, root, leads, child, parent, ?_⟩
          rw [lastAsked, if_pos ((way_eq_nil path).mpr trailing), named]
      · have notTop : id ≠ t.root := by
          rintro rfl
          rw [components_of_named trailing] at leads
          obtain ⟨b, -, final⟩ := leads.of_append
          obtain ⟨n, here, parent, -⟩ := final.last
          exact absurd rfl (wf.ne_root here parent)
        obtain ⟨b, n, finds⟩ :=
          finds_of_entryAt (entryAt_of_named trailing leads) notTop
        exact .inl ⟨id, b, n, finds⟩
    · obtain ⟨parentDir, name, looked, -⟩ := validate_missing wf holds files known
      exact .inr (.inl ⟨parentDir, name, looked⟩)

/-- The lookup is true for the paths of entries and leaves their pointers, those of their parents
and their names, and nothing of the handler is changed. -/
def Resolves (t : Tree) (h : Handler) (ptr : Nat → Ptr) (path : Str) : Prop :=
  ∃ found, h.validatePathAndGetDir path = some found ∧ found.handler = h ∧
    (found.valid = true ↔ ∃ id, t.Leads t.root (components path) id) ∧
    ∀ id n, t.Leads t.root (components path) id → t.node id = some n →
      found.dir = some (ptr id) ∧ found.parentDir = some (ptr (n.parent.getD t.root)) ∧
        found.relativePath = n.name

/-- A path is resolved exactly where it does not end with a slash after the names of an entry. -/
theorem resolves_iff (wf : t.WellFormed) (named : Named t) (holds : Holds t h ptr)
    (files : FilesEmpty t h ptr) : Resolves t h ptr path ↔
      ¬ (Trailing path ∧ ∃ id, t.Leads t.root (components path) id) := by
  obtain ⟨name, top⟩ := wf.root
  constructor
  · rintro ⟨found, looked, -, -, exact⟩ ⟨trailing, id, leads⟩
    obtain ⟨n, here⟩ := leads.node top
    obtain ⟨dir, -, relativePath⟩ := exact id n leads here
    by_cases root : path = "/".toList
    · rw [Handler.validatePathAndGetDir, if_pos root] at looked
      cases looked
      exact (named id n here).1 relativePath.symm
    · obtain ⟨dir', h', looked', other⟩ :=
        validate_trailing wf holds files trailing root leads
      cases looked.symm.trans looked'
      rcases other with null | ⟨c, m, child, parent, -, below⟩
      · rw [null] at dir
        cases dir
      · have same : c = id :=
          holds.laid.injective child here (Option.some.inj (below.symm.trans dir))
        exact wf.ne_parent child parent same
  · intro resolved
    by_cases missing : ∃ id, t.Leads t.root (components path) id
    · obtain ⟨id, leads⟩ := missing
      have notTrailing : ¬ Trailing path := fun trailing => resolved ⟨trailing, id, leads⟩
      rcases validate_entryAt wf.toRooted holds (entryAt_of_named notTrailing leads) with
        ⟨looked, root⟩ | ⟨n, p, here, parent, looked⟩
      · subst root
        rcases entryAt_of_named notTrailing leads with ⟨rfl, -⟩ | ⟨nonempty, last, -⟩
        · exact absurd trailing_root notTrailing
        · rw [components_of_named notTrailing] at leads
          obtain ⟨b, -, final⟩ := leads.of_append
          obtain ⟨n, here, parent, -⟩ := final.last
          exact absurd rfl (wf.ne_root here parent)
      · refine ⟨_, looked, rfl, ⟨fun _ => ⟨id, leads⟩, fun _ => rfl⟩, fun other m leads' node => ?_⟩
        obtain rfl := leads.unique wf leads'
        cases here.symm.trans node
        rw [parent]
        exact ⟨rfl, rfl, rfl⟩
    · obtain ⟨parentDir, name', looked, -⟩ := validate_missing wf holds files missing
      refine ⟨_, looked, rfl, ⟨fun found => ?_, fun found => absurd found missing⟩,
        fun id n leads => ?_⟩
      · cases found
      · exact absurd ⟨id, leads⟩ missing

end Paths

theorem node_folder : bobsTree.node 2 = some ⟨['d'], false, some 1⟩ := rfl

theorem node_file : bobsTree.node 3 = some ⟨['f'], true, some 2⟩ := rfl

theorem entryAt_folder : bobsTree.EntryAt "/d".toList 2 := by
  have names : components "/d".toList = [['d']] := by decide +kernel
  refine .inr ⟨by decide +kernel, by decide +kernel, ?_⟩
  rw [names]
  exact .step node_folder rfl (.here 2)

theorem entryAt_file : bobsTree.EntryAt "/d/f".toList 3 := by
  have names : components "/d/f".toList = [['d'], ['f']] := by decide +kernel
  refine .inr ⟨by decide +kernel, by decide +kernel, ?_⟩
  rw [names]
  exact .step node_folder rfl (.step node_file rfl (.here 3))

theorem filesEmpty_bobsTree : FilesEmpty bobsTree bobsHandler id := by
  intro c n d here file object
  rcases node_bobsTree.mp here with ⟨rfl, rfl⟩ | ⟨rfl, rfl⟩ | ⟨rfl, rfl⟩
  · cases file
  · cases file
  · cases object
    rfl

theorem resolves_file : Resolves bobsTree bobsHandler id "/d/f".toList :=
  (resolves_iff wellFormed_bobsTree named_bobsTree holds_bobsTree filesEmpty_bobsTree).mpr
    fun no => absurd no.1 (by decide +kernel)

/-- The path of a folder with a slash after it leads to null. -/
theorem not_resolves_folder : bobsTree.WellFormed ∧ Named bobsTree ∧
    Holds bobsTree bobsHandler id ∧ FilesEmpty bobsTree bobsHandler id ∧
    ¬ Resolves bobsTree bobsHandler id "/d/".toList := by
  refine ⟨wellFormed_bobsTree, named_bobsTree, holds_bobsTree, filesEmpty_bobsTree, ?_⟩
  rintro ⟨found, looked, -, -, exact⟩
  have names : components "/d/".toList = [['d']] := by decide +kernel
  have null : (bobsHandler.validatePathAndGetDir "/d/".toList).map Found.dir = some none := by
    decide +kernel
  rw [names] at exact
  obtain ⟨dir, -⟩ := exact 2 _ (.step node_folder rfl (.here 2)) node_folder
  rw [looked, Option.map_some, dir] at null
  cases null

end StorageTree
