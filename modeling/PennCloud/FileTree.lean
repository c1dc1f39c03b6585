import Mathlib.Data.List.Infix
import PennCloud.Text
import PennCloud.UnorderedMap

/-!
# A file tree and its effects

A tree maps absolute paths to directories and files. Opening a file for
writing succeeds when its parent is a directory and it is not one itself; a
write that cannot be opened changes nothing. An effect is one atomic change of
the tree, so that a crash leaves a prefix of the effects behind.
-/

namespace FileTree

open Text UnorderedMap

abbrev Path := List Str

inductive Entry where
  | dir
  | file (content : Str)
  deriving DecidableEq, Repr

/-- The entries of the tree by path. -/
abbrev Tree := UMap Path Entry

/-- The content of a regular file, `none` when there is none to open. -/
def content (t : Tree) (p : Path) : Option Str :=
  match t.lookup p with
  | some (.file s) => some s
  | _ => none

def writable (t : Tree) (p : Path) : Bool :=
  decide (t.lookup p.dropLast = some .dir) && decide (t.lookup p ≠ some .dir)

inductive Effect where
  /-- Truncate the file, or create it, and write it. -/
  | write (p : Path) (s : Str)
  /-- Create the file if needed and write at its end. -/
  | append (p : Path) (s : Str)
  /-- Remove the file or the directory with everything in it. -/
  | remove (p : Path)
  | makeDir (p : Path)
  deriving DecidableEq, Repr

def removeAll (t : Tree) (p : Path) : Tree :=
  ⟨t.entries.filter fun e => ¬ p <+: e.1, t.nodupKeys.sublist List.filter_sublist⟩

def Effect.apply (t : Tree) : Effect → Tree
  | .write p s => if writable t p then t.insert p (.file s) else t
  | .append p s =>
    if writable t p then t.insert p (.file ((content t p).getD [] ++ s)) else t
  | .remove p => removeAll t p
  | .makeDir p =>
    if t.lookup p = none ∧ t.lookup p.dropLast = some .dir then t.insert p .dir else t

def applyAll (t : Tree) (effects : List Effect) : Tree := effects.foldl Effect.apply t

theorem applyAll_append (t : Tree) (a b : List Effect) :
    applyAll t (a ++ b) = applyAll (applyAll t a) b :=
  List.foldl_append

/-- The effects performed so far, with the tree they have led to. -/
structure Journal where
  tree : Tree
  effects : List Effect

def Journal.start (t : Tree) : Journal := ⟨t, []⟩

def Journal.perform (j : Journal) (e : Effect) : Journal := ⟨e.apply j.tree, j.effects ++ [e]⟩

def Journal.performAll (j : Journal) (es : List Effect) : Journal :=
  ⟨applyAll j.tree es, j.effects ++ es⟩

theorem Journal.perform_eq (j : Journal) (e : Effect) : j.perform e = j.performAll [e] := rfl

theorem Journal.performAll_append (j : Journal) (a b : List Effect) :
    (j.performAll a).performAll b = j.performAll (a ++ b) := by
  simp [performAll, applyAll_append]

theorem Journal.performAll_nil (j : Journal) : j.performAll [] = j := by
  simp [performAll, applyAll]

theorem lookup_removeAll (t : Tree) (p q : Path) :
    (removeAll t p).lookup q = if p <+: q then none else t.lookup q := by
  split
  · rename_i h
    rw [AList.lookup_eq_none, AList.mem_keys, AList.keys, List.mem_keys]
    rintro ⟨entry, mem⟩
    have keep := (List.mem_filter.mp mem).2
    simp [h] at keep
  · rename_i h
    apply Option.ext
    intro entry
    rw [← Option.mem_def, ← Option.mem_def, AList.mem_lookup_iff, AList.mem_lookup_iff]
    simp [removeAll, List.mem_filter, h]

/-! Where an effect does not reach -/

def Effect.target : Effect → Path
  | .write p _ => p
  | .append p _ => p
  | .remove p => p
  | .makeDir p => p

/-- An effect changes nothing outside the subtree of its target. -/
theorem apply_outside (t : Tree) (e : Effect) {q : Path} (h : ¬ e.target <+: q) :
    (e.apply t).lookup q = t.lookup q := by
  have hne : q ≠ e.target := by rintro rfl; exact h (List.prefix_refl _)
  cases e with
  | write p s =>
    simp only [Effect.apply]
    split
    · exact AList.lookup_insert_ne hne
    · rfl
  | append p s =>
    simp only [Effect.apply]
    split
    · exact AList.lookup_insert_ne hne
    · rfl
  | remove p => exact (lookup_removeAll t p q).trans (if_neg h)
  | makeDir p =>
    simp only [Effect.apply]
    split
    · exact AList.lookup_insert_ne hne
    · rfl

theorem applyAll_outside (t : Tree) (es : List Effect) {q : Path}
    (h : ∀ e ∈ es, ¬ e.target <+: q) : (applyAll t es).lookup q = t.lookup q := by
  induction es generalizing t with
  | nil => rfl
  | cons e es ih =>
    have rest := ih (e.apply t) fun d hd => h d (List.mem_cons_of_mem e hd)
    exact rest.trans (apply_outside t e (h e List.mem_cons_self))

theorem apply_write {t : Tree} {p : Path} (s : Str) (opens : writable t p = true) :
    Effect.apply t (.write p s) = t.insert p (.file s) := by
  simp [Effect.apply, opens]

theorem apply_append {t : Tree} {p : Path} (s : Str) (opens : writable t p = true) :
    Effect.apply t (.append p s) = t.insert p (.file ((content t p).getD [] ++ s)) := by
  simp [Effect.apply, opens]

theorem dropLast_ne_of_writable {t : Tree} {p : Path} (opens : writable t p = true) :
    p.dropLast ≠ p := by
  intro same
  simp only [writable, Bool.and_eq_true, decide_eq_true_eq] at opens
  exact opens.2 (same ▸ opens.1)

/-- A file that was opened for writing can be opened again. -/
theorem writable_append_self {t : Tree} {p : Path} (s : Str) (opens : writable t p = true) :
    writable (Effect.apply t (.append p s)) p = true := by
  have parent := dropLast_ne_of_writable opens
  rw [apply_append s opens]
  simp only [writable, Bool.and_eq_true, decide_eq_true_eq] at opens ⊢
  rw [AList.lookup_insert_ne parent, AList.lookup_insert]
  exact ⟨opens.1, by simp⟩

theorem content_write_self {t : Tree} {p : Path} (s : Str) (opens : writable t p = true) :
    content (Effect.apply t (.write p s)) p = some s := by
  rw [apply_write s opens]
  simp [content]

theorem content_append_self {t : Tree} {p : Path} (s : Str) (opens : writable t p = true) :
    content (Effect.apply t (.append p s)) p = some ((content t p).getD [] ++ s) := by
  rw [apply_append s opens]
  simp [content]

/-- No write can be opened below a path that is not a directory. -/
theorem apply_unwritable {t : Tree} {p : Path} (s : Str)
    (closed : t.lookup p.dropLast ≠ some .dir) :
    Effect.apply t (.write p s) = t ∧ Effect.apply t (.append p s) = t := by
  have h : writable t p = false := by simp [writable, closed]
  simp [Effect.apply, h]

/-! Trees without loose ends -/

/-- Everything in the tree is in a directory of the tree. -/
def Closed (t : Tree) : Prop :=
  ∀ p : Path, p ≠ [] → t.lookup p ≠ none → t.lookup p.dropLast = some .dir

theorem lookup_ne_none {t : Tree} {p : Path} : t.lookup p ≠ none ↔ p ∈ t.keys := by
  rw [ne_eq, AList.lookup_eq_none, not_not, AList.mem_keys]

instance (t : Tree) : Decidable (Closed t) :=
  decidable_of_iff (∀ p ∈ t.keys, p ≠ [] → t.lookup p.dropLast = some .dir)
    ⟨fun h p nonempty present => h p (lookup_ne_none.mp present) nonempty,
      fun h p present nonempty => h p nonempty (lookup_ne_none.mpr present)⟩

/-- Nothing is below a path that is not a directory. -/
theorem lookup_below {t : Tree} (closed : Closed t) {p : Path} (h : t.lookup p ≠ some .dir)
    (name : Str) : t.lookup (p ++ [name]) = none := by
  by_contra present
  have parent := closed (p ++ [name]) (by simp) present
  rw [List.dropLast_concat] at parent
  exact h parent

theorem closed_insert {t : Tree} (closed : Closed t) {p : Path} {e : Entry}
    (parent : t.lookup p.dropLast = some .dir) (apart : p.dropLast ≠ p)
    (kept : t.lookup p = some .dir → e = .dir) : Closed (t.insert p e) := by
  intro q nonempty present
  have parentOf : ∀ q : Path, t.lookup q = some .dir → (t.insert p e).lookup q = some .dir := by
    intro q hq
    by_cases same : q = p
    · subst same
      rw [AList.lookup_insert, kept hq]
    · rw [AList.lookup_insert_ne same, hq]
  by_cases same : q = p
  · subst same
    rw [AList.lookup_insert_ne apart, parent]
  · rw [AList.lookup_insert_ne same] at present
    exact parentOf _ (closed q nonempty present)

theorem closed_apply {t : Tree} (closed : Closed t) (e : Effect) : Closed (e.apply t) := by
  cases e with
  | write p s =>
    simp only [Effect.apply]
    split
    · rename_i opens
      have apart := dropLast_ne_of_writable opens
      simp only [writable, Bool.and_eq_true, decide_eq_true_eq] at opens
      exact closed_insert closed opens.1 apart fun dir => absurd dir opens.2
    · exact closed
  | append p s =>
    simp only [Effect.apply]
    split
    · rename_i opens
      have apart := dropLast_ne_of_writable opens
      simp only [writable, Bool.and_eq_true, decide_eq_true_eq] at opens
      exact closed_insert closed opens.1 apart fun dir => absurd dir opens.2
    · exact closed
  | remove p =>
    intro q nonempty present
    rw [Effect.apply, lookup_removeAll] at present ⊢
    have outside : ¬ p <+: q := fun h => present (if_pos h)
    have parentOutside : ¬ p <+: q.dropLast := fun h =>
      outside (h.trans (List.dropLast_prefix q))
    rw [if_neg outside] at present
    rw [if_neg parentOutside]
    exact closed q nonempty present
  | makeDir p =>
    simp only [Effect.apply]
    split
    · rename_i opens
      refine closed_insert closed opens.2 (fun same => ?_) fun _ => rfl
      rw [same, opens.1] at opens
      cases opens.2
    · exact closed

theorem closed_applyAll {t : Tree} (closed : Closed t) (es : List Effect) :
    Closed (applyAll t es) := by
  induction es generalizing t with
  | nil => exact closed
  | cons e es ih => exact ih (closed_apply closed e)

/-! Path names -/

/-- One component of a path: empty components and `.` stay, `..` goes up. -/
def enter (p : Path) (name : Str) : Path :=
  if name = [] ∨ name = ".".toList then p
  else if name = "..".toList then p.dropLast
  else p ++ [name]

def resolveFrom : Path → Str → Str → Path
  | p, name, [] => enter p name
  | p, name, c :: cs =>
    if c = '/' then resolveFrom (enter p name) [] cs else resolveFrom p (name ++ [c]) cs

/-- The path a name stands for. -/
def resolve (name : Str) : Path := resolveFrom [] [] name

/-- A component that names an entry of its directory. -/
structure PlainName (name : Str) : Prop where
  nonempty : name ≠ []
  notDot : name ≠ ".".toList
  notDotDot : name ≠ "..".toList
  noSlash : '/' ∉ name

theorem enter_plain {name : Str} (plain : PlainName name) (p : Path) :
    enter p name = p ++ [name] := by
  simp only [enter, plain.nonempty, plain.notDot, plain.notDotDot, or_self, if_false]

theorem resolveFrom_noSlash {name : Str} (p : Path) (acc : Str) (h : '/' ∉ name) :
    resolveFrom p acc name = enter p (acc ++ name) := by
  induction name generalizing acc with
  | nil => simp [resolveFrom]
  | cons c cs ih =>
    obtain ⟨hc, hcs⟩ := not_or.mp (List.mem_cons.not.mp h)
    rw [resolveFrom, if_neg (Ne.symm hc), ih _ hcs]
    simp

theorem resolveFrom_slash (p : Path) (acc a b : Str) :
    resolveFrom p acc (a ++ '/' :: b) = resolveFrom (resolveFrom p acc a) [] b := by
  induction a generalizing p acc with
  | nil => simp [resolveFrom]
  | cons c cs ih =>
    simp only [List.cons_append, resolveFrom]
    split
    · exact ih _ _
    · exact ih _ _

theorem mem_enter {p : Path} {acc name : Str} (h : name ∈ enter p acc) :
    name ∈ p ∨ name = acc := by
  unfold enter at h
  split at h
  · exact .inl h
  · split at h
    · exact .inl (List.mem_of_mem_dropLast h)
    · simpa using h

theorem mem_resolveFrom {p : Path} {acc s name : Str} (h : name ∈ resolveFrom p acc s) :
    name ∈ p ∨ ∀ c ∈ name, c ∈ acc ∨ c ∈ s := by
  induction s generalizing p acc with
  | nil =>
    rcases mem_enter h with old | rfl
    · exact .inl old
    · exact .inr fun c hc => .inl hc
  | cons d s ih =>
    rw [resolveFrom] at h
    split at h
    · rcases ih h with entered | later
      · rcases mem_enter entered with old | rfl
        · exact .inl old
        · exact .inr fun c hc => .inl hc
      · exact .inr fun c hc => .inr (List.mem_cons_of_mem d ((later c hc).resolve_left
          List.not_mem_nil))
    · rcases ih h with old | later
      · exact .inl old
      · refine .inr fun c hc => ?_
        rcases later c hc with mem | mem
        · rcases List.mem_append.mp mem with old | new
          · exact .inl old
          · rw [List.mem_singleton.mp new]
            exact .inr List.mem_cons_self
        · exact .inr (List.mem_cons_of_mem d mem)

/-- The components of a path are made of the characters of its name. -/
theorem mem_resolve {s name : Str} (h : name ∈ resolve s) {c : Char} (hc : c ∈ name) : c ∈ s := by
  rcases mem_resolveFrom h with absent | all
  · cases absent
  · exact (all c hc).resolve_left List.not_mem_nil

/-- A plain name below a resolved folder. -/
theorem resolve_entry (folder : Str) {name : Str} (plain : PlainName name) :
    resolve (folder ++ '/' :: name) = resolve folder ++ [name] := by
  rw [resolve, resolveFrom_slash, resolveFrom_noSlash _ _ plain.noSlash]
  exact enter_plain plain _

/-- Plain names below a resolved folder, with slashes between them. -/
theorem resolve_entries (folder : Str) {names : Path} (nonempty : names ≠ [])
    (plain : ∀ name ∈ names, PlainName name) :
    resolve (folder ++ '/' :: ['/'].intercalate names) = resolve folder ++ names := by
  induction names generalizing folder with
  | nil => exact absurd rfl nonempty
  | cons name names ih =>
    have first := plain name List.mem_cons_self
    cases names with
    | nil =>
      rw [List.intercalate_singleton]
      exact resolve_entry folder first
    | cons next names =>
      have below := ih (folder ++ '/' :: name) (by simp) fun other h =>
        plain other (List.mem_cons_of_mem name h)
      rw [resolve_entry folder first] at below
      have spelled : folder ++ '/' :: ['/'].intercalate (name :: next :: names) =
          (folder ++ '/' :: name) ++ '/' :: ['/'].intercalate (next :: names) := by
        simp [List.intercalate_cons_cons]
      rw [spelled, below, List.append_assoc, List.singleton_append]

end FileTree
