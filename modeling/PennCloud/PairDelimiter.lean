import Mathlib.Data.List.DropRight
import Mathlib.Data.List.Infix
import Mathlib.Algebra.Group.Nat.Even

/-!
# Pieces that end with a pair of symbols

A stream is cut at the first `a` that a `b` follows. A machine with two states
that takes the symbol after an `a` for text, also where it is another `a`,
finds the same cut exactly where an even number of `a` stands before the pair.
-/

namespace PairDelimiter

universe u
variable {α : Type u} [DecidableEq α] (a b : α)

/-- The symbols before the first `a b`, and what follows it. -/
def cutFirst : List α → Option (List α × List α)
  | [] => none
  | [_] => none
  | x :: y :: s =>
    if x = a ∧ y = b then some ([], s)
    else (cutFirst (y :: s)).map fun cut => (x :: cut.1, cut.2)

/-- The machine that has just taken an `a` or has not. -/
def scan : Bool → List α → Option (List α × List α)
  | _, [] => none
  | false, x :: s =>
    if x = a then scan true s else (scan false s).map fun cut => (x :: cut.1, cut.2)
  | true, x :: s =>
    if x = b then some ([], s) else (scan false s).map fun cut => (a :: x :: cut.1, cut.2)

/-- The number of `a` at the end is even. -/
def Paired (piece : List α) : Prop := Even (piece.rtakeWhile (· = a)).length

instance : DecidablePred (Paired a) := fun _ => inferInstanceAs (Decidable (Even _))

/-- All that stands between pairs, and after the last of them. -/
def pieces : List α → List (List α)
  | [] => [[]]
  | [x] => [[x]]
  | x :: y :: s =>
    if x = a ∧ y = b then [] :: pieces s
    else match pieces (y :: s) with
      | [] => [[x]]
      | piece :: later => (x :: piece) :: later

/-- Each pair `a b` is turned into `b`. -/
def turned : List α → List α
  | [] => []
  | [x] => [x]
  | x :: y :: s => if x = a ∧ y = b then b :: turned s else x :: turned (y :: s)

/-- The machine reads these pieces from the stream, one after the other, and leaves the rest. -/
inductive Scanned : List α → List (List α) → List α → Prop where
  | nil (s : List α) : Scanned s [] s
  | cons {s piece t : List α} {later : List (List α)} {rest : List α}
      (found : scan a b false s = some (piece, t)) (after : Scanned t later rest) :
      Scanned s (piece :: later) rest

variable {a b}

/-! ### The first pair -/

theorem cutFirst_sound {s piece rest : List α} (cut : cutFirst a b s = some (piece, rest)) :
    s = piece ++ a :: b :: rest := by
  induction s generalizing piece with
  | nil => cases cut
  | cons x s ih =>
    cases s with
    | nil => cases cut
    | cons y s =>
      rw [cutFirst] at cut
      split at cut
      case isTrue pair =>
        obtain ⟨rfl, rfl⟩ := pair
        cases cut
        rfl
      case isFalse =>
        obtain ⟨⟨front, back⟩, found, same⟩ := Option.map_eq_some_iff.mp cut
        cases same
        rw [ih found]
        rfl

/-- Where there is a pair the stream is cut. -/
theorem cutFirst_isSome (piece rest : List α) : (cutFirst a b (piece ++ a :: b :: rest)).isSome := by
  induction piece with
  | nil => simp [cutFirst]
  | cons x piece ih =>
    cases piece with
    | nil =>
      rw [List.nil_append] at ih
      rw [List.cons_append, List.nil_append, cutFirst]
      split
      · rfl
      · rwa [Option.isSome_map]
    | cons y piece =>
      rw [List.cons_append, List.cons_append, cutFirst]
      split
      · rfl
      · rwa [Option.isSome_map]

theorem cutFirst_eq_none_iff {s : List α} : cutFirst a b s = none ↔ ¬ [a, b] <:+: s := by
  constructor
  · rintro none ⟨front, back, rfl⟩
    have found := cutFirst_isSome (a := a) (b := b) front back
    rw [List.append_assoc] at none
    rw [show front ++ a :: b :: back = front ++ ([a, b] ++ back) from rfl, none] at found
    cases found
  · intro without
    cases cut : cutFirst a b s with
    | none => rfl
    | some found =>
      refine absurd ⟨found.1, found.2, ?_⟩ without
      rw [List.append_assoc]
      exact (cutFirst_sound cut).symm

/-! ### The machine -/

theorem scan_sound (s : List α) :
    (∀ piece rest, scan a b false s = some (piece, rest) → s = piece ++ a :: b :: rest) ∧
      ∀ piece rest, scan a b true s = some (piece, rest) → a :: s = piece ++ a :: b :: rest := by
  induction s with
  | nil =>
    constructor
    · intro _ _ found
      cases found
    · intro _ _ found
      cases found
  | cons x s ih =>
    constructor
    · intro piece rest found
      rw [scan] at found
      split at found
      case isTrue same =>
        rw [same]
        exact ih.2 piece rest found
      case isFalse =>
        obtain ⟨cut, later, same⟩ := Option.map_eq_some_iff.mp found
        cases same
        rw [ih.1 _ _ later]
        rfl
    · intro piece rest found
      rw [scan] at found
      split at found
      case isTrue same =>
        cases found
        rw [same]
        rfl
      case isFalse =>
        obtain ⟨cut, later, same⟩ := Option.map_eq_some_iff.mp found
        cases same
        rw [ih.1 _ _ later]
        rfl

theorem paired_nil : Paired a [] := by
  rw [Paired, List.rtakeWhile_nil]
  exact Even.zero

/-- Symbols at the end of a longer piece. -/
theorem rtakeWhile_cons (x : α) (piece : List α) :
    (x :: piece).rtakeWhile (· = a) =
      if ∀ y ∈ piece, y = a then (if x = a then x :: piece else piece)
      else piece.rtakeWhile (· = a) := by
  rw [List.rtakeWhile, List.reverse_cons, List.takeWhile_append]
  split
  case isTrue whole =>
    have all : ∀ y ∈ piece, y = a := by
      intro y mem
      have kept := (List.takeWhile_prefix (· = a) (l := piece.reverse)).eq_of_length whole
      have taken : y ∈ piece.reverse.takeWhile (· = a) := by
        rw [kept]
        exact List.mem_reverse.mpr mem
      have holds := List.mem_takeWhile_imp (p := (decide <| · = a)) taken
      exact of_decide_eq_true holds
    rw [if_pos all]
    by_cases same : x = a <;> simp [same]
  case isFalse part =>
    rw [if_neg, List.rtakeWhile]
    intro all
    refine part (congrArg List.length (List.takeWhile_eq_self_iff.mpr ?_))
    intro y mem
    simpa using all y (List.mem_reverse.mp mem)

theorem rtakeWhile_of_all {piece : List α} (all : ∀ y ∈ piece, y = a) :
    piece.rtakeWhile (· = a) = piece := List.rtakeWhile_eq_self_iff.mpr (by simpa using all)

theorem paired_cons {x : α} (other : x ≠ a) (piece : List α) : Paired a (x :: piece) ↔ Paired a piece := by
  rw [Paired, Paired, rtakeWhile_cons, if_neg other]
  split
  case isTrue all => rw [rtakeWhile_of_all all]
  case isFalse => rfl

/-- Two symbols of which the first is an `a` change nothing. -/
theorem paired_cons_cons (x : α) (piece : List α) : Paired a (a :: x :: piece) ↔ Paired a piece := by
  by_cases same : x = a
  · rw [same, Paired, Paired, rtakeWhile_cons, rtakeWhile_cons]
    by_cases all : ∀ y ∈ piece, y = a
    · have more : ∀ y ∈ a :: piece, y = a := List.forall_mem_cons.mpr ⟨rfl, all⟩
      rw [if_pos more, if_pos rfl, rtakeWhile_of_all all, List.length_cons, List.length_cons,
        Nat.even_add_one, Nat.even_add_one, not_not]
    · have fewer : ¬ ∀ y ∈ a :: piece, y = a := fun more => all (List.forall_mem_cons.mp more).2
      rw [if_neg fewer, if_neg all]
  · rw [Paired, rtakeWhile_cons, if_neg fun all => same (all x List.mem_cons_self)]
    exact paired_cons same piece

theorem cutFirst_cons {x : α} {s piece rest : List α}
    (cut : cutFirst a b (x :: s) = some (x :: piece, rest)) :
    cutFirst a b s = some (piece, rest) ∧ ¬ (x = a ∧ s.head? = some b) := by
  cases s with
  | nil => cases cut
  | cons y s =>
    rw [cutFirst] at cut
    split at cut
    case isTrue => cases cut
    case isFalse other =>
      obtain ⟨found, later, same⟩ := Option.map_eq_some_iff.mp cut
      cases same
      exact ⟨later, fun pair => other ⟨pair.1, Option.some.inj pair.2⟩⟩

omit [DecidableEq α] in
theorem map_eq_some_cons {found : Option (List α × List α)} (front piece rest : List α) :
    (found.map fun cut => (front ++ cut.1, cut.2)) = some (front ++ piece, rest) ↔
      found = some (piece, rest) := by
  constructor
  · intro same
    obtain ⟨cut, was, same⟩ := Option.map_eq_some_iff.mp same
    obtain ⟨fronts, rests⟩ := Prod.mk.inj same
    rw [was, ← List.append_cancel_left fronts, ← rests]
  · rintro rfl
    rfl

/-- The machine finds the first pair exactly where what stands before it is paired. -/
theorem scan_eq_iff (ne : a ≠ b) {s piece rest : List α}
    (cut : cutFirst a b s = some (piece, rest)) :
    scan a b false s = some (piece, rest) ↔ Paired a piece := by
  induction length : piece.length using Nat.strong_induction_on generalizing s piece with
  | _ n ih =>
    subst length
    obtain rfl := cutFirst_sound cut
    match piece with
    | [] =>
      rw [List.nil_append, scan, if_pos rfl, scan, if_pos rfl]
      exact ⟨fun _ => paired_nil, fun _ => rfl⟩
    | x :: piece =>
      obtain ⟨later, apart⟩ := cutFirst_cons cut
      by_cases same : x = a
      · rw [List.cons_append, scan, if_pos same]
        subst same
        match piece with
        | [] =>
          rw [List.nil_append, scan, if_neg ne]
          constructor
          · intro found
            obtain ⟨cut, _, same⟩ := Option.map_eq_some_iff.mp found
            cases same
          · intro paired
            rw [Paired, rtakeWhile_cons, if_pos (List.forall_mem_nil _), if_pos rfl] at paired
            exact absurd paired Nat.not_even_one
        | y :: piece =>
          have text : y ≠ b := fun same => apart ⟨rfl, congrArg some same⟩
          rw [List.cons_append, scan, if_neg text, paired_cons_cons,
            ← ih piece.length (Nat.lt_add_of_pos_right (Nat.succ_pos 1)) (cutFirst_cons later).1 rfl]
          exact map_eq_some_cons [x, y] piece rest
      · rw [List.cons_append, scan, if_neg same, paired_cons same,
          ← ih piece.length (Nat.lt_succ_self _) later rfl]
        exact map_eq_some_cons [x] piece rest

/-! ### All pieces -/

theorem pieces_ne_nil (s : List α) : pieces a b s ≠ [] := by
  match s with
  | [] => exact List.cons_ne_nil _ _
  | [_] => exact List.cons_ne_nil _ _
  | x :: y :: s =>
    rw [pieces]
    split
    · exact List.cons_ne_nil _ _
    · split <;> exact List.cons_ne_nil _ _

theorem pieces_cons {x : α} {s : List α} (apart : ¬ (x = a ∧ s.head? = some b)) :
    ∃ piece later, pieces a b s = piece :: later ∧ pieces a b (x :: s) = (x :: piece) :: later := by
  cases s with
  | nil => exact ⟨[], [], rfl, rfl⟩
  | cons y s =>
    obtain ⟨piece, later, same⟩ := List.exists_cons_of_ne_nil (pieces_ne_nil (a := a) (b := b) (y :: s))
    refine ⟨piece, later, same, ?_⟩
    rw [pieces, if_neg (fun pair => apart ⟨pair.1, congrArg some pair.2⟩), same]

theorem pieces_pair (s : List α) : pieces a b (a :: b :: s) = [] :: pieces a b s := by
  rw [pieces, if_pos ⟨rfl, rfl⟩]

omit [DecidableEq α] in
theorem head?_append_pair (ne : a ≠ b) (front s : List α) (x : α) :
    (x = a ∧ (front ++ a :: b :: s).head? = some b) ↔ x = a ∧ front.head? = some b := by
  cases front with
  | nil => simp [ne]
  | cons y front => rfl

/-- The pieces on both sides of a pair. -/
theorem pieces_append (ne : a ≠ b) (front s : List α) :
    pieces a b (front ++ a :: b :: s) = pieces a b front ++ pieces a b s := by
  induction length : front.length using Nat.strong_induction_on generalizing front with
  | _ n ih =>
    subst length
    match front with
    | [] => exact pieces_pair s
    | x :: front =>
      by_cases pair : x = a ∧ front.head? = some b
      · obtain ⟨rfl, head⟩ := pair
        obtain ⟨front, rfl⟩ := List.head?_eq_some_iff.mp head
        rw [List.cons_append, List.cons_append, pieces_pair, pieces_pair,
          ih front.length (Nat.lt_add_of_pos_right (Nat.succ_pos 1)) front rfl]
        rfl
      · obtain ⟨piece, later, here, same⟩ := pieces_cons (b := b) pair
        obtain ⟨piece', later', here', same'⟩ :=
          pieces_cons (b := b) (mt (head?_append_pair ne front s x).mp pair)
        rw [List.cons_append, same', same]
        rw [ih front.length (Nat.lt_succ_self _) front rfl, here] at here'
        cases here'
        rfl

/-- What stands before the first pair is one piece. -/
theorem pieces_of_cutFirst {s piece rest : List α} (cut : cutFirst a b s = some (piece, rest)) :
    pieces a b s = piece :: pieces a b rest := by
  induction piece generalizing s with
  | nil =>
    rw [cutFirst_sound cut]
    exact pieces_pair rest
  | cons x piece ih =>
    have same := cutFirst_sound cut
    cases s with
    | nil => cases cut
    | cons y s =>
      cases (List.cons.inj same).1
      obtain ⟨later, apart⟩ := cutFirst_cons cut
      obtain ⟨first, others, here, same⟩ := pieces_cons (b := b) apart
      rw [ih later] at here
      cases here
      exact same

theorem pieces_of_none {s : List α} (none : cutFirst a b s = none) : pieces a b s = [s] := by
  induction s with
  | nil => rfl
  | cons x s ih =>
    have apart : ¬ (x = a ∧ s.head? = some b) := by
      rintro ⟨rfl, head⟩
      obtain ⟨s, rfl⟩ := List.head?_eq_some_iff.mp head
      rw [cutFirst, if_pos ⟨rfl, rfl⟩] at none
      cases none
    have later : cutFirst a b s = .none := by
      cases s with
      | nil => rfl
      | cons y s =>
        rw [cutFirst, if_neg (fun pair => apart ⟨pair.1, congrArg some pair.2⟩)] at none
        exact Option.map_eq_none_iff.mp none
    obtain ⟨first, others, here, same⟩ := pieces_cons (b := b) apart
    rw [ih later] at here
    cases here
    exact same

theorem pieces_of_not_mem {s : List α} (absent : a ∉ s) : pieces a b s = [s] := by
  refine pieces_of_none (cutFirst_eq_none_iff.mpr ?_)
  rintro ⟨front, back, rfl⟩
  exact absurd absent (by simp)

theorem paired_of_not_mem {s : List α} (absent : a ∉ s) : Paired a s := by
  induction s with
  | nil => exact paired_nil
  | cons x s ih =>
    obtain ⟨other, absent⟩ := not_or.mp (List.mem_cons.not.mp absent)
    exact (paired_cons (Ne.symm other) s).mpr (ih absent)

/-- A piece with nothing of a pair in it is cut off whole. -/
theorem cutFirst_of_pieces (ne : a ≠ b) {piece : List α} (single : pieces a b piece = [piece])
    (s : List α) : cutFirst a b (piece ++ a :: b :: s) = some (piece, s) := by
  obtain ⟨⟨front, back⟩, cut⟩ :=
    Option.isSome_iff_exists.mp (cutFirst_isSome (a := a) (b := b) piece s)
  have here := pieces_append ne piece s
  rw [pieces_of_cutFirst cut, single] at here
  obtain rfl : front = piece := (List.cons.inj here).1
  cases List.append_cancel_left (cutFirst_sound cut)
  exact cut

theorem single_of_cutFirst (ne : a ≠ b) {s piece rest : List α}
    (cut : cutFirst a b s = some (piece, rest)) : pieces a b piece = [piece] := by
  have both := pieces_of_cutFirst cut
  rw [cutFirst_sound cut, pieces_append ne] at both
  exact List.append_cancel_right
    (show pieces a b piece ++ pieces a b rest = [piece] ++ pieces a b rest from both)

theorem turned_append (s : List α) :
    turned a b s ++ [b] = (pieces a b s).flatMap fun piece => piece ++ [b] := by
  induction s using turned.induct a b with
  | case1 => rfl
  | case2 x => rfl
  | case3 x y s pair ih =>
    rw [turned, pieces, if_pos pair, if_pos pair, List.cons_append, ih]
    rfl
  | case4 x y s other ih =>
    obtain ⟨piece, later, same⟩ :=
      List.exists_cons_of_ne_nil (pieces_ne_nil (a := a) (b := b) (y :: s))
    rw [turned, pieces, if_neg other, if_neg other, List.cons_append, ih, same]
    rfl

theorem length_turned (s : List α) :
    (turned a b s).length + (pieces a b s).length = s.length + 1 := by
  induction s using turned.induct a b with
  | case1 => rfl
  | case2 x => rfl
  | case3 x y s pair ih =>
    rw [turned, pieces, if_pos pair, if_pos pair]
    simp only [List.length_cons]
    omega
  | case4 x y s other ih =>
    obtain ⟨piece, later, same⟩ :=
      List.exists_cons_of_ne_nil (pieces_ne_nil (a := a) (b := b) (y :: s))
    rw [turned, pieces, if_neg other, if_neg other]
    rw [same] at ih ⊢
    simp only [List.length_cons] at ih ⊢
    omega

theorem single_of_length {s : List α} (one : (pieces a b s).length = 1) : pieces a b s = [s] := by
  cases cut : cutFirst a b s with
  | none => exact pieces_of_none cut
  | some found =>
    have more := pieces_ne_nil (a := a) (b := b) found.2
    rw [pieces_of_cutFirst cut, List.length_cons] at one
    exact absurd (List.length_eq_zero_iff.mp (Nat.succ.inj one)) more

theorem length_turned_le (s : List α) : (turned a b s).length ≤ s.length := by
  have length := length_turned (a := a) (b := b) s
  have some := List.length_pos_iff.mpr (pieces_ne_nil (a := a) (b := b) s)
  omega

theorem length_flatMap_turned_le (texts : List (List α)) :
    (texts.flatMap fun text => turned a b text ++ [b]).length ≤
      (texts.flatMap fun text => text ++ [b]).length := by
  induction texts with
  | nil => exact Nat.le_refl 0
  | cons text texts ih =>
    have here := length_turned_le (a := a) (b := b) text
    simp only [List.flatMap_cons, List.length_append]
    omega

/-- A list of texts that the turning changes in no place has no pair in any. -/
theorem single_of_turned {texts : List (List α)}
    (same : (texts.flatMap fun text => turned a b text ++ [b]) =
      texts.flatMap fun text => text ++ [b]) :
    ∀ text ∈ texts, pieces a b text = [text] := by
  induction texts with
  | nil => exact List.forall_mem_nil _
  | cons text texts ih =>
    rw [List.flatMap_cons, List.flatMap_cons] at same
    have here := length_turned_le (a := a) (b := b) text
    have after := length_flatMap_turned_le (a := a) (b := b) texts
    have lengths := congrArg List.length same
    simp only [List.length_append] at lengths
    obtain ⟨-, later⟩ := List.append_inj same (by simp only [List.length_append]; omega)
    refine List.forall_mem_cons.mpr ⟨single_of_length ?_, ih later⟩
    have length := length_turned (a := a) (b := b) text
    omega

theorem pieces_flatMap (ne : a ≠ b) (texts : List (List α)) :
    pieces a b (texts.flatMap fun text => text ++ [a, b]) = texts.flatMap (pieces a b) ++ [[]] := by
  induction texts with
  | nil => rfl
  | cons text texts ih =>
    rw [List.flatMap_cons, List.append_assoc, List.flatMap_cons, List.append_assoc, ← ih]
    exact pieces_append ne text _

/-- A cutting into texts that turns each pair is the cutting into pieces. -/
theorem eq_pieces_of_turned (ne : a ≠ b) {s : List α} {texts : List (List α)}
    (whole : s ++ [a, b] = texts.flatMap fun text => text ++ [a, b])
    (same : turned a b s ++ [b] = texts.flatMap fun text => text ++ [b]) :
    texts = pieces a b s ∧ ∀ text ∈ texts, pieces a b text = [text] := by
  have both : pieces a b s = texts.flatMap (pieces a b) := by
    have parts := pieces_flatMap ne texts
    rw [← whole, pieces_append ne s []] at parts
    exact List.append_cancel_right parts
  have single : ∀ text ∈ texts, pieces a b text = [text] := by
    refine single_of_turned ?_
    rw [← same, turned_append, both, List.flatMap_assoc]
    exact congrArg texts.flatMap (funext fun text => turned_append text)
  refine ⟨?_, single⟩
  rw [both, List.flatMap_congr single]
  exact (List.flatMap_singleton' texts).symm

/-! ### Reading piece by piece -/

theorem Scanned.append {s t rest : List α} {front back : List (List α)}
    (first : Scanned a b s front t) (second : Scanned a b t back rest) :
    Scanned a b s (front ++ back) rest := by
  induction first with
  | nil => exact second
  | cons found _ ih => exact .cons found (ih second)

theorem Scanned.sound {s rest : List α} {read : List (List α)} (scanned : Scanned a b s read rest) :
    s = (read.flatMap fun piece => piece ++ [a, b]) ++ rest := by
  induction scanned with
  | nil => rfl
  | cons found _ ih =>
    rw [(scan_sound _).1 _ _ found, List.flatMap_cons, List.append_assoc, ← ih, List.append_assoc]
    rfl

theorem Scanned.unique {s : List α} {read read' : List (List α)} (first : Scanned a b s read [])
    (second : Scanned a b s read' []) : read = read' := by
  induction read generalizing s read' with
  | nil =>
    cases first
    cases second with
    | nil => rfl
    | cons found _ => cases found
  | cons piece read ih =>
    cases first with
    | cons found after =>
      cases second with
      | nil => cases found
      | cons found' after' =>
        cases found.symm.trans found'
        rw [ih after after']

/-- Where every piece is paired the machine reads the pieces. -/
theorem scanned_pieces (ne : a ≠ b) {s : List α} (paired : ∀ piece ∈ pieces a b s, Paired a piece)
    (t : List α) : Scanned a b (s ++ a :: b :: t) (pieces a b s) t := by
  induction length : s.length using Nat.strong_induction_on generalizing s with
  | _ n ih =>
    subst length
    cases cut : cutFirst a b s with
    | none =>
      have single := pieces_of_none cut
      rw [single] at paired ⊢
      have whole := (scan_eq_iff ne (cutFirst_of_pieces ne single t)).mpr
        (paired s List.mem_cons_self)
      exact .cons whole (.nil t)
    | some found =>
      obtain ⟨piece, rest⟩ := found
      rw [pieces_of_cutFirst cut] at paired ⊢
      obtain ⟨first, later⟩ := List.forall_mem_cons.mp paired
      obtain rfl := cutFirst_sound cut
      have here := cutFirst_of_pieces ne (single_of_cutFirst ne cut) (rest ++ a :: b :: t)
      rw [List.append_assoc]
      refine .cons ((scan_eq_iff ne here).mpr first) (ih rest.length ?_ later rfl)
      rw [List.length_append, List.length_cons, List.length_cons]
      omega

/-- What is read without a pair in it is paired. -/
theorem Scanned.paired (ne : a ≠ b) {s rest : List α} {read : List (List α)}
    (scanned : Scanned a b s read rest) (single : ∀ piece ∈ read, pieces a b piece = [piece]) :
    ∀ piece ∈ read, Paired a piece := by
  induction scanned with
  | nil => exact List.forall_mem_nil _
  | cons found _ ih =>
    obtain ⟨first, later⟩ := List.forall_mem_cons.mp single
    refine List.forall_mem_cons.mpr ⟨?_, ih later⟩
    have cut := cutFirst_of_pieces ne first
    rw [(scan_sound _).1 _ _ found] at found
    exact (scan_eq_iff ne (cut _)).mp found

/-! ### Other symbols for the same stream -/

theorem scan_map {β : Type u} [DecidableEq β] {f : α → β} (injective : Function.Injective f)
    (gr : Bool) (s : List α) :
    scan (f a) (f b) gr (s.map f) =
      (scan a b gr s).map fun cut => (cut.1.map f, cut.2.map f) := by
  induction s generalizing gr with
  | nil => cases gr <;> rfl
  | cons x s ih =>
    cases gr with
    | false =>
      rw [List.map_cons, scan, scan, ih, ih]
      simp only [injective.eq_iff]
      split
      · rfl
      · rw [Option.map_map, Option.map_map]
        rfl
    | true =>
      rw [List.map_cons, scan, scan, ih]
      simp only [injective.eq_iff]
      split
      · rfl
      · rw [Option.map_map, Option.map_map]
        rfl

end PairDelimiter
