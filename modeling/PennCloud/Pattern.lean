import PennCloud.Text

/-!
# Header patterns

The regular expressions of the record headers are rows of literal characters
and greedy captured runs over a character class. The matcher is the
backtracking one of ECMAScript: a run takes as much as it can and gives
characters back while the rest of the pattern fails, and a search reports the
leftmost match.
-/

namespace Pattern

open Text

inductive Item where
  | one (accepts : Char → Bool)
  | run (least : Nat) (accepts : Char → Bool)

/-- A literal piece of a pattern. -/
def lit (word : Str) : List Item := word.map fun c => .one (· == c)

/-- The escape `\s`. -/
def blank : Item := .one isSpace

/-- A matched run goes on as long as it can before the rest of the pattern is tried. -/
def matchRun (least : Nat) (accepts : Char → Bool)
    (after : Str → Option (List Str × Nat)) : Str → Str → Option (List Str × Nat)
  | taken, [] =>
    if least ≤ taken.length then (after []).map fun r => (taken :: r.1, taken.length + r.2)
    else none
  | taken, c :: cs =>
    let stop :=
      if least ≤ taken.length then
        (after (c :: cs)).map fun r => (taken :: r.1, taken.length + r.2)
      else none
    if accepts c then (matchRun least accepts after (taken ++ [c]) cs).or stop else stop

/-- The captures of a match at the start of the text, and its length. -/
def matchItems : List Item → Str → Option (List Str × Nat)
  | [], _ => some ([], 0)
  | .one _ :: _, [] => none
  | .one accepts :: rest, c :: cs =>
    if accepts c then (matchItems rest cs).map fun r => (r.1, r.2 + 1) else none
  | .run least accepts :: rest, s => matchRun least accepts (matchItems rest) [] s

/-- The captures are one run of each class of the pattern. -/
def Captured : List Item → List Str → Prop
  | [], captures => captures = []
  | .one _ :: rest, captures => Captured rest captures
  | .run least accepts :: rest, captures => ∃ taken later, captures = taken :: later ∧
    least ≤ taken.length ∧ (∀ c ∈ taken, accepts c = true) ∧ Captured rest later

theorem captured_matchRun {least : Nat} {accepts : Char → Bool} {rest : List Item}
    {after : Str → Option (List Str × Nat)}
    (tail : ∀ s r, after s = some r → Captured rest r.1) {taken s : Str} {r : List Str × Nat}
    (accepted : ∀ c ∈ taken, accepts c = true)
    (h : matchRun least accepts after taken s = some r) :
    Captured (.run least accepts :: rest) r.1 := by
  have stops : ∀ (taken s : Str), (∀ c ∈ taken, accepts c = true) →
      (if least ≤ taken.length then
        (after s).map fun r => (taken :: r.1, taken.length + r.2) else none) = some r →
      Captured (.run least accepts :: rest) r.1 := by
    intro taken s accepted h
    split at h
    · rename_i enough
      obtain ⟨q, hq, rfl⟩ := Option.map_eq_some_iff.mp h
      exact ⟨taken, q.1, rfl, enough, accepted, tail s q hq⟩
    · cases h
  induction s generalizing taken with
  | nil => exact stops taken [] accepted h
  | cons c cs ih =>
    rw [matchRun] at h
    split at h
    · rename_i accepts
      rcases Option.or_eq_some_iff.mp h with longer | ⟨-, stop⟩
      · refine ih (fun d hd => ?_) longer
        rcases List.mem_append.mp hd with old | new
        · exact accepted d old
        · rw [List.mem_singleton.mp new]
          exact accepts
      · exact stops taken (c :: cs) accepted stop
    · exact stops taken (c :: cs) accepted h

theorem captured_matchItems {pattern : List Item} {s : Str} {r : List Str × Nat}
    (h : matchItems pattern s = some r) : Captured pattern r.1 := by
  induction pattern generalizing s r with
  | nil =>
    cases h
    rfl
  | cons item rest ih =>
    cases item with
    | one accepts =>
      cases s with
      | nil => cases h
      | cons c cs =>
        rw [matchItems] at h
        split at h
        · obtain ⟨q, hq, rfl⟩ := Option.map_eq_some_iff.mp h
          exact ih (r := q) hq
        · cases h
    | run least accepts => exact captured_matchRun (fun s r => ih) (by simp) h

/-- The pattern matches a beginning of the text, whatever the runs take. -/
def Accepts : List Item → Str → Prop
  | [], _ => True
  | .one accepts :: rest, s => ∃ c t, s = c :: t ∧ accepts c = true ∧ Accepts rest t
  | .run least accepts :: rest, s => ∃ taken t, s = taken ++ t ∧ least ≤ taken.length ∧
    (∀ c ∈ taken, accepts c = true) ∧ Accepts rest t

theorem accepts_matchRun {least : Nat} {accepts : Char → Bool} {rest : List Item}
    {after : Str → Option (List Str × Nat)} (tail : ∀ s r, after s = some r → Accepts rest s)
    (taken : Str) {s : Str} {r : List Str × Nat} (accepted : ∀ c ∈ taken, accepts c = true)
    (h : matchRun least accepts after taken s = some r) :
    Accepts (.run least accepts :: rest) (taken ++ s) := by
  have stops : ∀ (taken s : Str), (∀ c ∈ taken, accepts c = true) →
      (if least ≤ taken.length then
        (after s).map fun r => (taken :: r.1, taken.length + r.2) else none) = some r →
      Accepts (.run least accepts :: rest) (taken ++ s) := by
    intro taken s accepted h
    split at h
    · rename_i enough
      obtain ⟨q, hq, -⟩ := Option.map_eq_some_iff.mp h
      exact ⟨taken, s, rfl, enough, accepted, tail s q hq⟩
    · cases h
  induction s generalizing taken with
  | nil => exact stops taken [] accepted h
  | cons c cs ih =>
    rw [matchRun] at h
    split at h
    · rename_i accepts
      rcases Option.or_eq_some_iff.mp h with longer | ⟨-, stop⟩
      · rw [List.append_cons]
        refine ih _ (fun d hd => ?_) longer
        rcases List.mem_append.mp hd with old | new
        · exact accepted d old
        · rw [List.mem_singleton.mp new]
          exact accepts
      · exact stops taken (c :: cs) accepted stop
    · exact stops taken (c :: cs) accepted h

theorem accepts_matchItems {pattern : List Item} {s : Str} {r : List Str × Nat}
    (h : matchItems pattern s = some r) : Accepts pattern s := by
  induction pattern generalizing s r with
  | nil => trivial
  | cons item rest ih =>
    cases item with
    | one accepts =>
      cases s with
      | nil => cases h
      | cons c cs =>
        rw [matchItems] at h
        split at h
        · rename_i accepted
          obtain ⟨q, hq, -⟩ := Option.map_eq_some_iff.mp h
          exact ⟨c, cs, rfl, accepted, ih hq⟩
        · cases h
    | run least accepts => exact accepts_matchRun (fun s r => ih) [] (by simp) h

theorem matchItems_eq_none {pattern : List Item} {s : Str} (refused : ¬ Accepts pattern s) :
    matchItems pattern s = none :=
  Option.eq_none_iff_forall_ne_some.mpr fun _ h => refused (accepts_matchItems h)

theorem accepts_lit {word s : Str} {pattern : List Item} :
    Accepts (lit word ++ pattern) s ↔ ∃ t, s = word ++ t ∧ Accepts pattern t := by
  induction word generalizing s with
  | nil => simp [lit]
  | cons c word ih =>
    constructor
    · rintro ⟨d, t, rfl, same, accepts⟩
      obtain ⟨u, rfl, tail⟩ := ih.mp accepts
      exact ⟨u, by simp [eq_of_beq same], tail⟩
    · rintro ⟨t, rfl, accepts⟩
      exact ⟨c, word ++ t, rfl, by simp, ih.mpr ⟨t, rfl, accepts⟩⟩

theorem captured_lit {word : Str} {rest : List Item} {captures : List Str} :
    Captured (lit word ++ rest) captures ↔ Captured rest captures := by
  induction word with
  | nil => rfl
  | cons c word ih => exact ih

theorem matchItems_lit (word : Str) (pattern : List Item) (s : Str) :
    matchItems (lit word ++ pattern) (word ++ s) =
      (matchItems pattern s).map fun r => (r.1, r.2 + word.length) := by
  induction word with
  | nil => simp [lit]
  | cons c word ih =>
    have tail : matchItems (lit (c :: word) ++ pattern) (c :: word ++ s) =
        (matchItems (lit word ++ pattern) (word ++ s)).map fun r => (r.1, r.2 + 1) :=
      if_pos (by simp)
    rw [tail, ih, Option.map_map]
    rfl

/-- The captures of a match of the whole text: `std::regex_match`. -/
def matchWhole : List Item → Str → Option (List Str)
  | [], [] => some []
  | [], _ :: _ => none
  | .one _ :: _, [] => none
  | .one accepts :: rest, c :: cs => if accepts c then matchWhole rest cs else none
  | .run least accepts :: rest, s =>
    (matchRun least accepts (fun t => (matchWhole rest t).map fun captures => (captures, 0)) []
      s).map Prod.fst

/-- The pattern matches the whole text, whatever the runs take. -/
def Matches : List Item → Str → Prop
  | [], s => s = []
  | .one accepts :: rest, s => ∃ c t, s = c :: t ∧ accepts c = true ∧ Matches rest t
  | .run least accepts :: rest, s => ∃ taken t, s = taken ++ t ∧ least ≤ taken.length ∧
    (∀ c ∈ taken, accepts c = true) ∧ Matches rest t

/-- A run stops wherever the rest of the pattern can go on. -/
theorem matchRun_isSome {least : Nat} {accepts : Char → Bool}
    {after : Str → Option (List Str × Nat)} (taken s : Str) :
    (matchRun least accepts after taken s).isSome ↔ ∃ more t, s = more ++ t ∧
      least ≤ (taken ++ more).length ∧ (∀ c ∈ more, accepts c = true) ∧ (after t).isSome := by
  induction s generalizing taken with
  | nil =>
    rw [matchRun]
    constructor
    · intro h
      split at h
      · exact ⟨[], [], rfl, by simpa, by simp, by simpa using h⟩
      · cases h
    · rintro ⟨more, t, same, enough, -, tail⟩
      obtain ⟨rfl, rfl⟩ := List.append_eq_nil_iff.mp same.symm
      rw [if_pos (by simpa using enough)]
      simpa using tail
  | cons c cs ih =>
    rw [matchRun]
    constructor
    · intro h
      have stops : (if least ≤ taken.length then
          (after (c :: cs)).map fun r => (taken :: r.1, taken.length + r.2) else none).isSome →
          ∃ more t, c :: cs = more ++ t ∧ least ≤ (taken ++ more).length ∧
            (∀ d ∈ more, accepts d = true) ∧ (after t).isSome := by
        intro h
        split at h
        · exact ⟨[], c :: cs, rfl, by simpa, by simp, by simpa using h⟩
        · cases h
      split at h
      · rename_i accepted
        rw [Option.isSome_or, Bool.or_eq_true] at h
        rcases h with longer | stop
        · obtain ⟨more, t, rfl, enough, accepted', tail⟩ := (ih _).mp longer
          refine ⟨c :: more, t, rfl, by simpa using enough, ?_, tail⟩
          exact List.forall_mem_cons.mpr ⟨accepted, accepted'⟩
        · exact stops stop
      · exact stops h
    · rintro ⟨more, t, same, enough, accepted, tail⟩
      cases more with
      | nil =>
        obtain rfl : c :: cs = t := same
        have stop : (if least ≤ taken.length then
            (after (c :: cs)).map fun r => (taken :: r.1, taken.length + r.2)
            else none).isSome := by
          rw [if_pos (by simpa using enough)]
          simpa using tail
        split
        · rw [Option.isSome_or, stop, Bool.or_true]
        · exact stop
      | cons d more =>
        obtain ⟨rfl, rfl⟩ := List.cons.inj same
        obtain ⟨first, later⟩ := List.forall_mem_cons.mp accepted
        rw [if_pos first, Option.isSome_or,
          (ih (taken ++ [c])).mpr ⟨more, t, rfl, by simpa using enough, later, tail⟩, Bool.true_or]

theorem matchWhole_isSome {pattern : List Item} {s : Str} :
    (matchWhole pattern s).isSome ↔ Matches pattern s := by
  induction pattern generalizing s with
  | nil => cases s <;> simp [matchWhole, Matches]
  | cons item rest ih =>
    cases item with
    | one accepts =>
      cases s with
      | nil => simp [matchWhole, Matches]
      | cons c cs =>
        rw [matchWhole]
        constructor
        · intro h
          split at h
          · rename_i accepted
            exact ⟨c, cs, rfl, accepted, ih.mp h⟩
          · cases h
        · rintro ⟨d, t, same, accepted, tail⟩
          obtain ⟨rfl, rfl⟩ := List.cons.inj same
          rw [if_pos accepted]
          exact ih.mpr tail
    | run least accepts =>
      rw [matchWhole, Option.isSome_map, matchRun_isSome]
      simp only [Option.isSome_map, ih, List.nil_append]
      rfl

/-- The length of the shortest text that a pattern can match. -/
def shortest : List Item → Nat
  | [] => 0
  | .one _ :: rest => shortest rest + 1
  | .run least _ :: rest => least + shortest rest

theorem shortest_le {pattern : List Item} {s : Str} (matched : Matches pattern s) :
    shortest pattern ≤ s.length := by
  induction pattern generalizing s with
  | nil => exact Nat.zero_le _
  | cons item rest ih =>
    cases item with
    | one accepts =>
      obtain ⟨c, t, rfl, -, tail⟩ := matched
      exact Nat.succ_le_succ (ih tail)
    | run least accepts =>
      obtain ⟨taken, t, rfl, enough, -, tail⟩ := matched
      have later := ih tail
      rw [shortest, List.length_append]
      omega

theorem matches_append {first second : List Item} {s : Str} :
    Matches (first ++ second) s ↔ ∃ a b, s = a ++ b ∧ Matches first a ∧ Matches second b := by
  induction first generalizing s with
  | nil =>
    constructor
    · intro h
      exact ⟨[], s, rfl, rfl, h⟩
    · rintro ⟨a, b, rfl, rfl, h⟩
      exact h
  | cons item first ih =>
    cases item with
    | one accepts =>
      constructor
      · rintro ⟨c, t, rfl, accepted, tail⟩
        obtain ⟨a, b, rfl, left, right⟩ := ih.mp tail
        exact ⟨c :: a, b, rfl, ⟨c, a, rfl, accepted, left⟩, right⟩
      · rintro ⟨_, b, rfl, ⟨c, a, rfl, accepted, left⟩, right⟩
        exact ⟨c, a ++ b, rfl, accepted, ih.mpr ⟨a, b, rfl, left, right⟩⟩
    | run least accepts =>
      constructor
      · rintro ⟨taken, t, rfl, enough, accepted, tail⟩
        obtain ⟨a, b, rfl, left, right⟩ := ih.mp tail
        exact ⟨taken ++ a, b, (List.append_assoc ..).symm, ⟨taken, a, rfl, enough, accepted, left⟩,
          right⟩
      · rintro ⟨_, b, rfl, ⟨taken, a, rfl, enough, accepted, left⟩, right⟩
        exact ⟨taken, a ++ b, List.append_assoc .., enough, accepted,
          ih.mpr ⟨a, b, rfl, left, right⟩⟩

theorem matches_lit {word s : Str} {pattern : List Item} :
    Matches (lit word ++ pattern) s ↔ ∃ t, s = word ++ t ∧ Matches pattern t := by
  induction word generalizing s with
  | nil => simp [lit]
  | cons c word ih =>
    constructor
    · rintro ⟨d, t, rfl, same, tail⟩
      obtain ⟨u, rfl, rest⟩ := ih.mp tail
      exact ⟨u, by simp [eq_of_beq same], rest⟩
    · rintro ⟨t, rfl, tail⟩
      exact ⟨c, word ++ t, rfl, by simp, ih.mpr ⟨t, rfl, tail⟩⟩

/-- The matcher finds a match where there is one. -/
theorem matchItems_isSome {pattern : List Item} {s : Str} :
    (matchItems pattern s).isSome ↔ Accepts pattern s := by
  induction pattern generalizing s with
  | nil => simp [matchItems, Accepts]
  | cons item rest ih =>
    cases item with
    | one accepts =>
      cases s with
      | nil => simp [matchItems, Accepts]
      | cons c cs =>
        rw [matchItems]
        constructor
        · intro h
          split at h
          · rename_i accepted
            exact ⟨c, cs, rfl, accepted, ih.mp (by simpa using h)⟩
          · cases h
        · rintro ⟨d, t, same, accepted, tail⟩
          obtain ⟨rfl, rfl⟩ := List.cons.inj same
          rw [if_pos accepted, Option.isSome_map]
          exact ih.mpr tail
    | run least accepts =>
      rw [matchItems, matchRun_isSome]
      simp only [ih, List.nil_append]
      rfl

/-- A run goes on to the last place where the rest of the pattern matches. -/
theorem matchRun_last {least : Nat} {accepts : Char → Bool}
    {after : Str → Option (List Str × Nat)} {word rest : Str} {r : List Str × Nat} (taken : Str)
    (accepted : ∀ c ∈ word, accepts c = true) (enough : least ≤ (taken ++ word).length)
    (here : after rest = some r)
    (last : ∀ more t, rest = more ++ t → more ≠ [] → after t = none) :
    matchRun least accepts after taken (word ++ rest) =
      some ((taken ++ word) :: r.1, (taken ++ word).length + r.2) := by
  induction word generalizing taken with
  | nil =>
    rw [List.append_nil] at enough ⊢
    cases rest with
    | nil => simp [matchRun, enough, here]
    | cons c cs =>
      have longer : matchRun least accepts after (taken ++ [c]) cs = none := by
        refine Option.not_isSome_iff_eq_none.mp fun found => ?_
        obtain ⟨more, t, rfl, -, -, tail⟩ := (matchRun_isSome _ _).mp found
        rw [last (c :: more) t rfl (List.cons_ne_nil _ _)] at tail
        cases tail
      rw [List.nil_append, matchRun, longer]
      simp [enough, here]
  | cons c word ih =>
    obtain ⟨first, later⟩ := List.forall_mem_cons.mp accepted
    have step := ih (taken ++ [c]) later (by simpa using enough)
    rw [List.cons_append, matchRun, if_pos first, step]
    simp

/-- The pattern has this many blanks, and nothing else in it accepts one. -/
inductive Blanks : List Item → Nat → Prop where
  | nil : Blanks [] 0
  | blank {accepts : Char → Bool} {pattern : List Item} {n : Nat}
      (space : ∀ c, accepts c = true → isSpace c = true) (tail : Blanks pattern n) :
      Blanks (.one accepts :: pattern) (n + 1)
  | one {accepts : Char → Bool} {pattern : List Item} {n : Nat}
      (dark : ∀ c, accepts c = true → isSpace c = false) (tail : Blanks pattern n) :
      Blanks (.one accepts :: pattern) n
  | run {least : Nat} {accepts : Char → Bool} {pattern : List Item} {n : Nat}
      (dark : ∀ c, accepts c = true → isSpace c = false) (tail : Blanks pattern n) :
      Blanks (.run least accepts :: pattern) n

theorem Blanks.lit {pattern : List Item} {n : Nat} (tail : Blanks pattern n) (word : Str) :
    Blanks (lit word ++ pattern) (n + word.countP isSpace) := by
  induction word with
  | nil => exact tail
  | cons c word ih =>
    cases space : isSpace c with
    | true =>
      rw [List.countP_cons_of_pos space]
      exact .blank (fun d same => by rw [eq_of_beq same, space]) ih
    | false =>
      rw [List.countP_cons_of_neg (by simp [space])]
      exact .one (fun d same => by rw [eq_of_beq same, space]) ih

theorem countP_isSpace_eq_zero {s : Str} (dark : ∀ c ∈ s, isSpace c = false) :
    s.countP isSpace = 0 :=
  List.countP_eq_zero.mpr fun c mem => by simp [dark c mem]

theorem Blanks.count {pattern : List Item} {n : Nat} (blanks : Blanks pattern n) {s : Str}
    (matched : Matches pattern s) : s.countP isSpace = n := by
  induction blanks generalizing s with
  | nil =>
    obtain rfl : s = [] := matched
    rfl
  | blank space tail ih =>
    obtain ⟨c, t, rfl, accepted, matched⟩ := matched
    rw [List.countP_cons_of_pos (space c accepted), ih matched]
  | one dark tail ih =>
    obtain ⟨c, t, rfl, accepted, matched⟩ := matched
    rw [List.countP_cons_of_neg (by simp [dark c accepted]), ih matched]
  | run dark tail ih =>
    obtain ⟨taken, t, rfl, -, accepted, matched⟩ := matched
    rw [List.countP_append, countP_isSpace_eq_zero fun c mem => dark c (accepted c mem),
      ih matched, Nat.zero_add]

/-- A text with another number of blanks is not matched. -/
theorem matchWhole_blanks {pattern : List Item} {n : Nat} (blanks : Blanks pattern n) {s : Str}
    (other : s.countP isSpace ≠ n) : matchWhole pattern s = none := by
  rw [← Option.not_isSome_iff_eq_none, matchWhole_isSome]
  exact fun matched => other (blanks.count matched)

/-- `std::smatch`: where the match stands and what its groups captured. -/
structure Match where
  position : Nat
  length : Nat
  captures : List Str
  deriving DecidableEq, Repr

/-- `std::regex_search`. -/
def search (pattern : List Item) : Str → Option Match
  | [] => (matchItems pattern []).map fun r => ⟨0, r.2, r.1⟩
  | c :: cs =>
    match matchItems pattern (c :: cs) with
    | some r => some ⟨0, r.2, r.1⟩
    | none => (search pattern cs).map fun m => { m with position := m.position + 1 }

/-- The text read by a pattern in front of what follows it. A run ends where the
class ends, so that backtracking is never needed. -/
inductive Reads : List Item → Str → List Str → Str → Prop where
  | nil (rest : Str) : Reads [] [] [] rest
  | one {accepts : Char → Bool} {pattern : List Item} {c : Char} {word rest : Str}
      {captures : List Str} (accepted : accepts c = true)
      (tail : Reads pattern word captures rest) :
      Reads (.one accepts :: pattern) (c :: word) captures rest
  | run {least : Nat} {accepts : Char → Bool} {pattern : List Item} {taken word rest : Str}
      {captures : List Str} (accepted : ∀ c ∈ taken, accepts c = true)
      (enough : least ≤ taken.length)
      (ends : ∀ c, (word ++ rest).head? = some c → accepts c = false)
      (tail : Reads pattern word captures rest) :
      Reads (.run least accepts :: pattern) (taken ++ word) (taken :: captures) rest

theorem Reads.lit {pattern : List Item} {word rest : Str} {captures : List Str}
    (literal : Str) (tail : Reads pattern word captures rest) :
    Reads (lit literal ++ pattern) (literal ++ word) captures rest := by
  induction literal with
  | nil => exact tail
  | cons c literal ih => exact .one (by simp) ih

theorem matchRun_exact {least : Nat} {accepts : Char → Bool}
    {after : Str → Option (List Str × Nat)} {word rest : Str} {r : List Str × Nat}
    (taken : Str) (accepted : ∀ c ∈ word, accepts c = true)
    (enough : least ≤ (taken ++ word).length)
    (ends : ∀ c, rest.head? = some c → accepts c = false)
    (tail : after rest = some r) :
    matchRun least accepts after taken (word ++ rest) =
      some ((taken ++ word) :: r.1, (taken ++ word).length + r.2) := by
  induction word generalizing taken with
  | nil =>
    rw [List.append_nil] at enough ⊢
    cases rest with
    | nil => simp [matchRun, enough, tail]
    | cons c cs => simp [matchRun, enough, tail, ends c rfl]
  | cons c word ih =>
    have hc := accepted c List.mem_cons_self
    have hw := fun d hd => accepted d (List.mem_cons_of_mem c hd)
    have step := ih (taken ++ [c]) hw (by simpa using enough)
    rw [List.cons_append, matchRun, if_pos hc, step]
    simp

/-- A text that reads along the pattern is matched, with these captures. -/
theorem matchItems_of_reads {pattern : List Item} {word rest : Str} {captures : List Str}
    (reads : Reads pattern word captures rest) :
    matchItems pattern (word ++ rest) = some (captures, word.length) := by
  induction reads with
  | nil rest => rfl
  | one accepted _ ih =>
    rw [List.cons_append, matchItems, if_pos accepted, ih]
    rfl
  | run accepted enough ends _ ih =>
    rw [List.append_assoc, matchItems,
      matchRun_exact [] accepted (by simpa using enough) ends ih]
    simp

theorem matchWhole_of_reads {pattern : List Item} {word rest : Str} {captures : List Str}
    (reads : Reads pattern word captures rest) (last : rest = []) :
    matchWhole pattern word = some captures := by
  induction reads with
  | nil rest => rfl
  | one accepted _ ih => rw [matchWhole, if_pos accepted, ih last]
  | run accepted enough ends _ ih =>
    subst last
    rw [matchWhole, matchRun_exact [] accepted (by simpa using enough) (by simpa using ends)
      (by rw [ih rfl]; rfl)]
    rfl

/-- A text that begins otherwise is not matched. -/
theorem matchWhole_other {word other s : Str} {pattern : List Item} {c d : Char}
    (first : word.head? = some c) (second : other.head? = some d) (ne : d ≠ c) :
    matchWhole (Pattern.lit word ++ pattern) (other ++ s) = none := by
  obtain ⟨word, rfl⟩ := List.head?_eq_some_iff.mp first
  obtain ⟨other, rfl⟩ := List.head?_eq_some_iff.mp second
  have refused : ¬ (d == c) = true := by simpa using ne
  exact if_neg refused

theorem captured_search {pattern : List Item} {s : Str} {m : Match}
    (h : search pattern s = some m) : Captured pattern m.captures := by
  induction s generalizing m with
  | nil =>
    obtain ⟨r, hr, rfl⟩ := Option.map_eq_some_iff.mp h
    exact captured_matchItems hr
  | cons c cs ih =>
    rw [search] at h
    split at h
    · rename_i r hr
      cases h
      exact captured_matchItems hr
    · obtain ⟨q, hq, rfl⟩ := Option.map_eq_some_iff.mp h
      exact ih (m := q) hq

/-- A match anywhere in the text is found. -/
theorem search_isSome {pattern : List Item} {s : Str} : (search pattern s).isSome ↔
    ∃ front rest, s = front ++ rest ∧ (matchItems pattern rest).isSome := by
  induction s with
  | nil =>
    rw [search, Option.isSome_map]
    constructor
    · intro found
      exact ⟨[], [], rfl, found⟩
    · rintro ⟨front, rest, same, found⟩
      obtain ⟨rfl, rfl⟩ := List.append_eq_nil_iff.mp same.symm
      exact found
  | cons c cs ih =>
    cases here : matchItems pattern (c :: cs) with
    | some r =>
      simp only [search, here, Option.isSome_some, true_iff]
      exact ⟨[], c :: cs, rfl, by rw [here]; rfl⟩
    | none =>
      simp only [search, here, Option.isSome_map, ih]
      constructor
      · rintro ⟨front, rest, rfl, found⟩
        exact ⟨c :: front, rest, rfl, found⟩
      · rintro ⟨front, rest, same, found⟩
        cases front with
        | nil =>
          obtain rfl : c :: cs = rest := same
          rw [here] at found
          cases found
        | cons d front =>
          obtain ⟨rfl, rfl⟩ := List.cons.inj same
          exact ⟨front, rest, rfl, found⟩

theorem search_of_matchItems {pattern : List Item} {s : Str} {captures : List Str} {n : Nat}
    (found : matchItems pattern s = some (captures, n)) :
    search pattern s = some ⟨0, n, captures⟩ := by
  cases s with
  | nil => simp [search, found]
  | cons c cs => simp only [search, found]

theorem search_of_reads {pattern : List Item} {word rest : Str} {captures : List Str}
    (reads : Reads pattern word captures rest) :
    search pattern (word ++ rest) = some ⟨0, word.length, captures⟩ :=
  search_of_matchItems (matchItems_of_reads reads)

theorem search_cons_of_none {pattern : List Item} {c : Char} {cs : Str}
    (missed : matchItems pattern (c :: cs) = none) :
    search pattern (c :: cs) =
      (search pattern cs).map fun m => { m with position := m.position + 1 } := by
  simp only [search, missed]

/-- No match begins inside text that lacks the first character of the pattern. -/
theorem search_skip {pattern : List Item} {c : Char} {pre s : Str} (absent : c ∉ pre) :
    search (.one (· == c) :: pattern) (pre ++ s) =
      (search (.one (· == c) :: pattern) s).map
        fun m => { m with position := m.position + pre.length } := by
  induction pre with
  | nil => simp
  | cons d pre ih =>
    obtain ⟨hd, hpre⟩ := not_or.mp (List.mem_cons.not.mp absent)
    have missed : matchItems (.one (· == c) :: pattern) (d :: (pre ++ s)) = none := by
      rw [matchItems, if_neg]
      simpa using Ne.symm hd
    rw [List.cons_append, search_cons_of_none missed, ih hpre, Option.map_map]
    rfl

/-- `std::string::substr`, `none` where it throws. -/
def substr (s : Str) (pos count : Nat) : Option Str :=
  if pos ≤ s.length then some ((s.drop pos).take count) else none

theorem substr_append (a b : Str) {count : Nat} (enough : b.length ≤ count) :
    substr (a ++ b) a.length count = some b := by
  rw [substr, if_pos (by simp), List.drop_left, List.take_of_length_le enough]

end Pattern
