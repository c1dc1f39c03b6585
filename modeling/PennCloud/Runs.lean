import Mathlib.Logic.Basic

/-!
# Runs of a step function

A step function takes a state and an event to the next state, or to nothing
where the event cannot happen. Invariants are proved for one step and hold
along a run; a condition on the steps of a run is asked of the state before
each of them.
-/

namespace Runs

universe u v
variable {State : Type u} {Event : Type v} (step : State → Event → Option State)

def run (s : State) : List Event → Option State
  | [] => some s
  | e :: es => (step s e).bind fun t => run t es

/-- Each event of the run meets the condition in the state it finds. -/
def Along (condition : State → Event → Prop) (s : State) : List Event → Prop
  | [] => True
  | e :: es => condition s e ∧ ∀ t, step s e = some t → Along condition t es

instance decidableAlong {condition : State → Event → Prop}
    [∀ s e, Decidable (condition s e)] (s : State) : (es : List Event) →
      Decidable (Along step condition s es)
  | [] => isTrue trivial
  | e :: es =>
    have : Decidable (∀ t, step s e = some t → Along step condition t es) :=
      match step s e with
      | none => isTrue fun _ ht => nomatch ht
      | some t => match decidableAlong t es with
        | isTrue along => isTrue fun _ ht => Option.some.inj ht ▸ along
        | isFalse no => isFalse fun along => no (along t rfl)
    inferInstanceAs (Decidable (condition s e ∧ ∀ t, step s e = some t →
      Along step condition t es))

variable {step}

@[simp] theorem run_nil (s : State) : run step s [] = some s := rfl

theorem run_cons_eq_some {s t : State} {e : Event} {es : List Event} :
    run step s (e :: es) = some t ↔ ∃ r, step s e = some r ∧ run step r es = some t :=
  Option.bind_eq_some_iff

theorem run_append (s : State) (a b : List Event) :
    run step s (a ++ b) = (run step s a).bind fun t => run step t b := by
  induction a generalizing s with
  | nil => rfl
  | cons e es ih =>
    rw [List.cons_append, run, run]
    cases step s e with
    | none => rfl
    | some t => exact ih t

theorem along_cons {condition : State → Event → Prop} {s r : State} {e : Event}
    {es : List Event} (h : step s e = some r) :
    Along step condition s (e :: es) ↔ condition s e ∧ Along step condition r es := by
  refine and_congr_right fun _ => ⟨fun later => later r h, fun later t ht => ?_⟩
  cases h.symm.trans ht
  exact later

theorem along_mono {first second : State → Event → Prop}
    (weaker : ∀ s e, first s e → second s e) {s : State} {es : List Event}
    (h : Along step first s es) : Along step second s es := by
  induction es generalizing s with
  | nil => trivial
  | cons e es ih => exact ⟨weaker s e h.1, fun t ht => ih (h.2 t ht)⟩

theorem along_congr {first second : State → Event → Prop}
    (same : ∀ s e, first s e ↔ second s e) {s : State} {es : List Event} :
    Along step first s es ↔ Along step second s es :=
  ⟨along_mono fun s e => (same s e).mp, along_mono fun s e => (same s e).mpr⟩

/-- Two conditions that agree under an invariant, which one of them preserves. -/
theorem along_congr_of_invariant {first second : State → Event → Prop} {P : State → Prop}
    (same : ∀ s e, P s → (first s e ↔ second s e))
    (preserved : ∀ s e t, P s → second s e → step s e = some t → P t)
    {s : State} {es : List Event} (start : P s) :
    Along step first s es ↔ Along step second s es := by
  induction es generalizing s with
  | nil => exact Iff.rfl
  | cons e es ih =>
    constructor
    · rintro ⟨now, later⟩
      have now' := (same s e start).mp now
      exact ⟨now', fun t ht => (ih (preserved s e t start now' ht)).mp (later t ht)⟩
    · rintro ⟨now, later⟩
      exact ⟨(same s e start).mpr now,
        fun t ht => (ih (preserved s e t start now ht)).mpr (later t ht)⟩

/-- The condition holds at the event after a run. -/
theorem along_after {condition : State → Event → Prop} {s t : State} {es : List Event}
    {e : Event} (along : Along step condition s (es ++ [e])) (h : run step s es = some t) :
    condition t e := by
  induction es generalizing s with
  | nil => cases h; exact along.1
  | cons d es ih =>
    obtain ⟨r, hr, hrt⟩ := run_cons_eq_some.mp h
    exact ih (along.2 r hr) hrt

/-- What each step preserves where the condition holds, the run preserves. -/
theorem run_invariant_along {condition : State → Event → Prop} {P : State → Prop}
    (preserved : ∀ s e t, P s → condition s e → step s e = some t → P t)
    {s t : State} {es : List Event} (start : P s) (along : Along step condition s es)
    (h : run step s es = some t) : P t := by
  induction es generalizing s with
  | nil => cases h; exact start
  | cons e es ih =>
    obtain ⟨r, hr, hrt⟩ := run_cons_eq_some.mp h
    exact ih (preserved s e r start along.1 hr) (along.2 r hr) hrt

theorem run_invariant {P : State → Prop}
    (preserved : ∀ s e t, P s → step s e = some t → P t)
    {s t : State} {es : List Event} (start : P s) (h : run step s es = some t) : P t := by
  induction es generalizing s with
  | nil => cases h; exact start
  | cons e es ih =>
    obtain ⟨r, hr, hrt⟩ := run_cons_eq_some.mp h
    exact ih (preserved s e r start hr) hrt

end Runs
