import Mathlib.Logic.Basic

/-!
# Succession to an office

One office for each group of members. Its head is chosen elsewhere; the head is
sent an offer, and a member that is no longer the head is sent a dismissal. Both
are numbered as they are sent, and may be on their way for any time. No two
members of a group hold the office where an offer waits for the dismissals of
the others that were sent with it or before it.
-/

namespace Succession

universe u
variable {X : Type u}

/-- The number of the next choice, the heads, what is on its way to whom, and who holds the
office since which offer. -/
structure Office (X : Type u) where
  now : Nat
  head : X → Prop
  offer : X → Nat → Prop
  dismissal : X → Nat → Prop
  holds : X → Nat → Prop

/-- An offer that was sent, accepted or not. -/
def Office.Claim (o : Office X) (x : X) (t : Nat) : Prop := o.offer x t ∨ o.holds x t

/-- Claims come from the past, and end with a dismissal that is on its way: before the claims of
the next head, and after those of a rival that holds the office. -/
structure Lawful (rival : X → X → Prop) (o : Office X) : Prop where
  past : ∀ x t, o.Claim x t → t < o.now
  sent : ∀ x v, o.dismissal x v → v < o.now
  ended : ∀ x t, o.Claim x t → o.head x ∨ ∃ v, t < v ∧ o.dismissal x v
  succeeded : ∀ x y t u, rival x y → o.Claim x t → o.Claim y u → t ≤ u →
    ∃ v, t < v ∧ v ≤ u ∧ o.dismissal x v
  entered : ∀ x y t v, rival x y → o.holds x t → o.dismissal y v → t < v

/-- A choice is made: heads change, and offers and dismissals are sent under its number. -/
structure Chosen (rival : X → X → Prop) (o o' : Office X) : Prop where
  next : o'.now = o.now + 1
  holds : ∀ x t, o'.holds x t → o.holds x t
  offer : ∀ x t, o'.offer x t → o.offer x t ∨ t = o.now ∧ o'.head x
  dismissal : ∀ x v, o'.dismissal x v → o.dismissal x v ∨ v = o.now
  kept : ∀ x v, o.dismissal x v → o'.dismissal x v
  left : ∀ x t, o'.Claim x t → o.head x → o'.head x ∨ o'.dismissal x o.now
  unique : ∀ x y, rival x y → o'.head x → ¬ o'.head y

/-- Something on its way arrives or is lost, or a member is gone. A dismissal is gone only with
the claims before it, and a member that takes the office has no dismissals of rivals to wait
for. -/
structure Arrived (rival : X → X → Prop) (o o' : Office X) : Prop where
  now : o'.now = o.now
  head : ∀ x, o.head x → o'.head x
  claim : ∀ x t, o'.Claim x t → o.Claim x t
  dismissal : ∀ x v, o'.dismissal x v → o.dismissal x v
  kept : ∀ x t v, o'.Claim x t → t < v → o.dismissal x v → o'.dismissal x v
  taken : ∀ x y t v, rival x y → o'.holds x t → ¬ o.holds x t → o.dismissal y v → t < v

variable {rival : X → X → Prop} {o o' : Office X}

theorem lawful_chosen (lawful : Lawful rival o) (chosen : Chosen rival o o') :
    Lawful rival o' := by
  have old : ∀ x t, o'.Claim x t → o.Claim x t ∨ t = o.now ∧ o'.head x := by
    rintro x t (offered | held)
    · exact (chosen.offer x t offered).imp .inl id
    · exact .inl (.inr (chosen.holds x t held))
  have ended : ∀ x t, o'.Claim x t → o'.head x ∨ ∃ v, t < v ∧ o'.dismissal x v := by
    intro x t claim
    rcases old x t claim with before | ⟨-, head⟩
    · rcases lawful.ended x t before with head | ⟨v, later, dismissed⟩
      · rcases chosen.left x t claim head with stays | dismissed
        · exact .inl stays
        · exact .inr ⟨o.now, lawful.past x t before, dismissed⟩
      · exact .inr ⟨v, later, chosen.kept x v dismissed⟩
    · exact .inl head
  refine ⟨fun x t claim => ?_, fun x v dismissed => ?_, ended, fun x y t u rivals first second le => ?_,
    fun x y t v rivals held dismissed => ?_⟩
  · rw [chosen.next]
    rcases old x t claim with before | ⟨rfl, -⟩
    · exact Nat.lt_succ_of_lt (lawful.past x t before)
    · exact Nat.lt_succ_self _
  · rw [chosen.next]
    rcases chosen.dismissal x v dismissed with before | rfl
    · exact Nat.lt_succ_of_lt (lawful.sent x v before)
    · exact Nat.lt_succ_self _
  · rcases old y u second with beforeY | ⟨rfl, headY⟩
    · have past := lawful.past y u beforeY
      rcases old x t first with beforeX | ⟨rfl, -⟩
      · obtain ⟨v, later, earlier, dismissed⟩ := lawful.succeeded x y t u rivals beforeX beforeY le
        exact ⟨v, later, earlier, chosen.kept x v dismissed⟩
      · omega
    · -- The new head claims: the claims of the others have ended.
      rcases ended x t first with headX | ⟨v, later, dismissed⟩
      · exact absurd headY (chosen.unique x y rivals headX)
      · refine ⟨v, later, ?_, dismissed⟩
        rcases chosen.dismissal x v dismissed with before | rfl
        · exact Nat.le_of_lt (lawful.sent x v before)
        · exact Nat.le_refl _
  · have before := chosen.holds x t held
    rcases chosen.dismissal y v dismissed with old | rfl
    · exact lawful.entered x y t v rivals before old
    · exact lawful.past x t (.inr before)

theorem lawful_arrived (lawful : Lawful rival o) (arrived : Arrived rival o o') :
    Lawful rival o' := by
  refine ⟨fun x t claim => ?_, fun x v dismissed => ?_, fun x t claim => ?_,
    fun x y t u rivals first second le => ?_, fun x y t v rivals held dismissed => ?_⟩
  · rw [arrived.now]
    exact lawful.past x t (arrived.claim x t claim)
  · rw [arrived.now]
    exact lawful.sent x v (arrived.dismissal x v dismissed)
  · rcases lawful.ended x t (arrived.claim x t claim) with head | ⟨v, later, dismissed⟩
    · exact .inl (arrived.head x head)
    · exact .inr ⟨v, later, arrived.kept x t v claim later dismissed⟩
  · obtain ⟨v, later, earlier, dismissed⟩ := lawful.succeeded x y t u rivals
      (arrived.claim x t first) (arrived.claim y u second) le
    exact ⟨v, later, earlier, arrived.kept x t v first later dismissed⟩
  · have old := arrived.dismissal y v dismissed
    by_cases before : o.holds x t
    · exact lawful.entered x y t v rivals before old
    · exact arrived.taken x y t v rivals held before old

/-- Two rivals do not hold the office at once. -/
theorem Lawful.one_holder (lawful : Lawful rival o) (symm : ∀ x y, rival x y → rival y x)
    {x y : X} {t u : Nat} (rivals : rival x y) (first : o.holds x t) : ¬ o.holds y u := by
  intro second
  rcases Nat.le_total t u with le | le
  · obtain ⟨v, -, earlier, dismissed⟩ :=
      lawful.succeeded x y t u rivals (.inr first) (.inr second) le
    have entered := lawful.entered y x u v (symm x y rivals) second dismissed
    omega
  · obtain ⟨v, -, earlier, dismissed⟩ :=
      lawful.succeeded y x u t (symm x y rivals) (.inr second) (.inr first) le
    have entered := lawful.entered x y t v rivals first dismissed
    omega

end Succession
