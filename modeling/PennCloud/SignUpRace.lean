import PennCloud.CompareAndSwap
import PennCloud.LiveNode
import PennCloud.Accounts

/-!
# Sign-ups that race

Clients of several front ends sign up under one name, sign in and change the password, in any
order and between other commands and checkpoints. The password is a cell that is compared and
swapped.
-/

namespace SignUpRace

open Text KvInterface KvCache KvStore Runs ChunkFormat NodeDisk StoreView Acknowledgement LiveNode
  CacheSteps CompareAndSwap
open Accounts (kPwd)
open ChunkOverlay (UserName)

/-- The conditional write of the pair that a command is. -/
def attempt (usr key : Str) (e : Event) : Option (Str × Str) :=
  if e.2.com = .cput ∧ e.2.user = usr ∧ e.2.key = key then some (e.2.value1, e.2.value2) else none

def attempts (usr key : Str) (events : List Event) : List (Str × Str) :=
  events.filterMap (attempt usr key)

/-- The conditional writes of the pair that end with FINISHED, in a run. -/
def acknowledged (usr key : Str) : Node → List Event → List (Str × Str)
  | _, [] => []
  | n, e :: events =>
    let later := ((turn n e).map fun m => acknowledged usr key m events).getD []
    match attempt usr key e with
    | some a => if outcome n e = some .finished then a :: later else later
    | none => later

/-- Nothing but conditional writes changes the pair. -/
def Swapped (usr key : Str) (e : Event) : Prop :=
  e.2.user = usr → e.2.key = key → e.2.com ≠ .puts ∧ e.2.com ≠ .dele

section Run
variable {n m t : Node} {S : Folders} {usr key : Str} {e : Event} {events : List Event}

/-- A conditional write ends with FINISHED where it expects the value that is there. -/
theorem outcome_attempt (live : Live n S) (name : UserName usr) {a : Str × Str}
    (tries : attempt usr key e = some a) :
    outcome n e = some (if cur n usr key = a.1 then .finished else .valueError) := by
  rw [attempt] at tries
  obtain ⟨⟨com, rfl, rfl⟩, same⟩ := Option.ite_none_right_eq_some.mp tries
  obtain rfl := (Option.some.inj same).symm
  have counted := quiet_counted live
  obtain ⟨S', live'⟩ := counted.live
  obtain ⟨m, ran, -⟩ := cput_outcome live' com name e.1 ⟨.finished, [], []⟩
  rw [outcome, ran, counted.values name]
  rfl

/-- The value of the pair after a command is that of the attempt, if it is one. -/
theorem cur_turn (live : Live n S) (name : UserName usr) (plain : Plain e.2)
    (swapped : Swapped usr key e) (turned : turn n e = some m) :
    cur m usr key = ((attempt usr key e).map (swap (cur n usr key))).getD (cur n usr key) := by
  rw [turn_effect live plain turned name, effectOn, attempt]
  by_cases pair : e.2.user = usr ∧ e.2.key = key
  · obtain ⟨puts, dele⟩ := swapped pair.1 pair.2
    rw [if_pos pair]
    split
    · rename_i com
      exact absurd com puts
    · rename_i com
      rw [if_pos (And.intro com pair)]
      rfl
    · rename_i com
      exact absurd com dele
    · rename_i cput _
      rw [if_neg fun no => cput no.1]
      rfl
  · rw [if_neg pair, if_neg fun no => pair no.2]
    rfl

/-- The writes that are acknowledged are those that a cell accepts, and the cell ends as the pair
does. -/
theorem acknowledged_eq (live : Live n S) (name : UserName usr) (plain : ∀ e ∈ events, Plain e.2)
    (swapped : ∀ e ∈ events, Swapped usr key e) (ran : run turn n events = some t) :
    acknowledged usr key n events = accepted (cur n usr key) (attempts usr key events) ∧
      cur t usr key = (attempts usr key events).foldl swap (cur n usr key) := by
  induction events generalizing n S with
  | nil =>
    cases ran
    exact ⟨rfl, rfl⟩
  | cons e events ih =>
    obtain ⟨m, turned, later⟩ := run_cons_eq_some.mp ran
    obtain ⟨plain₀, plains⟩ := List.forall_mem_cons.mp plain
    obtain ⟨swapped₀, swaps⟩ := List.forall_mem_cons.mp swapped
    obtain ⟨S', -, live', -⟩ := turn_live live plain₀ turned
    obtain ⟨rest, last⟩ := ih live' plains swaps later
    have value := cur_turn live name plain₀ swapped₀ turned
    rw [acknowledged, turned, last]
    simp only [Option.map_some, Option.getD_some, rest, attempts]
    cases tries : attempt usr key e with
    | none =>
      rw [tries] at value
      rw [List.filterMap_cons_none tries, value]
      exact ⟨rfl, rfl⟩
    | some a =>
      rw [tries, Option.map_some, Option.getD_some] at value
      rw [List.filterMap_cons_some tries, accepted, List.foldl_cons, value,
        outcome_attempt live name tries, swap]
      by_cases expected : cur n usr key = a.1
      · simp only [if_pos expected, if_true]
        exact ⟨trivial, trivial⟩
      · simp only [if_neg expected, reduceCtorEq, Option.some.injEq, if_false]
        exact ⟨trivial, trivial⟩

end Run

/-- Where nobody chooses the empty password, the changes of the password that are acknowledged form
a chain, and of all sign-ups under a free name the first one is acknowledged and no other. -/
theorem first_sign_up_wins {n t : Node} {S : Folders} {usr : Str} {events : List Event}
    (live : Live n S) (name : UserName usr) (plain : ∀ e ∈ events, Plain e.2)
    (swapped : ∀ e ∈ events, Swapped usr kPwd e)
    (chosen : ∀ a ∈ attempts usr kPwd events, a.2 ≠ []) (ran : run turn n events = some t) :
    Chain (cur n usr kPwd) (acknowledged usr kPwd n events) (cur t usr kPwd) ∧
      claims [] (acknowledged usr kPwd n events) =
        if cur n usr kPwd = [] then (claims [] (attempts usr kPwd events)).take 1 else [] := by
  obtain ⟨same, last⟩ := acknowledged_eq live name plain swapped ran
  rw [same, last]
  refine ⟨chain_accepted _ _, ?_⟩
  split
  · rename_i free
    rw [free]
    exact claims_free chosen
  · rename_i taken
    exact claims_taken taken chosen

/-- A sign-up of bob, as a command. -/
def joins (pwd : Str) : Event := (surroundings, conditionalWrite bob kPwd [] pwd)

/-- The first of two sign-ups of bob is acknowledged. -/
theorem two_sign_ups : ∃ t, run turn servingNode [joins "one".toList, joins "two".toList] =
    some t ∧ claims [] (acknowledged bob kPwd servingNode
      [joins "one".toList, joins "two".toList]) = [([], "one".toList)] := by
  obtain ⟨S, live⟩ := live_started started_servingNode
  have ends : (run turn servingNode [joins "one".toList, joins "two".toList]).isSome := by
    decide +kernel
  obtain ⟨t, ran⟩ := Option.isSome_iff_exists.mp ends
  have each : ∀ e ∈ [joins "one".toList, joins "two".toList], ∃ pwd, e = joins pwd := by
    intro e mem
    simp only [List.mem_cons, List.not_mem_nil, or_false] at mem
    rcases mem with rfl | rfl
    · exact ⟨_, rfl⟩
    · exact ⟨_, rfl⟩
  have plain : ∀ e ∈ [joins "one".toList, joins "two".toList], Plain e.2 := by
    intro e mem
    obtain ⟨pwd, rfl⟩ := each e mem
    exact ⟨userName_bob, (by decide : OneLine kPwd)⟩
  have swapped : ∀ e ∈ [joins "one".toList, joins "two".toList], Swapped bob kPwd e := by
    intro e mem
    obtain ⟨pwd, rfl⟩ := each e mem
    exact fun _ _ => ⟨nofun, nofun⟩
  have won := (first_sign_up_wins live userName_bob plain swapped (by decide) ran).2
  rw [if_pos (cur_servingNode kPwd)] at won
  exact ⟨t, ran, won⟩

end SignUpRace
