import Mathlib.Logic.Basic

/-!
# Programs that ask questions

A dialogue is a program that asks questions and goes on with the answers. It
ends with a result, or is stuck. It can be run on a list of answers, which it
has to use up, and the questions it asked are its transcript.
-/

universe u v w x

inductive Dialogue (Query : Type u) (Answer : Type v) (Result : Type w) where
  | done (result : Result)
  | stuck
  | ask (query : Query) (next : Answer → Dialogue Query Answer Result)

namespace Dialogue

variable {Query : Type u} {Answer : Type v} {Result : Type w} {Other : Type x}

def bind : Dialogue Query Answer Result → (Result → Dialogue Query Answer Other) →
    Dialogue Query Answer Other
  | .done result, f => f result
  | .stuck, _ => .stuck
  | .ask query next, f => .ask query fun answer => (next answer).bind f

/-- A computation that asks nothing. -/
def ofOption : Option Result → Dialogue Query Answer Result
  | some result => .done result
  | none => .stuck

/-- A single question. -/
def question (query : Query) : Dialogue Query Answer Answer := .ask query .done

theorem bind_assoc {Last : Type*} (p : Dialogue Query Answer Result)
    (f : Result → Dialogue Query Answer Other) (g : Other → Dialogue Query Answer Last) :
    (p.bind f).bind g = p.bind fun result => (f result).bind g := by
  induction p with
  | done result => rfl
  | stuck => rfl
  | ask query next ih => exact congrArg (ask query) (funext ih)

/-- The result on a list of answers and the transcript, where all answers are used up. -/
def converse : Dialogue Query Answer Result → List Answer →
    Option (Result × List (Query × Answer))
  | .done result, [] => some (result, [])
  | .done _, _ :: _ => none
  | .stuck, _ => none
  | .ask _ _, [] => none
  | .ask query next, answer :: answers =>
    ((next answer).converse answers).map fun r => (r.1, (query, answer) :: r.2)

/-- The dialogue has the transcript and ends with the result. -/
inductive Conversation : Dialogue Query Answer Result → List (Query × Answer) → Result → Prop where
  | done (result : Result) : Conversation (.done result) [] result
  | ask {query : Query} {next : Answer → Dialogue Query Answer Result} {answer : Answer}
      {transcript : List (Query × Answer)} {result : Result}
      (rest : Conversation (next answer) transcript result) :
      Conversation (.ask query next) ((query, answer) :: transcript) result

theorem conversation_of_converse {p : Dialogue Query Answer Result} {answers : List Answer}
    {result : Result} {transcript : List (Query × Answer)}
    (h : p.converse answers = some (result, transcript)) :
    Conversation p transcript result ∧ transcript.map Prod.snd = answers := by
  induction p generalizing answers transcript with
  | done result' =>
    cases answers with
    | nil =>
      cases h
      exact ⟨.done result, rfl⟩
    | cons answer answers => cases h
  | stuck => cases h
  | ask query next ih =>
    cases answers with
    | nil => cases h
    | cons answer answers =>
      obtain ⟨⟨result', rest⟩, later, same⟩ := Option.map_eq_some_iff.mp h
      cases same
      obtain ⟨tail, used⟩ := ih answer later
      exact ⟨.ask tail, congrArg (answer :: ·) used⟩

theorem conversation_done {a b : Result} {transcript : List (Query × Answer)} :
    Conversation (.done a) transcript b ↔ transcript = [] ∧ b = a := by
  constructor
  · rintro ⟨⟩
    exact ⟨rfl, rfl⟩
  · rintro ⟨rfl, rfl⟩
    exact .done b

theorem not_conversation_stuck {transcript : List (Query × Answer)} {result : Result} :
    ¬ Conversation (.stuck : Dialogue Query Answer Result) transcript result := nofun

theorem conversation_ask {query : Query} {next : Answer → Dialogue Query Answer Result}
    {transcript : List (Query × Answer)} {result : Result} :
    Conversation (.ask query next) transcript result ↔ ∃ answer rest,
      transcript = (query, answer) :: rest ∧ Conversation (next answer) rest result := by
  constructor
  · rintro ⟨⟩
    exact ⟨_, _, rfl, by assumption⟩
  · rintro ⟨answer, rest, rfl, h⟩
    exact .ask h

theorem conversation_bind {p : Dialogue Query Answer Result}
    {f : Result → Dialogue Query Answer Other} {transcript : List (Query × Answer)}
    {result : Other} :
    Conversation (p.bind f) transcript result ↔ ∃ first second middle,
      transcript = first ++ second ∧ Conversation p first middle ∧
        Conversation (f middle) second result := by
  induction p generalizing transcript with
  | done a =>
    constructor
    · exact fun h => ⟨[], transcript, a, rfl, .done a, h⟩
    · rintro ⟨first, second, middle, rfl, ⟨⟩, h⟩
      exact h
  | stuck =>
    constructor
    · rintro ⟨⟩
    · rintro ⟨first, second, middle, rfl, ⟨⟩, h⟩
  | ask query next ih =>
    rw [bind, conversation_ask]
    constructor
    · rintro ⟨answer, rest, rfl, h⟩
      obtain ⟨first, second, middle, rfl, hp, hf⟩ := (ih answer).mp h
      exact ⟨(query, answer) :: first, second, middle, rfl, .ask hp, hf⟩
    · rintro ⟨first, second, middle, rfl, hp, hf⟩
      obtain ⟨answer, rest, rfl, hrest⟩ := conversation_ask.mp hp
      exact ⟨answer, rest ++ second, rfl, (ih answer).mpr ⟨rest, second, middle, rfl, hrest, hf⟩⟩

theorem conversation_ofOption {a : Option Result} {transcript : List (Query × Answer)}
    {result : Result} :
    Conversation (ofOption a : Dialogue Query Answer Result) transcript result ↔
      transcript = [] ∧ a = some result := by
  cases a with
  | none =>
    constructor
    · rintro ⟨⟩
    · rintro ⟨-, ⟨⟩⟩
  | some b =>
    rw [ofOption, conversation_done, Option.some.injEq, eq_comm (a := b)]

theorem conversation_question {query : Query} {transcript : List (Query × Answer)}
    {answer : Answer} :
    Conversation (question query : Dialogue Query Answer Answer) transcript answer ↔
      transcript = [(query, answer)] := by
  rw [question, conversation_ask]
  constructor
  · rintro ⟨a, rest, rfl, h⟩
    obtain ⟨rfl, rfl⟩ := conversation_done.mp h
    rfl
  · rintro rfl
    exact ⟨answer, [], rfl, .done answer⟩

/-! ### Runs on allowed answers -/

/-- Whatever the answers, as long as they are allowed, the dialogue is never stuck, and it ends with
a transcript and a result of the kind. -/
def Ends (allows : Query → Answer → Prop) : Dialogue Query Answer Result →
    (List (Query × Answer) → Result → Prop) → Prop
  | .done result, post => post [] result
  | .stuck, _ => False
  | .ask query next, post => ∀ answer, allows query answer →
    (next answer).Ends allows fun transcript result => post ((query, answer) :: transcript) result

theorem Ends.mono {allows : Query → Answer → Prop} {p : Dialogue Query Answer Result}
    {post post' : List (Query × Answer) → Result → Prop} (ends : p.Ends allows post)
    (weaker : ∀ transcript result, post transcript result → post' transcript result) :
    p.Ends allows post' := by
  induction p generalizing post post' with
  | done result => exact weaker [] result ends
  | stuck => exact ends
  | ask query next ih =>
    intro answer allowed
    exact ih answer (ends answer allowed) fun transcript result =>
      weaker ((query, answer) :: transcript) result

/-- What ends on all allowed answers does so in each conversation. -/
theorem Ends.conversation {allows : Query → Answer → Prop} {p : Dialogue Query Answer Result}
    {post : List (Query × Answer) → Result → Prop} (ends : p.Ends allows post)
    {transcript : List (Query × Answer)} {result : Result}
    (spoken : Conversation p transcript result) (allowed : ∀ c ∈ transcript, allows c.1 c.2) :
    post transcript result := by
  induction spoken generalizing post with
  | done result => exact ends
  | ask rest ih =>
    obtain ⟨here, later⟩ := List.forall_mem_cons.mp allowed
    exact ih (ends _ here) later

/-! ### Runs in a world that answers -/

section World
variable {World : Type*} {stops : Prop} {step : World → Query → Answer → World → Prop}

/-- The world goes along with the answers that it gives. -/
inductive Course (step : World → Query → Answer → World → Prop) :
    World → List (Query × Answer) → World → Prop where
  | done (w : World) : Course step w [] w
  | ask {w w' last : World} {query : Query} {answer : Answer} {rest : List (Query × Answer)}
      (first : step w query answer w') (later : Course step w' rest last) :
      Course step w ((query, answer) :: rest) last

/-- Whatever the world answers, the dialogue ends with a world and a result of the kind. It is never
stuck, or that may be. -/
def Reaches (stops : Prop) (step : World → Query → Answer → World → Prop) :
    Dialogue Query Answer Result → World → (World → Result → Prop) → Prop
  | .done result, w, post => post w result
  | .stuck, _, _ => stops
  | .ask query next, w, post => ∀ answer w', step w query answer w' →
    (next answer).Reaches stops step w' post

theorem Reaches.mono {p : Dialogue Query Answer Result} {w : World}
    {post post' : World → Result → Prop} (reaches : p.Reaches stops step w post)
    (weaker : ∀ w result, post w result → post' w result) : p.Reaches stops step w post' := by
  induction p generalizing w with
  | done result => exact weaker w result reaches
  | stuck => exact reaches
  | ask query next ih =>
    intro answer w' first
    exact ih answer (reaches answer w' first)

theorem reaches_bind {p : Dialogue Query Answer Result} {f : Result → Dialogue Query Answer Other}
    {w : World} {post : World → Other → Prop}
    (first : p.Reaches stops step w fun w result => (f result).Reaches stops step w post) :
    (p.bind f).Reaches stops step w post := by
  induction p generalizing w with
  | done result => exact first
  | stuck => exact first
  | ask query next ih =>
    intro answer w' asked
    exact ih answer (first answer w' asked)

theorem reaches_ofOption {a : Option Result} {b : Result} (known : a = some b)
    {f : Result → Dialogue Query Answer Other} {w : World} {post : World → Other → Prop}
    (next : (f b).Reaches stops step w post) : ((ofOption a).bind f).Reaches stops step w post := by
  rw [known]
  exact next

theorem reaches_question {query : Query} {f : Answer → Dialogue Query Answer Other} {w : World}
    {post : World → Other → Prop}
    (next : ∀ answer w', step w query answer w' → (f answer).Reaches stops step w' post) :
    ((question query).bind f).Reaches stops step w post := next

theorem course_append {w last : World} {first later : List (Query × Answer)} :
    Course step w (first ++ later) last ↔
      ∃ middle, Course step w first middle ∧ Course step middle later last := by
  constructor
  · intro course
    induction first generalizing w with
    | nil => exact ⟨w, .done w, course⟩
    | cons c first ih =>
      cases course with
      | ask now rest =>
        obtain ⟨middle, one, other⟩ := ih rest
        exact ⟨middle, .ask now one, other⟩
  · rintro ⟨middle, one, other⟩
    induction one with
    | done w => exact other
    | ask now rest ih => exact .ask now (ih other)

/-- Each answer is one that the world gives. -/
theorem Course.step_of_mem {w last : World} {transcript : List (Query × Answer)}
    (course : Course step w transcript last) {query : Query} {answer : Answer}
    (mem : (query, answer) ∈ transcript) : ∃ w' w'', step w' query answer w'' := by
  induction course with
  | done w => cases mem
  | ask now rest ih =>
    rcases List.mem_cons.mp mem with same | later
    · cases same
      exact ⟨_, _, now⟩
    · exact ih later

theorem Reaches.conversation {p : Dialogue Query Answer Result} {w last : World}
    {post : World → Result → Prop} (reaches : p.Reaches stops step w post)
    {transcript : List (Query × Answer)} {result : Result}
    (spoken : Conversation p transcript result) (course : Course step w transcript last) :
    post last result := by
  induction spoken generalizing w with
  | done result =>
    cases course
    exact reaches
  | ask rest ih =>
    cases course with
    | ask first later => exact ih (reaches _ _ first) later

/-- A world that only writes down what was said, and gives the allowed answers. -/
def recorded (allows : Query → Answer → Prop) (before : List (Query × Answer)) (query : Query)
    (answer : Answer) (after : List (Query × Answer)) : Prop :=
  allows query answer ∧ after = before ++ [(query, answer)]

theorem course_recorded {allows : Query → Answer → Prop} {before transcript : List (Query × Answer)}
    (allowed : ∀ c ∈ transcript, allows c.1 c.2) :
    Course (recorded allows) before transcript (before ++ transcript) := by
  induction transcript generalizing before with
  | nil =>
    rw [List.append_nil]
    exact .done before
  | cons c transcript ih =>
    obtain ⟨here, later⟩ := List.forall_mem_cons.mp allowed
    rw [List.append_cons]
    exact .ask ⟨here, rfl⟩ (ih later)

theorem ends_of_reaches {allows : Query → Answer → Prop} {p : Dialogue Query Answer Result}
    {before : List (Query × Answer)} {post : List (Query × Answer) → Result → Prop}
    (reaches : p.Reaches False (recorded allows) before post) :
    p.Ends allows fun transcript result => post (before ++ transcript) result := by
  induction p generalizing before with
  | done result =>
    rw [Ends, List.append_nil]
    exact reaches
  | stuck => exact reaches
  | ask query next ih =>
    intro answer allowed
    have later := ih answer (reaches answer _ ⟨allowed, rfl⟩)
    simp only [List.append_assoc, List.singleton_append] at later
    exact later

end World

/-! ### Questions on the way -/

/-- The dialogue asks the question after the transcript, whether or not it ends. -/
inductive Asks : Dialogue Query Answer Result → List (Query × Answer) → Query → Prop where
  | now {query : Query} {next : Answer → Dialogue Query Answer Result} :
      Asks (.ask query next) [] query
  | later {query last : Query} {next : Answer → Dialogue Query Answer Result} {answer : Answer}
      {transcript : List (Query × Answer)} (rest : Asks (next answer) transcript last) :
      Asks (.ask query next) ((query, answer) :: transcript) last

theorem asks_of_conversation {p : Dialogue Query Answer Result} {before after : List (Query × Answer)}
    {query : Query} {answer : Answer} {result : Result}
    (spoken : Conversation p (before ++ (query, answer) :: after) result) : Asks p before query := by
  induction before generalizing p with
  | nil =>
    cases spoken
    exact .now
  | cons first before ih =>
    cases spoken with
    | ask rest => exact .later (ih rest)

/-- As long as the answers are allowed every question is good, and so is the result. -/
def Respects (allows : Query → Answer → Prop) (good : Query → Prop) :
    Dialogue Query Answer Result → (Result → Prop) → Prop
  | .done result, post => post result
  | .stuck, _ => True
  | .ask query next, post => good query ∧ ∀ answer, allows query answer →
    (next answer).Respects allows good post

section Respects
variable {allows : Query → Answer → Prop} {good : Query → Prop}

theorem Respects.asks {p : Dialogue Query Answer Result} {post : Result → Prop}
    (respects : p.Respects allows good post) {transcript : List (Query × Answer)} {query : Query}
    (asked : Asks p transcript query) (allowed : ∀ c ∈ transcript, allows c.1 c.2) :
    good query := by
  induction asked with
  | now => exact respects.1
  | later rest ih =>
    obtain ⟨here, later⟩ := List.forall_mem_cons.mp allowed
    exact ih (respects.2 _ here) later

theorem Respects.mono {p : Dialogue Query Answer Result} {post post' : Result → Prop}
    (respects : p.Respects allows good post) (weaker : ∀ result, post result → post' result) :
    p.Respects allows good post' := by
  induction p with
  | done result => exact weaker result respects
  | stuck => trivial
  | ask query next ih =>
    constructor
    · exact respects.1
    · intro answer allowed
      exact ih answer (respects.2 answer allowed)

theorem Respects.imp {good' : Query → Prop} {p : Dialogue Query Answer Result} {post : Result → Prop}
    (respects : p.Respects allows good post) (weaker : ∀ {query}, good query → good' query) :
    p.Respects allows good' post := by
  induction p with
  | done result => exact respects
  | stuck => trivial
  | ask query next ih =>
    constructor
    · exact weaker respects.1
    · intro answer allowed
      exact ih answer (respects.2 answer allowed)

theorem respects_bind {p : Dialogue Query Answer Result} {f : Result → Dialogue Query Answer Other}
    {post : Other → Prop}
    (first : p.Respects allows good fun result => (f result).Respects allows good post) :
    (p.bind f).Respects allows good post := by
  induction p with
  | done result => exact first
  | stuck => trivial
  | ask query next ih =>
    constructor
    · exact first.1
    · intro answer allowed
      exact ih answer (first.2 answer allowed)

theorem respects_ofOption {a : Option Result} {f : Result → Dialogue Query Answer Other}
    {post : Other → Prop} (next : ∀ b, a = some b → (f b).Respects allows good post) :
    ((ofOption a).bind f).Respects allows good post := by
  cases a with
  | none => trivial
  | some b => exact next b rfl

/-- A dialogue in a world whose answers are allowed respects what it respects. -/
theorem Reaches.respects {World : Type*} {stops : Prop}
    {step : World → Query → Answer → World → Prop} {p : Dialogue Query Answer Result} {w : World}
    {post : World → Result → Prop} {kept : Result → Prop} (reaches : p.Reaches stops step w post)
    (respects : p.Respects allows good kept)
    (allowed : ∀ {w query answer w'}, step w query answer w' → allows query answer) :
    p.Reaches stops step w fun w result => post w result ∧ kept result := by
  induction p generalizing w with
  | done result => exact ⟨reaches, respects⟩
  | stuck => exact reaches
  | ask query next ih =>
    intro answer w' asked
    exact ih answer (reaches answer w' asked) (respects.2 answer (allowed asked))

/-- What is reached in a world is reached in another one that takes its steps: each answer to a
good question is one of the first world. -/
theorem Reaches.simulate {World World' : Type*} {stops : Prop}
    {step : World → Query → Answer → World → Prop} {step' : World' → Query → Answer → World' → Prop}
    {related : World → World' → Prop} {p : Dialogue Query Answer Result} {w : World} {x : World'}
    {post : World → Result → Prop} {kept : Result → Prop} (reaches : p.Reaches stops step w post)
    (respects : p.Respects (fun _ _ => True) good kept) (start : related w x)
    (each : ∀ {w x query answer x'}, related w x → good query → step' x query answer x' →
      ∃ w', step w query answer w' ∧ related w' x') :
    p.Reaches stops step' x fun x result => ∃ w, related w x ∧ post w result := by
  induction p generalizing w x with
  | done result => exact ⟨w, start, reaches⟩
  | stuck => exact reaches
  | ask query next ih =>
    intro answer x' asked
    obtain ⟨w', first, later⟩ := each start respects.1 asked
    exact ih answer (reaches answer w' first) (respects.2 answer trivial) later

end Respects

/-! ### Notes -/

section Notes
variable {Event : Type*} (view : Event → Option Query)

/-- Leave out the events that are no questions. -/
def erase [Inhabited Answer] : Dialogue Event Answer Result → Dialogue Query Answer Result
  | .done result => .done result
  | .stuck => .stuck
  | .ask event next =>
    match view event with
    | some query => .ask query fun answer => (next answer).erase
    | none => (next default).erase

/-- Write down an event. -/
def note (event : Event) (p : Dialogue Event Answer Result) : Dialogue Event Answer Result :=
  .ask event fun _ => p

/-- Each question is asked as an event. -/
def relabel (label : Query → Event) : Dialogue Query Answer Result → Dialogue Event Answer Result
  | .done result => .done result
  | .stuck => .stuck
  | .ask query next => .ask (label query) fun answer => (next answer).relabel label

@[simp] theorem relabel_bind (label : Query → Event) (p : Dialogue Query Answer Result)
    (f : Result → Dialogue Query Answer Other) :
    (p.bind f).relabel label = (p.relabel label).bind fun result => (f result).relabel label := by
  induction p with
  | done result => rfl
  | stuck => rfl
  | ask query next ih => exact congrArg (ask (label query)) (funext ih)

@[simp] theorem relabel_ofOption (label : Query → Event) (a : Option Result) :
    (ofOption a : Dialogue Query Answer Result).relabel label = ofOption a := by
  cases a with
  | none => rfl
  | some result => rfl

variable [Inhabited Answer]

@[simp] theorem erase_done (result : Result) :
    (.done result : Dialogue Event Answer Result).erase view = .done result := rfl

@[simp] theorem erase_bind (p : Dialogue Event Answer Result)
    (f : Result → Dialogue Event Answer Other) :
    (p.bind f).erase view = (p.erase view).bind fun result => (f result).erase view := by
  induction p with
  | done result => rfl
  | stuck => rfl
  | ask event next ih =>
    rw [bind, erase, erase]
    cases view event with
    | none => exact ih default
    | some query => exact congrArg (ask query) (funext ih)

@[simp] theorem erase_ofOption (a : Option Result) :
    (ofOption a : Dialogue Event Answer Result).erase view = ofOption a := by
  cases a with
  | none => rfl
  | some result => rfl

@[simp] theorem erase_ite {c : Prop} [Decidable c] (p q : Dialogue Event Answer Result) :
    (if c then p else q).erase view = if c then p.erase view else q.erase view := by
  split
  · rfl
  · rfl

theorem erase_note {event : Event} (silent : view event = none)
    (p : Dialogue Event Answer Result) : (note event p).erase view = p.erase view := by
  rw [note, erase, silent]

theorem erase_relabel {label : Query → Event} (seen : ∀ query, view (label query) = some query)
    (p : Dialogue Query Answer Result) : (p.relabel label).erase view = p := by
  induction p with
  | done result => rfl
  | stuck => rfl
  | ask query next ih =>
    rw [relabel, erase, seen]
    exact congrArg (ask query) (funext ih)

end Notes

end Dialogue
