import Mathlib.Data.List.Basic
import Mathlib.Data.List.Flatten

/-!
# Length-prefixed messages

A header code writes the length of a body in a fixed number of symbols. A frame
is a header with its body, and a stream of frames is read one frame at a time.
A whole frame is read exactly and a part of one is never taken for a message,
so what is read from a cut stream is the list of the frames before the cut.
-/

namespace Framing

universe u

/-- A code that writes every length below `bound` in `width` symbols. -/
structure Header (α : Type u) where
  width : Nat
  bound : Nat
  encode : Nat → List α
  decode : List α → Nat
  encode_length (n : Nat) : (encode n).length = width
  decode_encode (n : Nat) : n < bound → decode (encode n) = n

variable {α : Type u} (h : Header α)

def frame (body : List α) : List α := h.encode body.length ++ body

def frames (bodies : List (List α)) : List α := bodies.flatMap (frame h)

/-- The first body of a stream and what follows it. -/
def next (stream : List α) : Option (List α × List α) :=
  if stream.length < h.width then none
  else
    let rest := stream.drop h.width
    let length := h.decode (stream.take h.width)
    if rest.length < length then none else some (rest.take length, rest.drop length)

@[simp] theorem frames_nil : frames h [] = [] := rfl

@[simp] theorem frames_cons (body : List α) (bodies : List (List α)) :
    frames h (body :: bodies) = frame h body ++ frames h bodies := List.flatMap_cons

@[simp] theorem frames_append (before after : List (List α)) :
    frames h (before ++ after) = frames h before ++ frames h after := List.flatMap_append

@[simp] theorem frame_length (body : List α) :
    (frame h body).length = h.width + body.length := by
  rw [frame, List.length_append, h.encode_length]

variable {h}

theorem take_header (body rest : List α) :
    (frame h body ++ rest).take h.width = h.encode body.length := by
  rw [frame, List.append_assoc]
  exact List.take_left' (h.encode_length _)

theorem drop_header (body rest : List α) :
    (frame h body ++ rest).drop h.width = body ++ rest := by
  rw [frame, List.append_assoc]
  exact List.drop_left' (h.encode_length _)

theorem next_frame {body rest : List α} (short : body.length < h.bound) :
    next h (frame h body ++ rest) = some (body, rest) := by
  have full : ¬ (frame h body ++ rest).length < h.width := by
    rw [List.length_append, frame_length]
    omega
  have whole : ¬ (body ++ rest).length < body.length := by
    rw [List.length_append]
    omega
  rw [next, if_neg full]
  simp only [take_header, drop_header, h.decode_encode _ short, if_neg whole, List.take_left',
    List.drop_left']

/-- A part of a frame that has a whole header has the header of the frame. -/
theorem take_part {body part : List α} (begins : part <+: frame h body)
    (full : h.width ≤ part.length) : part.take h.width = h.encode body.length := by
  obtain ⟨missing, together⟩ := begins
  have same := take_header (h := h) body []
  rwa [List.append_nil, ← together, List.take_append_of_le_length full] at same

/-- A proper part of a frame holds no message. -/
theorem next_part {body part : List α} (short : body.length < h.bound)
    (begins : part <+: frame h body) (proper : part.length < (frame h body).length) :
    next h part = none := by
  rw [next]
  split
  case isTrue => rfl
  case isFalse full =>
    have header := take_part begins (Nat.le_of_not_lt full)
    have lacking : (part.drop h.width).length < body.length := by
      rw [frame_length] at proper
      rw [List.length_drop]
      omega
    simp only [header, h.decode_encode _ short, if_pos lacking]

/-- A message that is read has the length that its header says. -/
theorem length_of_next {stream body rest : List α} (found : next h stream = some (body, rest)) :
    h.width ≤ stream.length ∧ body.length = h.decode (stream.take h.width) ∧
      stream.drop h.width = body ++ rest := by
  rw [next] at found
  split at found
  · cases found
  · next full =>
    dsimp only at found
    split at found
    · cases found
    · next whole =>
      cases found
      refine ⟨Nat.le_of_not_lt full, ?_, (List.take_append_drop _ _).symm⟩
      exact List.length_take_of_le (Nat.le_of_not_lt whole)

/-- A proper beginning of a stream of frames is a list of whole frames and a proper part of
the frame after them. -/
theorem cut {bodies : List (List α)} {received : List α} (begins : received <+: frames h bodies)
    (proper : received.length < (frames h bodies).length) :
    ∃ whole body later part, bodies = whole ++ body :: later ∧
      received = frames h whole ++ part ∧ part <+: frame h body ∧
      part.length < (frame h body).length := by
  induction bodies generalizing received with
  | nil => simp at proper
  | cons body bodies ih =>
    rw [frames_cons] at begins proper
    by_cases inside : received.length < (frame h body).length
    · refine ⟨[], body, bodies, received, rfl, rfl, ?_, inside⟩
      exact List.prefix_of_prefix_length_le begins (List.prefix_append _ _) (Nat.le_of_lt inside)
    · obtain ⟨tail, rfl⟩ : frame h body <+: received :=
        List.prefix_of_prefix_length_le (List.prefix_append _ _) begins (Nat.le_of_not_lt inside)
      rw [List.prefix_append_right_inj] at begins
      rw [List.length_append, List.length_append] at proper
      obtain ⟨whole, last, later, part, rfl, rfl, begins, small⟩ :=
        ih begins (Nat.lt_of_add_lt_add_left proper)
      exact ⟨body :: whole, last, later, part, rfl, by simp, begins, small⟩

end Framing
