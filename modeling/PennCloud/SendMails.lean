import PennCloud.Dialogue
import PennCloud.EmailReply
import PennCloud.FormBodies

/-!
# Where mails are sent

`send_mails` of `email.h` tells local recipients by the last ten characters of their
addresses. The deliveries themselves are questions, answered with what they return.
-/

namespace SendMails

open Text Pattern Mailbox EmailReply FormBodies Dialogue

inductive Delivery where
  | sendLocalMail (receiver : Str) (mail : Mail)
  | sendRemoteMail (receiver domain : Str) (mail : Mail)
  deriving DecidableEq, Repr

/-- `send_mails`, stuck where it throws. The clock says when the mail is made that leaves so many
recipients. -/
def sendMails (usr text : Str) (clock : Nat → Str) : List Str → Dialogue Delivery Bool Bool
  | [] => .done true
  | recipient :: later =>
    let mail : Mail := ⟨0, usr, clock later.length, text⟩
    let next (sent : Bool) : Dialogue Delivery Bool Bool :=
      if sent then sendMails usr text clock later else .done false
    (ofOption (substrFrom recipient (sizeMinus recipient 10))).bind fun suffix =>
      if suffix = EMAIL_SUFFIX then
        (ofOption (substr recipient 0 (sizeMinus recipient 10))).bind fun receiver =>
          .ask (.sendLocalMail receiver mail) next
      else match find ['@'] recipient with
        | none => .done false
        | some pos =>
          (ofOption (substr recipient 0 pos)).bind fun receiver =>
            (ofOption (substrFrom recipient (pos + 1))).bind fun domain =>
              .ask (.sendRemoteMail receiver domain mail) next

/-- The delivery that a recipient asks for. -/
inductive Goes (mail : Mail) : Str → Delivery → Prop where
  | sendLocalMail (receiver : Str) :
      Goes mail (receiver ++ EMAIL_SUFFIX) (.sendLocalMail receiver mail)
  | sendRemoteMail {receiver : Str} (domain : Str) (first : '@' ∉ receiver)
      (other : ¬ EMAIL_SUFFIX <:+ receiver ++ '@' :: domain) :
      Goes mail (receiver ++ '@' :: domain) (.sendRemoteMail receiver domain mail)

/-- The recipients are handled in order, up to the first delivery that fails and the first recipient
that is no address. -/
inductive Handled (usr text : Str) (clock : Nat → Str) :
    List Str → List (Delivery × Bool) → Bool → Prop where
  | done : Handled usr text clock [] [] true
  | sent {recipient : Str} {later : List Str} {call : Delivery}
      {transcript : List (Delivery × Bool)} {result : Bool}
      (goes : Goes ⟨0, usr, clock later.length, text⟩ recipient call)
      (next : Handled usr text clock later transcript result) :
      Handled usr text clock (recipient :: later) ((call, true) :: transcript) result
  | failed {recipient : Str} {later : List Str} {call : Delivery}
      (goes : Goes ⟨0, usr, clock later.length, text⟩ recipient call) :
      Handled usr text clock (recipient :: later) [(call, false)] false
  | unaddressed {recipient : Str} (later : List Str) (plain : '@' ∉ recipient) :
      Handled usr text clock (recipient :: later) [] false

/-- Each recipient that is reached has at least the ten characters that are cut off. -/
def LongEnough (recipients : List Str) : Prop :=
  ∀ reached recipient later, recipients = reached ++ recipient :: later →
    (∀ r ∈ reached, '@' ∈ r) → 10 ≤ recipient.length

/-! One recipient -/

theorem cut_suffix {recipient : Str} (long : 10 ≤ recipient.length) :
    substrFrom recipient (sizeMinus recipient 10) =
      some (recipient.drop (recipient.length - 10)) := by
  rw [sizeMinus, if_pos long, substrFrom, substr, if_pos (Nat.sub_le _ _)]
  refine congrArg some (List.take_of_length_le ?_)
  rw [List.length_drop]
  omega

theorem cut_short {recipient : Str} (short : recipient.length < 10) :
    substrFrom recipient (sizeMinus recipient 10) = none := by
  have past : ¬ recipient.length + 2 ^ 64 - 10 ≤ recipient.length := by omega
  rw [sizeMinus, if_neg (Nat.not_le.mpr short), substrFrom, substr, if_neg past]

theorem drop_eq_suffix {recipient : Str} :
    recipient.drop (recipient.length - 10) = EMAIL_SUFFIX ↔ EMAIL_SUFFIX <:+ recipient := by
  have ten : EMAIL_SUFFIX.length = 10 := rfl
  rw [← ten, List.suffix_iff_eq_drop]
  exact eq_comm

/-- The first sign splits an address. -/
theorem find_sign {receiver domain : Str} (first : '@' ∉ receiver) :
    find ['@'] (receiver ++ '@' :: domain) = some receiver.length := by
  have before : ∀ a b, receiver = a ++ b → b ≠ [] → ¬ ['@'] <+: b ++ (['@'] ++ domain) := by
    intro a b same nonempty here
    cases b with
    | nil => exact nonempty rfl
    | cons c b =>
      obtain ⟨t, here⟩ := here
      obtain ⟨rfl, -⟩ := List.cons.inj here
      exact first (by rw [same]; simp)
  exact find_after before

theorem find_no_sign {s : Str} (plain : '@' ∉ s) : find ['@'] s = none := by
  induction s with
  | nil => rfl
  | cons c s ih =>
    obtain ⟨other, later⟩ := not_or.mp (List.mem_cons.not.mp plain)
    have no : ¬ ['@'] <+: c :: s := by
      rintro ⟨t, same⟩
      exact other (List.cons.inj same).1
    rw [find_cons no, ih later]
    rfl

section Steps

variable {usr text : Str} {clock : Nat → Str} {later : List Str}

/-- What follows a delivery. -/
def goOn (usr text : Str) (clock : Nat → Str) (later : List Str) (sent : Bool) :
    Dialogue Delivery Bool Bool :=
  if sent then sendMails usr text clock later else .done false

theorem sendMails_local (receiver : Str) :
    sendMails usr text clock ((receiver ++ EMAIL_SUFFIX) :: later) =
      .ask (.sendLocalMail receiver ⟨0, usr, clock later.length, text⟩)
        (goOn usr text clock later) := by
  have ten : EMAIL_SUFFIX.length = 10 := rfl
  have length : (receiver ++ EMAIL_SUFFIX).length = receiver.length + 10 := by
    rw [List.length_append, ten]
  have long : 10 ≤ (receiver ++ EMAIL_SUFFIX).length := by omega
  have suffix := cut_suffix long
  have size : sizeMinus (receiver ++ EMAIL_SUFFIX) 10 = receiver.length := by
    rw [sizeMinus, if_pos long]
    omega
  have cut : substr (receiver ++ EMAIL_SUFFIX) 0 receiver.length = some receiver := by
    rw [substr, if_pos (Nat.zero_le _), List.drop_zero, List.take_left]
  rw [length, Nat.add_sub_cancel, List.drop_left] at suffix
  rw [sendMails, suffix]
  simp only [ofOption, Dialogue.bind, if_pos, size, cut]
  rfl

theorem sendMails_remote {receiver domain : Str} (first : '@' ∉ receiver)
    (other : ¬ EMAIL_SUFFIX <:+ receiver ++ '@' :: domain)
    (long : 10 ≤ (receiver ++ '@' :: domain).length) :
    sendMails usr text clock ((receiver ++ '@' :: domain) :: later) =
      .ask (.sendRemoteMail receiver domain ⟨0, usr, clock later.length, text⟩)
        (goOn usr text clock later) := by
  have front : substr (receiver ++ '@' :: domain) 0 receiver.length = some receiver := by
    rw [substr, if_pos (Nat.zero_le _), List.drop_zero, List.take_left]
  have back : substrFrom (receiver ++ '@' :: domain) (receiver.length + 1) = some domain := by
    have split : receiver ++ '@' :: domain = (receiver ++ ['@']) ++ domain := by simp
    have place : receiver.length + 1 = (receiver ++ ['@']).length := by simp
    rw [substrFrom, split, place]
    refine substr_append _ _ ?_
    simp only [List.length_append]
    omega
  rw [sendMails, cut_suffix long]
  simp only [ofOption, Dialogue.bind, if_neg (drop_eq_suffix.not.mpr other), find_sign first, front,
    back]
  rfl

theorem sendMails_unaddressed {recipient : Str} (plain : '@' ∉ recipient)
    (long : 10 ≤ recipient.length) :
    sendMails usr text clock (recipient :: later) = .done false := by
  have other : ¬ EMAIL_SUFFIX <:+ recipient := by
    intro suffix
    exact plain (suffix.subset (by decide))
  rw [sendMails, cut_suffix long]
  simp only [ofOption, Dialogue.bind, if_neg (drop_eq_suffix.not.mpr other), find_no_sign plain]

theorem sendMails_short {recipient : Str} (short : recipient.length < 10) :
    sendMails usr text clock (recipient :: later) = .stuck := by
  rw [sendMails, cut_short short]
  rfl

/-- An address of at least ten characters asks for a delivery, and is asked for it. -/
theorem sendMails_goes {recipient : Str} (address : '@' ∈ recipient)
    (long : 10 ≤ recipient.length) : ∃ call,
    Goes ⟨0, usr, clock later.length, text⟩ recipient call ∧
      sendMails usr text clock (recipient :: later) = .ask call (goOn usr text clock later) := by
  by_cases suffix : EMAIL_SUFFIX <:+ recipient
  · obtain ⟨receiver, rfl⟩ := suffix
    exact ⟨_, .sendLocalMail receiver, sendMails_local receiver⟩
  · obtain ⟨receiver, domain, rfl, first⟩ := List.eq_append_cons_of_mem address
    exact ⟨_, .sendRemoteMail domain first suffix, sendMails_remote first suffix long⟩

end Steps

/-! All recipients -/

theorem LongEnough.head {recipient : Str} {later : List Str}
    (enough : LongEnough (recipient :: later)) : 10 ≤ recipient.length :=
  enough [] recipient later rfl (by simp)

theorem LongEnough.tail {recipient : Str} {later : List Str}
    (enough : LongEnough (recipient :: later)) (address : '@' ∈ recipient) : LongEnough later := by
  intro reached r rest same addresses
  refine enough (recipient :: reached) r rest (by rw [same]; rfl) ?_
  exact List.forall_mem_cons.mpr ⟨address, addresses⟩

theorem longEnough_cons {recipient : Str} {later : List Str} (long : 10 ≤ recipient.length)
    (rest : '@' ∈ recipient → LongEnough later) : LongEnough (recipient :: later) := by
  intro reached r after same addresses
  cases reached with
  | nil =>
    obtain ⟨rfl, -⟩ := List.cons.inj same
    exact long
  | cons q reached =>
    obtain ⟨rfl, tail⟩ := List.cons.inj same
    obtain ⟨first, others⟩ := List.forall_mem_cons.mp addresses
    exact rest first reached r after tail others

section Runs

variable {usr text : Str} {clock : Nat → Str}

/-- Where no short recipient is reached, the recipients are handled in order. -/
theorem ends_of_longEnough {recipients : List Str} (enough : LongEnough recipients) :
    (sendMails usr text clock recipients).Ends (fun _ _ => True)
      (Handled usr text clock recipients) := by
  induction recipients with
  | nil => exact .done
  | cons recipient later ih =>
    by_cases address : '@' ∈ recipient
    · obtain ⟨call, goes, asked⟩ : ∃ call, Goes ⟨0, usr, clock later.length, text⟩ recipient call ∧
          sendMails usr text clock (recipient :: later) = .ask call (goOn usr text clock later) :=
        sendMails_goes address enough.head
      rw [asked]
      intro answer _
      cases answer with
      | false => exact .failed goes
      | true => exact (ih (enough.tail address)).mono fun _ _ => .sent goes
    · rw [sendMails_unaddressed address enough.head]
      exact .unaddressed later address

/-- Where all deliveries succeed, each recipient before one that is no address is reached. -/
theorem longEnough_of_ends {recipients : List Str} {post : List (Delivery × Bool) → Bool → Prop}
    (ends : (sendMails usr text clock recipients).Ends (fun _ _ => True) post) :
    LongEnough recipients := by
  induction recipients generalizing post with
  | nil =>
    intro reached recipient later same
    exact absurd same (by simp)
  | cons recipient later ih =>
    have long : 10 ≤ recipient.length := by
      by_contra short
      rw [sendMails_short (Nat.lt_of_not_le short)] at ends
      exact ends
    refine longEnough_cons long ?_
    intro address
    obtain ⟨call, -, asked⟩ : ∃ call, Goes ⟨0, usr, clock later.length, text⟩ recipient call ∧
        sendMails usr text clock (recipient :: later) = .ask call (goOn usr text clock later) :=
      sendMails_goes address long
    rw [asked] at ends
    exact ih (ends true trivial)

end Runs

end SendMails
