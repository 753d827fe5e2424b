import QuorumLog.Proofs.ReceivedEntries

/-! What an acknowledgment says about the entry that it answers. A replica tells by the offset alone whether
it holds an entry. So the entry that it retains at an acknowledged offset is the one that it answers if that
came next, and otherwise it is the one that it had before, whatever arrived. The two are the same as long as
the log and the session have at most one entry at each offset. -/

namespace QuorumLog

variable {L : Type} [LocalLog L] [IntakeLog L] {r r' : Replica L} {c : Channel} {e : Entry}
variable {messages front later : List Message}

namespace Replica

/-- Whatever messages do, the log only grows at its end. -/
theorem entries_receiveAll (sound : IntakeLog.Sound r.log)
    (arrive : ∀ message ∈ messages, message.Arrives) :
    IntakeLog.entries r.log <+: IntakeLog.entries (r.receiveAll messages).1.log := by
  rcases r.receiveAll_cases messages with ⟨r', answers, ran⟩ |
    ⟨handled, message, unread, mid, answers, r', fault, rfl, ran, stopped, all⟩
  · rw [ran, (course_of_receiveAll sound arrive ran).1.entries]
    exact List.prefix_append ..
  · obtain ⟨arriveHandled, arriveLater⟩ := List.forall_mem_append.mp arrive
    obtain ⟨course, -⟩ := course_of_receiveAll sound arriveHandled ran
    have broken := broken_of_receive course.sound (arriveLater message List.mem_cons_self) stopped
    rw [all, broken.entries, course.entries]
    exact List.prefix_append ..

omit [IntakeLog L] in
/-- Behind a message that ends the session nothing is looked at. -/
theorem receiveAll_ended {answers : List Message} {fault : Fault}
    (ran : r.receiveAll front = (r', answers, .error fault)) :
    r.receiveAll (front ++ later) = (r', answers, .error fault) := by
  induction front generalizing r answers with
  | nil => cases ran
  | cons message front ih =>
    simp only [receiveAll, List.cons_append] at ran ⊢
    split at ran
    · exact ran
    · rename_i mid answer received
      cases others : mid.receiveAll front with
      | mk last rest =>
        obtain ⟨more, ending⟩ := rest
        rw [others] at ran
        cases ran
        rw [ih others]

end Replica

namespace Channel

/-- The log has no other entry than this one at its offset. -/
def OnlyAt (log : List Entry) (e : Entry) : Prop := ∀ x ∈ log, x.offset = e.offset → x = e

/-- The answer to an entry is an acknowledgment of its offset. -/
def Answers (r : Replica L) (c : Channel) (front : List Message) (e : Entry) : Prop :=
  (c.hear r (front ++ [.entry e])).2.up = (c.hear r front).2.up ++ [.ack e.offset]

/-- What an acknowledgment says, by the log before it, the log after it, and the log later in the
session. -/
structure Vouches (e : Entry) (before after later : L) : Prop where
  reached : e.offset ≤ LocalLog.highest after
  /-- The next entry is added as it arrived. -/
  added : LocalLog.highest before < e.offset →
    IntakeLog.entries after = IntakeLog.entries before ++ [e] ∧ OnlyAt (IntakeLog.entries after) e
  /-- Any other one is passed over, whatever it is. -/
  skipped : e.offset ≤ LocalLog.highest before → after = before
  /-- What is held is what was acknowledged unless another entry was held before. -/
  only : OnlyAt (IntakeLog.entries after) e ↔ OnlyAt (IntakeLog.entries before) e
  /-- Nothing that is held now is changed later. -/
  stays : IntakeLog.entries after <+: IntakeLog.entries later
  fits : LocalLog.highest after < UInt64.size

omit [IntakeLog L] in
theorem up_hear (listens : c.Listens) (r : Replica L) (messages : List Message) :
    (c.hear r messages).2.up = c.up ++ (r.receiveAll messages).2.1 := by
  rw [hear_eq_receiveAll listens]
  cases (r.receiveAll messages).2.2 <;> exact congrArg Channel.up (listens.answer _).1

omit [IntakeLog L] in
/-- An entry is answered only if the session goes on behind it. -/
theorem handled_of_answers (listens : c.Listens) (answered : Answers r c front e) :
    ∃ r' sent, r.receiveAll (front ++ [.entry e]) = (r', sent, .ok ()) := by
  -- Whatever ends the session is not answered, and nothing behind it is.
  have silent (same : (r.receiveAll (front ++ [.entry e])).2.1 = (r.receiveAll front).2.1) :
      False := by
    have length := congrArg List.length answered
    rw [up_hear listens, up_hear listens, same] at length
    simp at length
  cases before : r.receiveAll front with
  | mk mid rest =>
    obtain ⟨sent, ending⟩ := rest
    cases ending with
    | error fault => exact (silent (by rw [Replica.receiveAll_ended before, before])).elim
    | ok _ =>
      cases received : mid.receive (.entry e) with
      | mk last result =>
        cases result with
        | error fault =>
          refine (silent ?_).elim
          rw [Replica.receiveAll_append before, before]
          simp [Replica.receiveAll, received]
        | ok answer =>
          refine ⟨last, sent ++ (answer.toList ++ []), ?_⟩
          rw [Replica.receiveAll_append before]
          simp [Replica.receiveAll, received]

/-- An entry that is taken as the next one is the only one at its offset, and any other one leaves the
log as it was. -/
theorem vouches_of_takes (sound : IntakeLog.Sound r'.log) (takes : Replica.Takes r e r')
    (reached : e.offset ≤ r'.offset) {later : L}
    (stays : IntakeLog.entries r'.log <+: IntakeLog.entries later) (fits : r'.offset < UInt64.size) :
    Vouches e r.log r'.log later := by
  cases takes with
  | skips old same =>
    refine ⟨reached, fun fresh => absurd old (Nat.not_le.mpr fresh), fun _ => same, ?_, stays,
      fits⟩
    rw [same]
  | adds next stored more =>
    have only : OnlyAt (IntakeLog.entries r'.log) e := fun x held same =>
      IntakeLog.eq_of_offset sound held (by rw [more]; simp) same
    refine ⟨reached, fun _ => ⟨more, only⟩, fun old => ?_, ?_, stays, fits⟩
    · exact absurd (next ▸ old : r.offset + 1 ≤ r.offset) (Nat.not_succ_le_self _)
    · refine iff_of_true only fun x held same => only x ?_ same
      rw [more]
      exact List.mem_append_left _ held

/-- An acknowledged entry is the one that the log has at its offset, unless the log had another one there
before; then it keeps that one. If neither the log nor the session had another one there, it is the one.
There are words for all offsets. -/
theorem ack_vouches (listens : c.Listens) (sound : IntakeLog.Sound r.log)
    (arrive : ∀ message ∈ front ++ .entry e :: later, message.Arrives)
    (room : r.offset + (arrivals (front ++ .entry e :: later)).length < UInt64.size)
    (answered : Answers r c front e) :
    Vouches e (c.hear r front).1.log (c.hear r (front ++ [.entry e])).1.log
        (c.hear r (front ++ .entry e :: later)).1.log ∧
      (OnlyAt (IntakeLog.entries r.log ++ arrivals front) e →
        OnlyAt (IntakeLog.entries (c.hear r (front ++ [.entry e])).1.log) e) := by
  obtain ⟨last, sent, ran⟩ := handled_of_answers listens answered
  obtain ⟨mid, before, answer, first, received⟩ := Replica.receive_of_last ran
  obtain ⟨arriveFront, arriveRest⟩ := List.forall_mem_append.mp arrive
  obtain ⟨arrives, arriveLater⟩ := List.forall_mem_cons.mp arriveRest
  have arriveHere : ∀ message ∈ front ++ [.entry e], message.Arrives :=
    List.forall_mem_append.mpr ⟨arriveFront, by simpa using arrives⟩
  obtain ⟨here, course, -⟩ := hear_handled listens sound arriveFront first
  obtain ⟨there, course', -⟩ := hear_handled listens sound arriveHere ran
  obtain ⟨takes, reached⟩ := Replica.takes_of_receive (here ▸ course.sound) arrives received
  have onwards : (c.hear r (front ++ .entry e :: later)).1 = (last.receiveAll later).1 := by
    rw [hear_eq_receiveAll listens, List.append_cons, Replica.receiveAll_append ran]
  have stays := Replica.entries_receiveAll (there ▸ course'.sound) arriveLater
  have fits : last.offset < UInt64.size := by
    have grown : last.offset ≤ r.offset + (arrivals (front ++ [.entry e])).length := by
      have heard := Replica.offset_receiveAll_le sound arriveHere
      rwa [ran] at heard
    rw [List.append_cons, arrivals_append, List.length_append] at room
    omega
  rw [onwards, here, there]
  refine ⟨vouches_of_takes (there ▸ course'.sound) takes reached stays fits, fun agrees x held same => ?_⟩
  rw [← there, course'.entries, arrivals_append] at held
  rcases List.mem_append.mp held with old | new
  · exact agrees x (List.mem_append_left _ old) same
  · rcases List.mem_append.mp (newcomers_sublist.mem new) with earlier | this
    · exact agrees x (List.mem_append_right _ earlier) same
    · exact List.mem_singleton.mp this

/-- A replica that holds one entry. -/
def holder : Replica VolatileLog where
  settings := .ofName "replica"
  log := { entries := [⟨1, [97], none⟩], highest := 1 }

/-- The second entry arrives twice, and both times it is the one that is held then. -/
theorem ack_vouches_holder :
    Answers holder listening [.entry ⟨2, [98], none⟩] ⟨2, [98], none⟩ ∧
    OnlyAt (IntakeLog.entries (listening.hear holder
      [.entry ⟨2, [98], none⟩, .entry ⟨2, [98], none⟩]).1.log) ⟨2, [98], none⟩ := by
  have answered : Answers holder listening [.entry ⟨2, [98], none⟩] ⟨2, [98], none⟩ := by
    unfold Answers
    decide
  have sound : IntakeLog.Sound holder.log := VolatileLog.Numbered.mk rfl rfl
  have arrive : ∀ message ∈ [Message.entry ⟨2, [98], none⟩] ++ .entry ⟨2, [98], none⟩ :: [],
      message.Arrives := by
    intro message member
    rw [List.singleton_append, List.mem_pair, or_self] at member
    exact member ▸ Message.arrives_of_fits (by decide) (by decide)
  refine ⟨answered, (ack_vouches ⟨rfl, rfl, rfl⟩ sound arrive (by decide) answered).2 ?_⟩
  simp [OnlyAt, holder, arrivals, Message.entry?, IntakeLog.entries, LawfulLog.entries]

/-- An entry with another payload than the one that is held is acknowledged too, and not added. -/
theorem ack_of_other_entry :
    Answers holder listening [] ⟨1, [98], none⟩ ∧
    IntakeLog.entries (listening.hear holder [.entry ⟨1, [98], none⟩]).1.log =
      [⟨1, [97], none⟩] ∧
    ¬ OnlyAt (IntakeLog.entries (listening.hear holder [.entry ⟨1, [98], none⟩]).1.log)
      ⟨1, [98], none⟩ := by
  have kept : IntakeLog.entries (listening.hear holder [.entry ⟨1, [98], none⟩]).1.log =
      [⟨1, [97], none⟩] := rfl
  refine ⟨rfl, kept, fun only => ?_⟩
  rw [kept] at only
  exact absurd (only ⟨1, [97], none⟩ List.mem_cons_self rfl) (by decide)

end Channel

end QuorumLog
