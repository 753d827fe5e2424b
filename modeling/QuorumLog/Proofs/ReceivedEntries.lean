import QuorumLog.Channel
import QuorumLog.Proofs.HandedEntries
import QuorumLog.Proofs.ShippingSteps

/-! What a replica makes of a session, whatever its master sends. It handles messages up to the first that
ends the session: an entry that comes too early, an entry that its log does not take, or a failure. Of the
entries before that one it adds those that come next when they arrive and skips the others, and each is
answered by an acknowledgment when the log has everything up to it. The counts of entries add up, and the
known end of the master's log never moves down. -/

namespace QuorumLog

/-- What a replica sends back on a message that it handles. -/
def Message.answer? : Message → Option Message
  | .entry e => some (.ack e.offset)
  | .ping timestamp => some (.pong timestamp)
  | _ => none

/-- The messages that mean nothing to a replica carry no entry and have no answer. -/
theorem Message.plain_of_stray {message : Message}
    (stray : message.kind ∈ [.pong, .hello, .welcome, .ack]) :
    message.entry? = none ∧ message.answer? = none := by
  cases message <;> first | exact ⟨rfl, rfl⟩ | simp [Message.kind] at stray

/-- The entries among messages, as they arrive. -/
def arrivals (messages : List Message) : List Entry := messages.filterMap Message.entry?

/-- Of entries that arrive at a log with an end, those that come next when they arrive. -/
def newcomers (ends : Nat) : List Entry → List Entry
  | [] => []
  | e :: later =>
    if e.offset = ends + 1 then e :: newcomers (ends + 1) later else newcomers ends later

section Newcomers

variable {ends : Nat} {es later : List Entry}

@[simp] theorem arrivals_append (messages further : List Message) :
    arrivals (messages ++ further) = arrivals messages ++ arrivals further :=
  List.filterMap_append

/-- What comes next later is told by how many came next before. -/
theorem newcomers_append : newcomers ends (es ++ later) =
    newcomers ends es ++ newcomers (ends + (newcomers ends es).length) later := by
  induction es generalizing ends with
  | nil => rfl
  | cons e es ih =>
    simp only [List.cons_append, newcomers]
    split
    · rw [ih, List.cons_append, List.length_cons, Nat.add_right_comm, Nat.add_assoc]
    · exact ih

/-- They arrived in this order. -/
theorem newcomers_sublist : (newcomers ends es).Sublist es := by
  induction es generalizing ends with
  | nil => exact .slnil
  | cons e es ih =>
    simp only [newcomers]
    split
    · exact ih.cons_cons e
    · exact ih.cons e

end Newcomers

namespace Replica

variable {L : Type} [LocalLog L] [IntakeLog L] {r r' r'' : Replica L} {message : Message}
variable {messages later answers : List Message} {e : Entry} {fault : Fault}

/-! ### One message -/

/-- What handled messages come to. -/
structure Course (r : Replica L) (messages : List Message) (r' : Replica L) : Prop where
  sound : IntakeLog.Sound r'.log
  entries : IntakeLog.entries r'.log =
    IntakeLog.entries r.log ++ newcomers r.offset (arrivals messages)
  ends : r'.offset = r.offset + (newcomers r.offset (arrivals messages)).length
  oldest : LocalLog.oldest r'.log = LocalLog.oldest r.log
  received : r'.tally.received = r.tally.received + (arrivals messages).length
  applied : r'.tally.applied =
    r.tally.applied + (newcomers r.offset (arrivals messages)).length
  /-- Every entry that arrived was added or is a duplicate. -/
  duplicates : r'.tally.duplicates + (newcomers r.offset (arrivals messages)).length =
    r.tally.duplicates + (arrivals messages).length
  acks : r'.tally.acks = r.tally.acks + (arrivals messages).length
  masterOffset : r.masterOffset ≤ r'.masterOffset

theorem Course.refl (sound : IntakeLog.Sound r.log) : Course r [] r :=
  ⟨sound, (List.append_nil _).symm, rfl, rfl, rfl, rfl, rfl, rfl, Nat.le_refl _⟩

theorem Course.trans (one : Course r messages r') (other : Course r' later r'') :
    Course r (messages ++ later) r'' := by
  have split : newcomers r.offset (arrivals (messages ++ later)) =
      newcomers r.offset (arrivals messages) ++ newcomers r'.offset (arrivals later) := by
    rw [arrivals_append, newcomers_append, one.ends]
  refine ⟨other.sound, ?_, ?_, other.oldest.trans one.oldest, ?_, ?_, ?_, ?_,
    one.masterOffset.trans other.masterOffset⟩
  · rw [other.entries, one.entries, split, List.append_assoc]
  · rw [other.ends, one.ends, split, List.length_append, Nat.add_assoc, one.ends]
  · rw [other.received, one.received, arrivals_append, List.length_append, Nat.add_assoc]
  · rw [other.applied, one.applied, split, List.length_append, Nat.add_assoc]
  · have first := one.duplicates
    have second := other.duplicates
    rw [split, arrivals_append, List.length_append, List.length_append]
    omega
  · rw [other.acks, one.acks, arrivals_append, List.length_append, Nat.add_assoc]

/-- What one message does to a replica, and what comes of it. -/
inductive Reaction (r : Replica L) : Message → Replica L → Except Fault (Option Message) → Prop where
  | skipped {e : Entry} (old : e.offset ≤ r.offset) :
      Reaction r (.entry e)
        { r with tally := { r.tally with
            received := r.tally.received + 1
            duplicates := r.tally.duplicates + 1
            acks := r.tally.acks + 1 } }
        (.ok (some (.ack e.offset)))
  | added {e : Entry} {log : L} (next : e.offset = r.offset + 1)
      (stored : LocalLog.appendEntry r.log e = (log, .ok ())) :
      Reaction r (.entry e)
        { r with
          log
          masterOffset := max r.masterOffset e.offset
          tally := { r.tally with
            received := r.tally.received + 1
            applied := r.tally.applied + 1
            acks := r.tally.acks + 1 } }
        (.ok (some (.ack e.offset)))
  | gap {e : Entry} (early : r.offset + 1 < e.offset) :
      Reaction r (.entry e)
        { r with tally := { r.tally with received := r.tally.received + 1 } }
        (.error (.replication (.streamGap (r.offset + 1) e.offset)))
  | refused {e : Entry} {log : L} {fault : Fault} (next : e.offset = r.offset + 1)
      (failed : LocalLog.appendEntry r.log e = (log, .error fault)) :
      Reaction r (.entry e)
        { r with log, tally := { r.tally with received := r.tally.received + 1 } } (.error fault)
  | caughtUp (offset : Nat) :
      Reaction r (.catchUpComplete offset)
        { r with masterOffset := max r.masterOffset offset, phase := .streaming } (.ok none)
  | failure (code : UInt32) (text : String) :
      Reaction r (.failure code text) r (.error (Refusal.toFault (.failure code text)))
  | asked (timestamp : UInt64) :
      Reaction r (.ping timestamp) r (.ok (some (.pong timestamp)))
  /-- Some messages mean nothing to a replica. -/
  | ignored {message : Message} (stray : message.kind ∈ [.pong, .hello, .welcome, .ack]) :
      Reaction r message r (.ok none)

omit [IntakeLog L] in
/-- There is nothing else that a message can do. -/
theorem reaction_of_receive (r : Replica L) (message : Message) :
    Reaction r message (r.receive message).1 (r.receive message).2 := by
  cases message with
  | entry e =>
    by_cases old : e.offset < r.offset + 1
    · simpa [receive, apply, old, count] using Reaction.skipped (Nat.le_of_lt_succ old)
    by_cases early : r.offset + 1 < e.offset
    · simpa [receive, apply, old, early, count] using Reaction.gap early
    have next : e.offset = r.offset + 1 := by omega
    cases handed : LocalLog.appendEntry r.log e with
    | mk log result =>
      cases result with
      | ok _ => simpa [receive, apply, next, count, handed] using Reaction.added next handed
      | error fault => simpa [receive, apply, next, count, handed] using Reaction.refused next handed
  | catchUpComplete offset => exact .caughtUp offset
  | failure code text => exact .failure code text
  | ping timestamp => exact .asked timestamp
  | pong | hello | welcome | ack => exact .ignored (by simp [Message.kind])

/-- An entry that does not end the session is skipped, if the log has its offset already, or added. -/
inductive Takes (r : Replica L) (e : Entry) (r' : Replica L) : Prop where
  | skips (old : e.offset ≤ r.offset) (same : r'.log = r.log)
  | adds (next : e.offset = r.offset + 1)
      (stored : LocalLog.appendEntry r.log e = (r'.log, .ok ()))
      (more : IntakeLog.entries r'.log = IntakeLog.entries r.log ++ [e])

/-- Why a message ends a session, with the log and the fault that are left. -/
inductive Stops (r : Replica L) : Message → L → Fault → Prop where
  | gap {e : Entry} (early : r.offset + 1 < e.offset) :
      Stops r (.entry e) r.log (.replication (.streamGap (r.offset + 1) e.offset))
  | refused {e : Entry} {log : L} {fault : Fault} (next : e.offset = r.offset + 1)
      (failed : LocalLog.appendEntry r.log e = (log, .error fault)) :
      Stops r (.entry e) log fault
  | failure (code : UInt32) (text : String) :
      Stops r (.failure code text) r.log (Refusal.toFault (.failure code text))

/-- What a message that ends a session leaves. -/
structure Broken (r : Replica L) (message : Message) (r' : Replica L) (fault : Fault) : Prop where
  why : Stops r message r'.log fault
  sound : IntakeLog.Sound r'.log
  entries : IntakeLog.entries r'.log = IntakeLog.entries r.log
  ends : r'.offset = r.offset
  /-- Nothing else is counted than that an entry arrived. -/
  tally : r'.tally = { r.tally with
    received := r.tally.received + (arrivals [message]).length }
  masterOffset : r'.masterOffset = r.masterOffset

/-- A message that is handled gets its answer and goes on with the course. -/
theorem course_of_receive (sound : IntakeLog.Sound r.log) (arrives : message.Arrives)
    {answer : Option Message} (ran : r.receive message = (r', .ok answer)) :
    Course r [message] r' ∧ answer = message.answer? := by
  have reaction := reaction_of_receive r message
  have quiet {r' : Replica L} (log : r'.log = r.log) (tally : r'.tally = r.tally)
      (known : r.masterOffset ≤ r'.masterOffset) (plain : message.entry? = none) :
      Course r [message] r' := by
    have none : arrivals [message] = [] := by simp [arrivals, plain]
    refine ⟨log.symm ▸ sound, ?_, ?_, congrArg LocalLog.oldest log, ?_, ?_, ?_, ?_, known⟩
    all_goals simp [none, newcomers, offset, log, tally]
  rw [ran] at reaction
  generalize ending : (Except.ok answer : Except Fault (Option Message)) = result at reaction
  cases reaction with
  | @skipped e old =>
    cases ending
    have none : newcomers r.offset (arrivals [.entry e]) = [] := if_neg (by omega)
    refine ⟨⟨sound, ?_, ?_, rfl, rfl, ?_, ?_, rfl, Nat.le_refl _⟩, rfl⟩
    · rw [none, List.append_nil]
    all_goals rw [none]; rfl
  | @added e log next stored =>
    cases ending
    have one : newcomers r.offset (arrivals [.entry e]) = [e] := if_pos next
    obtain ⟨-, sound', more⟩ := IntakeLog.stores sound arrives.fits stored
    obtain ⟨ends, oldest⟩ := IntakeLog.highest_of_stored sound arrives.fits stored
    refine ⟨⟨sound', ?_, ?_, oldest, rfl, ?_, ?_, rfl, Nat.le_max_left ..⟩, rfl⟩
    · rw [one]
      exact more
    · rw [one]
      exact ends.trans next
    all_goals rw [one]; rfl
  | gap => cases ending
  | refused => cases ending
  | caughtUp offset => cases ending; exact ⟨quiet rfl rfl (Nat.le_max_left ..) rfl, rfl⟩
  | failure => cases ending
  | asked => cases ending; exact ⟨quiet rfl rfl (Nat.le_refl _) rfl, rfl⟩
  | ignored stray =>
    cases ending
    obtain ⟨plain, silent⟩ := Message.plain_of_stray stray
    exact ⟨quiet rfl rfl (Nat.le_refl _) plain, silent.symm⟩

/-- What becomes of an entry that is handled. -/
theorem takes_of_receive (sound : IntakeLog.Sound r.log) (arrives : (Message.entry e).Arrives)
    {answer : Option Message} (ran : r.receive (.entry e) = (r', .ok answer)) :
    Takes r e r' ∧ e.offset ≤ r'.offset := by
  have reaction := reaction_of_receive r (.entry e)
  rw [ran] at reaction
  generalize ending : (Except.ok answer : Except Fault (Option Message)) = result at reaction
  cases reaction with
  | skipped old => exact ⟨.skips old rfl, old⟩
  | added next stored =>
    obtain ⟨-, -, more⟩ := IntakeLog.stores sound arrives.fits stored
    obtain ⟨ends, -⟩ := IntakeLog.highest_of_stored sound arrives.fits stored
    exact ⟨.adds next stored more, Nat.le_of_eq ends.symm⟩
  | gap => cases ending
  | refused => cases ending
  | ignored stray => simp [Message.kind] at stray

/-- A message that is not handled leaves everything in place. -/
theorem broken_of_receive (sound : IntakeLog.Sound r.log) (arrives : message.Arrives)
    (ran : r.receive message = (r', .error fault)) : Broken r message r' fault := by
  have reaction := reaction_of_receive r message
  rw [ran] at reaction
  generalize ending : (Except.error fault : Except Fault (Option Message)) = result at reaction
  cases reaction with
  | gap early =>
    cases ending
    exact ⟨.gap early, sound, rfl, rfl, rfl, rfl⟩
  | refused next failed =>
    cases ending
    obtain ⟨sound', same, ends⟩ := IntakeLog.fails sound arrives.fits failed
    exact ⟨.refused next failed, sound', same, ends, rfl, rfl⟩
  | failure code text =>
    cases ending
    exact ⟨.failure code text, sound, rfl, rfl, rfl, rfl⟩
  | skipped => cases ending
  | added => cases ending
  | caughtUp => cases ending
  | asked => cases ending
  | ignored => cases ending

/-! ### Many messages -/

omit [IntakeLog L] in
/-- Messages behind handled ones meet the replica that those left. -/
theorem receiveAll_append (ran : r.receiveAll messages = (r', answers, .ok ())) :
    r.receiveAll (messages ++ later) =
      ((r'.receiveAll later).1, answers ++ (r'.receiveAll later).2.1,
        (r'.receiveAll later).2.2) := by
  induction messages generalizing r answers with
  | nil => cases ran; rfl
  | cons message messages ih =>
    simp only [receiveAll, List.cons_append] at ran ⊢
    split at ran
    · cases ran
    · rename_i mid answer received
      cases others : mid.receiveAll messages with
      | mk final rest =>
        obtain ⟨more, ending⟩ := rest
        rw [others] at ran
        cases ran
        simp only [ih others, List.append_assoc]

omit [IntakeLog L] in
/-- If all messages are handled, so are the first ones. -/
theorem receiveAll_front (ran : r.receiveAll (messages ++ later) = (r', answers, .ok ())) :
    ∃ mid front, r.receiveAll messages = (mid, front, .ok ()) := by
  induction messages generalizing r answers with
  | nil => exact ⟨r, [], rfl⟩
  | cons message messages ih =>
    simp only [receiveAll, List.cons_append] at ran ⊢
    split at ran
    · cases ran
    · rename_i mid answer received
      cases others : mid.receiveAll (messages ++ later) with
      | mk final rest =>
        obtain ⟨more, ending⟩ := rest
        rw [others] at ran
        cases ran
        obtain ⟨mid', front, ran'⟩ := ih others
        exact ⟨mid', _, by rw [ran']⟩

omit [IntakeLog L] in
theorem receive_of_last (ran : r.receiveAll (messages ++ [message]) = (r', answers, .ok ())) :
    ∃ mid sent answer, r.receiveAll messages = (mid, sent, .ok ()) ∧
      mid.receive message = (r', .ok answer) := by
  obtain ⟨mid, sent, front⟩ := receiveAll_front ran
  rw [receiveAll_append front] at ran
  cases received : mid.receive message with
  | mk last result =>
    simp only [receiveAll, received] at ran
    cases result with
    | error fault => cases ran
    | ok answer =>
      obtain rfl := congrArg Prod.fst ran
      exact ⟨mid, sent, answer, front, received⟩

omit [IntakeLog L] in
/-- All messages are handled, or those before one that is not. -/
theorem receiveAll_cases (r : Replica L) (messages : List Message) :
    (∃ r' answers, r.receiveAll messages = (r', answers, .ok ())) ∨
    ∃ handled message unread mid answers r' fault, messages = handled ++ message :: unread ∧
      r.receiveAll handled = (mid, answers, .ok ()) ∧
      mid.receive message = (r', .error fault) ∧
      r.receiveAll messages = (r', answers, .error fault) := by
  induction messages generalizing r with
  | nil => exact .inl ⟨r, [], rfl⟩
  | cons message later ih =>
    cases received : r.receive message with
    | mk mid result =>
      cases result with
      | error fault =>
        exact .inr ⟨[], message, later, r, [], mid, fault, rfl, rfl, received, by
          simp [receiveAll, received]⟩
      | ok answer =>
        rcases ih mid with ⟨r', answers, ran⟩ |
          ⟨handled, stopper, unread, last, answers, r', fault, rfl, before, stopped, ran⟩
        · exact .inl ⟨r', answer.toList ++ answers, by simp [receiveAll, received, ran]⟩
        · exact .inr ⟨message :: handled, stopper, unread, last, answer.toList ++ answers, r', fault,
            rfl, by simp [receiveAll, received, before], stopped,
            by simp [receiveAll, received, ran]⟩

/-- Handled messages, one after the other. -/
theorem course_of_receiveAll (sound : IntakeLog.Sound r.log)
    (arrive : ∀ message ∈ messages, message.Arrives)
    (ran : r.receiveAll messages = (r', answers, .ok ())) :
    Course r messages r' ∧ answers = messages.filterMap Message.answer? := by
  induction messages generalizing r answers with
  | nil =>
    cases ran
    exact ⟨.refl sound, rfl⟩
  | cons message messages ih =>
    obtain ⟨first, others⟩ := List.forall_mem_cons.mp arrive
    simp only [receiveAll] at ran
    split at ran
    · cases ran
    · rename_i mid answer received
      obtain ⟨step, rfl⟩ := course_of_receive sound first received
      cases rest : mid.receiveAll messages with
      | mk final result =>
        obtain ⟨more, ending⟩ := result
        rw [rest] at ran
        cases ran
        obtain ⟨run, rfl⟩ := ih step.sound others rest
        refine ⟨step.trans run, ?_⟩
        cases answer : message.answer? <;> simp [answer]

/-- A log grows by the entries that arrive at most. -/
theorem offset_receiveAll_le (sound : IntakeLog.Sound r.log)
    (arrive : ∀ message ∈ messages, message.Arrives) :
    (r.receiveAll messages).1.offset ≤ r.offset + (arrivals messages).length := by
  have grows {r' : Replica L} {handled : List Message} (course : Course r handled r') :
      r'.offset ≤ r.offset + (arrivals handled).length := by
    rw [course.ends]
    exact Nat.add_le_add_left newcomers_sublist.length_le _
  rcases r.receiveAll_cases messages with ⟨r', answers, ran⟩ |
    ⟨handled, message, unread, mid, answers, r', fault, rfl, ran, stopped, all⟩
  · rw [ran]
    exact grows (course_of_receiveAll sound arrive ran).1
  · obtain ⟨arriveHandled, arriveLater⟩ := List.forall_mem_append.mp arrive
    obtain ⟨course, -⟩ := course_of_receiveAll sound arriveHandled ran
    have broken := broken_of_receive course.sound (arriveLater message List.mem_cons_self) stopped
    have before := grows course
    rw [all, broken.ends, arrivals_append, List.length_append]
    omega

end Replica

/-! ### On a connection -/

namespace Channel

variable {L : Type} [LocalLog L] {r r' : Replica L} {c c' : Channel}
variable {messages answers : List Message}

/-- A replica is in a session and has handled all that came. -/
structure Listens (c : Channel) : Prop where
  attempt : c.attempt = .syncing
  whole : c.lost = false
  nothing : c.down = []

theorem drain_of_ended {ending : Except Fault Unit} (ended : c.attempt = .ended ending)
    (count : Nat) : c.drain r count = (r, c) := by
  have stays : c.toReplica r = (r, c) := by
    unfold toReplica
    rw [ended]
  induction count with
  | zero => rfl
  | succ count ih => rw [drain, stays]; exact ih

/-- What the replica sends is on its way up, and the session goes on. -/
theorem Listens.answer (listens : c.Listens) (sent : List Message) :
    c.answer sent = { c with up := c.up ++ sent } ∧ (c.answer sent).Listens := by
  have same : c.answer sent = { c with up := c.up ++ sent } := if_neg (by simp [listens.whole])
  exact ⟨same, same ▸ ⟨listens.attempt, listens.whole, listens.nothing⟩⟩

theorem Listens.send (listens : c.Listens) (sent : List Message) :
    c.send sent = { c with down := sent } := by
  rw [Channel.send, if_neg (by simp [listens.whole]), listens.nothing, List.nil_append]

theorem Listens.answer_nil (listens : c.Listens) : c.answer [] = c := by
  rw [(listens.answer []).1, List.append_nil]

/-- What the replica does with the first message that it hears. -/
theorem hear_cons (listens : c.Listens) (r : Replica L) (message : Message) (later : List Message) :
    c.hear r (message :: later) =
      match r.receive message with
      | (r', .error fault) => (r', c.leave (.error fault))
      | (r', .ok answer) => (c.answer answer.toList).hear r' later := by
  obtain ⟨address, attempt, welcomed, generation, closed, lost, down, up⟩ := c
  obtain ⟨rfl, rfl, rfl⟩ : attempt = .syncing ∧ lost = false ∧ down = [] :=
    ⟨listens.attempt, listens.whole, listens.nothing⟩
  rw [hear, listens.send, List.length_cons, drain]
  cases received : r.receive message with
  | mk r' result =>
    cases result with
    | error fault =>
      simp only [toReplica, received]
      rw [drain_of_ended (show _ = Attempt.ended (.error fault) from rfl)]
      rfl
    | ok answer =>
      simp only [toReplica, received]
      rw [hear, (listens.answer _).2.send, (listens.answer _).1]
      rfl

theorem answer_answer (c : Channel) (sent more : List Message) :
    (c.answer sent).answer more = c.answer (sent ++ more) := by
  unfold Channel.answer
  split
  · rfl
  · exact congrArg (fun up => { c with up }) (List.append_assoc ..)

/-- A replica that hears messages on a connection handles them one after the other. -/
theorem hear_eq_receiveAll (listens : c.Listens) (r : Replica L) (messages : List Message) :
    c.hear r messages = ((r.receiveAll messages).1,
      match (r.receiveAll messages).2.2 with
      | .ok () => c.answer (r.receiveAll messages).2.1
      | .error fault => (c.answer (r.receiveAll messages).2.1).leave (.error fault)) := by
  induction messages generalizing r c with
  | nil =>
    show (r, c.send []) = (r, c.answer [])
    rw [listens.send, listens.answer_nil, ← listens.nothing]
  | cons message later ih =>
    rw [hear_cons listens, Replica.receiveAll]
    cases received : r.receive message with
    | mk r' result =>
      cases result with
      | error fault => exact congrArg (fun c => (r', Channel.leave c _)) listens.answer_nil.symm
      | ok answer =>
        show (c.answer answer.toList).hear r' later = _
        rw [ih (listens.answer _).2, answer_answer]

/-! ### The session -/

section Session

variable [IntakeLog L] {handled unread front : List Message} {stopper : Option Message} {e : Entry}

/-- What comes of an entry that does not end the session: one acknowledgment, which is sent when the log
has all offsets up to it that it retains at all. -/
structure Acknowledged (e : Entry) (r : Replica L) (c : Channel) (r' : Replica L) (c' : Channel) :
    Prop where
  acked : c' = { c with up := c.up ++ [.ack e.offset] }
  takes : Replica.Takes r e r'
  reached : e.offset ≤ r'.offset
  retained : ∀ offset, LocalLog.oldest r'.log ≤ offset → offset ≤ e.offset →
    ∃ x ∈ IntakeLog.entries r'.log, x.offset = offset

/-- How a replica handles messages, at any time so far. -/
structure Handles (r : Replica L) (c : Channel) (handled : List Message) : Prop where
  /-- The log is the old one and what came next, and every message has its answer. -/
  course : ∀ front, front <+: handled → Replica.Course r front (c.hear r front).1 ∧
    (c.hear r front).2 = { c with up := c.up ++ front.filterMap Message.answer? }
  entry : ∀ front e, front ++ [.entry e] <+: handled →
    Acknowledged e (c.hear r front).1 (c.hear r front).2
      (c.hear r (front ++ [.entry e])).1 (c.hear r (front ++ [.entry e])).2
  known : ∀ front more, front ++ more <+: handled →
    (c.hear r front).1.masterOffset ≤ (c.hear r (front ++ more)).1.masterOffset

/-- How a replica hears messages: some are handled, then one ends the session, if any does, and the rest
is not looked at. -/
structure Hears (r : Replica L) (c : Channel) (messages handled : List Message)
    (stopper : Option Message) (unread : List Message) : Prop extends Handles r c handled where
  split : messages = handled ++ stopper.toList ++ unread
  whole : stopper = none → unread = []
  /-- The message that ends the session has no answer. -/
  stops : ∀ message, stopper = some message → ∃ fault,
    Replica.Broken (c.hear r handled).1 message (c.hear r messages).1 fault ∧
      (c.hear r messages).2 = (c.hear r handled).2.leave (.error fault)
  log : IntakeLog.entries (c.hear r messages).1.log =
    IntakeLog.entries r.log ++ newcomers r.offset (arrivals handled)
  /-- Whenever an entry arrives, the offset behind the log fits a word. -/
  words : ∀ front e, front ++ [.entry e] <+: messages →
    (c.hear r front).1.offset + 1 < UInt64.size
  /-- The entries that arrived were added, skipped, or ended the session. -/
  counts : (c.hear r messages).1.tally.received + r.tally.applied + r.tally.duplicates =
    r.tally.received + (c.hear r messages).1.tally.applied +
      (c.hear r messages).1.tally.duplicates + (arrivals stopper.toList).length

/-- What messages leave that are all handled. -/
theorem hear_handled (listens : c.Listens) (sound : IntakeLog.Sound r.log)
    (arrive : ∀ message ∈ messages, message.Arrives)
    (ran : r.receiveAll messages = (r', answers, .ok ())) :
    (c.hear r messages).1 = r' ∧ Replica.Course r messages (c.hear r messages).1 ∧
      (c.hear r messages).2 = { c with up := c.up ++ messages.filterMap Message.answer? } := by
  obtain ⟨course, rfl⟩ := Replica.course_of_receiveAll sound arrive ran
  have heard := hear_eq_receiveAll listens r messages
  rw [ran] at heard
  rw [heard]
  exact ⟨rfl, course, (listens.answer _).1⟩

/-- A handled entry among handled messages. -/
theorem hear_entry (listens : c.Listens) (sound : IntakeLog.Sound r.log)
    (arrive : ∀ message ∈ front ++ [.entry e], message.Arrives)
    (ran : r.receiveAll (front ++ [.entry e]) = (r', answers, .ok ())) :
    Acknowledged e (c.hear r front).1 (c.hear r front).2
      (c.hear r (front ++ [.entry e])).1 (c.hear r (front ++ [.entry e])).2 := by
  obtain ⟨mid, before, answer, first, received⟩ := Replica.receive_of_last ran
  have arrive' : ∀ message ∈ front, message.Arrives := fun message member =>
    arrive message (List.mem_append_left _ member)
  obtain ⟨here, course, sent⟩ := hear_handled listens sound arrive' first
  obtain ⟨there, course', sent'⟩ := hear_handled listens sound arrive ran
  have arrives : (Message.entry e).Arrives :=
    arrive _ (List.mem_append_right _ List.mem_cons_self)
  obtain ⟨takes, reached⟩ := Replica.takes_of_receive (here ▸ course.sound) arrives received
  rw [← here, ← there] at takes
  rw [← there] at reached
  refine ⟨?_, takes, reached, fun offset low high => ?_⟩
  · rw [sent, sent', List.filterMap_append, ← List.append_assoc]
    rfl
  · exact IntakeLog.exists_retained course'.sound low (high.trans reached)

/-- What holds of handled messages holds of the first ones among them. -/
theorem handles_of_receiveAll (listens : c.Listens) (sound : IntakeLog.Sound r.log)
    (arrive : ∀ message ∈ handled, message.Arrives)
    (ran : r.receiveAll handled = (r', answers, .ok ())) : Handles r c handled := by
  have among {front : List Message} (begins : front <+: handled) :
      (∀ message ∈ front, message.Arrives) ∧
        ∃ mid sent, r.receiveAll front = (mid, sent, .ok ()) := by
    obtain ⟨rest, rfl⟩ := begins
    exact ⟨fun message member => arrive message (List.mem_append_left _ member),
      Replica.receiveAll_front ran⟩
  refine ⟨fun front begins => ?_, fun front e begins => ?_, fun front more begins => ?_⟩
  · obtain ⟨arrive', mid, sent, ran'⟩ := among begins
    exact (hear_handled listens sound arrive' ran').2
  · obtain ⟨arrive', mid, sent, ran'⟩ := among begins
    exact hear_entry listens sound arrive' ran'
  · obtain ⟨arrive', last, sent, ran'⟩ := among begins
    obtain ⟨mid, before, first⟩ := Replica.receiveAll_front ran'
    obtain ⟨arriveFront, arriveMore⟩ := List.forall_mem_append.mp arrive'
    obtain ⟨here, course, -⟩ := hear_handled listens sound arriveFront first
    obtain ⟨there, -, -⟩ := hear_handled listens sound arrive' ran'
    rw [Replica.receiveAll_append first] at ran'
    have onwards : mid.receiveAll more = (last, (mid.receiveAll more).2.1, .ok ()) := by
      obtain ⟨last', rest⟩ := Prod.mk.inj ran'
      exact Prod.ext last' (Prod.ext rfl (Prod.mk.inj rest).2)
    rw [here, there]
    exact (Replica.course_of_receiveAll (here ▸ course.sound) arriveMore onwards).1.masterOffset

/-- If there are words for all offsets, there is one for the offset behind the log when an entry
arrives. -/
theorem words_of_room (listens : c.Listens) (sound : IntakeLog.Sound r.log)
    (arrive : ∀ message ∈ messages, message.Arrives)
    (room : r.offset + (arrivals messages).length < UInt64.size) (front : List Message) (e : Entry)
    (begins : front ++ [.entry e] <+: messages) : (c.hear r front).1.offset + 1 < UInt64.size := by
  obtain ⟨rest, rfl⟩ := begins
  have arrive' : ∀ message ∈ front, message.Arrives := fun message member =>
    arrive message (by simp [member])
  have grown := Replica.offset_receiveAll_le sound arrive'
  have one : (arrivals [.entry e]).length = 1 := rfl
  rw [arrivals_append, arrivals_append, List.length_append, List.length_append, one] at room
  rw [hear_eq_receiveAll listens]
  dsimp only
  omega

/-- Messages that are all handled are heard to their end. -/
theorem hears_whole {answers : List Message} (listens : c.Listens) (sound : IntakeLog.Sound r.log)
    (arrive : ∀ message ∈ messages, message.Arrives)
    (room : r.offset + (arrivals messages).length < UInt64.size)
    (ran : r.receiveAll messages = (r', answers, .ok ())) : Hears r c messages messages none [] := by
  have handles := handles_of_receiveAll listens sound arrive ran
  obtain ⟨course, -⟩ := handles.course messages (List.prefix_refl _)
  refine { handles with
    split := ?split, whole := fun _ => rfl, stops := ?stops, log := course.entries,
    words := ?words, counts := ?counts }
  case split => simp
  case stops => exact fun _ none => by cases none
  case words => exact words_of_room listens sound arrive room
  case counts =>
    have received := course.received
    have applied := course.applied
    have duplicates := course.duplicates
    show _ = _ + 0
    omega

/-- A message that cannot be handled is the last one that is heard. -/
theorem hears_until {answers : List Message} {mid : Replica L} {message : Message} {fault : Fault}
    (listens : c.Listens) (sound : IntakeLog.Sound r.log)
    (arrive : ∀ one ∈ handled ++ message :: unread, one.Arrives)
    (room : r.offset + (arrivals (handled ++ message :: unread)).length < UInt64.size)
    (ran : r.receiveAll handled = (mid, answers, .ok ()))
    (stopped : mid.receive message = (r', .error fault))
    (all : r.receiveAll (handled ++ message :: unread) = (r', answers, .error fault)) :
    Hears r c (handled ++ message :: unread) handled (some message) unread := by
  obtain ⟨arriveHandled, arriveLater⟩ := List.forall_mem_append.mp arrive
  have handles := handles_of_receiveAll listens sound arriveHandled ran
  obtain ⟨course, -⟩ := handles.course handled (List.prefix_refl _)
  obtain ⟨here, -, -⟩ := hear_handled listens sound arriveHandled ran
  have broken := Replica.broken_of_receive (here ▸ course.sound)
    (arriveLater message List.mem_cons_self) stopped
  have heard := hear_eq_receiveAll listens r (handled ++ message :: unread)
  have heard' := hear_eq_receiveAll listens r handled
  rw [all] at heard
  rw [ran] at heard'
  refine { handles with
    split := ?split, whole := ?whole, stops := ?stops, log := ?log, words := ?words,
    counts := ?counts }
  case split => simp
  case whole => exact fun none => by cases none
  case stops =>
    intro stopper same
    cases same
    rw [heard, heard']
    exact ⟨fault, broken, rfl⟩
  case log =>
    rw [heard]
    exact broken.entries.trans (here ▸ course.entries)
  case words => exact words_of_room listens sound arrive room
  case counts =>
    rw [heard, broken.tally]
    have received := course.received
    have applied := course.applied
    have duplicates := course.duplicates
    rw [here] at received applied duplicates
    show _ = _ + (arrivals [message]).length
    dsimp only
    omega

/-- Whatever a master sends, the replica hears it so, as long as there are words for the offsets. -/
theorem hears_any_master (listens : c.Listens) (sound : IntakeLog.Sound r.log)
    (arrive : ∀ message ∈ messages, message.Arrives)
    (room : r.offset + (arrivals messages).length < UInt64.size) :
    ∃ handled stopper unread, Hears r c messages handled stopper unread := by
  rcases r.receiveAll_cases messages with ⟨r', answers, ran⟩ |
    ⟨handled, message, unread, mid, answers, r', fault, rfl, ran, stopped, all⟩
  · exact ⟨messages, none, [], hears_whole listens sound arrive room ran⟩
  · exact ⟨handled, some message, unread, hears_until listens sound arrive room ran stopped all⟩

end Session

/-- A session that has just begun. -/
def listening : Channel := { address := Settings.defaultBind, attempt := .syncing }

/-- A replica with an empty log, each entry in a segment of its own. The second write fails when five
bytes of the record have reached the file. -/
def overWorn : Replica WornLog where
  settings := .ofName "replica"
  log := ⟨⟨SegmentLog.narrow, {}, [], none, 0⟩, [.sound, { write := some (5, noSpace) }]⟩

/-- A master that repeats an offset with another payload, asks for a sign of life, sends a message of the
wrong kind, and then goes on. -/
def chatter : List Message :=
  [.entry ⟨1, [97], none⟩, .entry ⟨1, [98], none⟩, .ping 7, .catchUpComplete 1, .ack 9,
    .entry ⟨2, [99], none⟩, .entry ⟨3, [100], none⟩]

/-- The third entry ends the session, and the fourth is not looked at. -/
theorem hears_chatter :
    (∃ handled stopper unread, Hears overWorn listening chatter handled stopper unread) ∧
    (listening.hear overWorn chatter).2.up = [.ack 1, .ack 1, .pong 7] ∧
    IntakeLog.entries (listening.hear overWorn chatter).1.log = [⟨1, [97], none⟩] ∧
    (listening.hear overWorn chatter).1.tally =
      { received := 3, applied := 1, duplicates := 1, acks := 2 } := by
  have opened : SegmentLog.recover SegmentLog.narrow {} =
      .ok ⟨SegmentLog.narrow, {}, [], none, 0⟩ := SegmentLog.recover_empty (by decide) rfl
  refine ⟨hears_any_master ⟨rfl, rfl, rfl⟩ ?_ ?_ (by decide), by decide +kernel, by decide +kernel,
    by decide +kernel⟩
  · exact WornLog.sound_of_recover (SegmentLog.regular_of_files (by simp)) opened _
  · simp only [chatter, List.forall_mem_cons]
    refine ⟨?_, ?_, ?_, ?_, ?_, ?_, ?_, by simp⟩
    all_goals exact Message.arrives_of_fits (by decide) (by decide)

end Channel

end QuorumLog
