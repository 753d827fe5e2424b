import QuorumLog.Proofs.FrameCodec
import QuorumLog.Proofs.ShippingRuns

/-! Which entries can be shipped. A log takes entries of any size, and a frame holds only so much. An
entry that fits into a frame reaches the other side as it is, and no session fails because of it. One
that does not fails every session that comes to it, and no connection that has it still to carry ever
carries anything behind it. -/

namespace QuorumLog

/-- Whether an entry fits into a frame: the tag of the message, the offset, the payload behind its
length, and the byte that announces metadata, with the metadata behind its length. -/
def Entry.Portable (e : Entry) : Prop :=
  4 + 8 + (8 + e.payload.length) + (1 + e.metadata.elim 0 fun bytes => 8 + bytes.length) ≤
    Frame.maxPayload

instance : DecidablePred Entry.Portable := fun _ => inferInstanceAs (Decidable (_ ≤ _))

theorem Entry.portable_iff (e : Entry) :
    e.Portable ↔ (Message.entry e).payloadSize ≤ Frame.maxPayload := by
  have same : (Message.entry e).payloadSize = 4 + 8 + (8 + e.payload.length) +
      (1 + e.metadata.elim 0 fun bytes => 8 + bytes.length) := by
    cases carried : e.metadata <;> simp only [Message.payloadSize, carried, Option.elim] <;> omega
  rw [same, Portable]

/-- A payload that fills a frame leaves no room for the rest of the message. -/
theorem Entry.not_portable_of_long {e : Entry} (long : Frame.maxPayload ≤ e.payload.length) :
    ¬e.Portable := by
  unfold Portable
  omega

theorem Entry.not_portable {e : Entry} (large : ¬e.Portable) :
    Frame.maxPayload < (Message.entry e).payloadSize :=
  Nat.lt_of_not_le (mt e.portable_iff.mpr large)

namespace Master

variable {L : Type} [LocalLog L] {m : Master L} {generation : Nat} {id : String} {s : Session}
variable {e x : Entry} {payload : Bytes} {metadata : Option Bytes} {write : Nat}

/-! ### Only portable entries are written -/

omit [LocalLog L] in
/-- A message is written as it is, and only if it is not too large. -/
theorem write_of_ok {message : Message} {written : Option Message}
    (ran : m.write generation message = .ok written) :
    message.payloadSize ≤ Frame.maxPayload ∧ written = some message := by
  unfold Master.write at ran
  split at ran
  · cases ran
  · rename_i small
    cases ran
    exact ⟨Nat.le_of_not_lt small, rfl⟩

omit [LocalLog L] in
/-- Nothing but the next entry is written in its place, and it fits. -/
theorem sendNext_writes {slice : Slice} {rest : List Entry} {count : Nat} {message : Message}
    (wrote : (m.sendNext s slice e rest count).2 = some message) :
    message = .entry e ∧ e.Portable := by
  unfold sendNext at wrote
  split at wrote
  · cases wrote
  split at wrote
  · cases wrote
  rename_i ran
  obtain ⟨small, rfl⟩ := write_of_ok ran
  have same : message = .entry e := by
    split at wrote <;> cases wrote <;> rfl
  exact ⟨same, e.portable_iff.mpr small⟩

/-- Whatever the stage of a session, an entry that it writes is portable. -/
theorem advance_portable (wrote : (m.advance generation).2 = some (.entry x)) : x.Portable := by
  unfold advance at wrote
  split at wrote
  · cases wrote
  rename_i s _
  split at wrote
  · split at wrote
    · cases wrote
    · rename_i ran
      cases (write_of_ok ran).2
      cases wrote
  · cases wrote
  · obtain ⟨same, portable⟩ := sendNext_writes wrote
    cases same
    exact portable
  · cases wrote
  · cases wrote
  · cases wrote
  · unfold takeFresh at wrote
    split at wrote
    · obtain ⟨same, portable⟩ := sendNext_writes wrote
      cases same
      exact portable
    · split at wrote <;> cases wrote
  · cases wrote

theorem frames_portable (moves : List Move) (carried : x ∈ m.frames generation moves) :
    x.Portable := by
  induction moves generalizing m with
  | nil => cases carried
  | cons a later ih =>
    rcases List.mem_append.mp carried with now | after
    · have wrote : m.frame? generation a = some x := Option.mem_toList.mp now
      cases a with
      | advance other =>
        by_cases own : other = generation
        · rw [frame?, if_pos own] at wrote
          obtain ⟨message, sent, entry⟩ := Option.bind_eq_some_iff.mp wrote
          cases message <;> cases entry
          exact advance_portable sent
        · rw [frame?, if_neg own] at wrote
          cases wrote
      | _ => cases wrote
    · exact ih after

/-! ### A session that comes to an entry -/

/-- An entry that is due and portable is written, and the session goes on behind it. -/
theorem advance_carries (numbered : m.Numbered) (belongs : m.Belongs generation id)
    (found : m.session? generation = some s) (upcoming : s.upcoming? = some e)
    (due : e.offset = s.next) (portable : e.Portable) :
    (m.advance generation).2 = some (.entry e) ∧
      ∃ s', (m.advance generation).1.session? generation = some s' ∧ s'.next = s.next + 1 ∧
        s'.isOver = false := by
  obtain ⟨ready, s', slice, rest, count, -, -, found', next, same⟩ :=
    advance_upcoming numbered belongs found upcoming
  obtain ⟨-, rfl⟩ := session_of_find found
  have small : ¬Frame.maxPayload < (Message.entry e).payloadSize :=
    Nat.not_lt.mpr (e.portable_iff.mp portable)
  have moved := find_onSession found' (f := fun s => { s with next := s.next + 1 }) fun _ => rfl
  rw [same, sendNext, if_neg (not_not.mpr due), Master.write, if_neg small]
  dsimp only
  split
  · have counted : ((ready.onSession s.generation fun s => { s with next := s.next + 1 }).countShipped
        s.replicaId count).session? s.generation = _ := moved
    refine ⟨rfl, _, find_onSession counted fun _ => rfl, by rw [← next], ?_⟩
    cases slice <;> rfl
  · exact ⟨rfl, _, find_onSession moved fun _ => rfl, by rw [← next], rfl⟩

/-- An entry that is due and too large for a frame is not written, and the connection fails. -/
theorem advance_oversized (numbered : m.Numbered) (belongs : m.Belongs generation id)
    (found : m.session? generation = some s) (upcoming : s.upcoming? = some e)
    (due : e.offset = s.next) (large : ¬e.Portable) :
    (m.advance generation).2 = none ∧
      Fails generation (.protocol (.tooLarge (Message.entry e).payload.length))
        (m.advance generation).1 := by
  obtain ⟨ready, s', slice, rest, count, numbered', belongs', found', -, same⟩ :=
    advance_upcoming numbered belongs found upcoming
  obtain ⟨-, rfl⟩ := session_of_find found
  rw [same, sendNext, if_neg (not_not.mpr due), Master.write, if_pos (Entry.not_portable large),
    Message.length_payload]
  exact ⟨rfl, fails_endSession numbered' belongs' found' _⟩

/-! ### Stored writes -/

/-- A write that did not fail is one that the log took, at its next offset. -/
theorem taken_of_append [NumberedLog L] (took : (m.append payload metadata).2 = some write)
    (kept : ∀ reason, (m.append payload metadata).1.quorum.board.state write ≠ .failed reason) :
    m.taken? (.append payload metadata) = some ⟨m.offset + 1, payload, metadata⟩ := by
  rcases append_cases m payload metadata with ⟨-, same⟩ | ⟨number, refused, same⟩ |
    ⟨stored, idle, -⟩
  · rw [same] at took
    cases took
  · rw [same] at took kept
    rcases store_cases m payload metadata with ⟨-, same⟩ | ⟨reason, log, -, number, quiet⟩ |
      ⟨log, offset, -, -, same⟩
    · rw [same] at took
      cases took
    · rw [number] at took
      cases took
      refine absurd ?_ (kept reason)
      rw [quiet.quorum]
      simp [Quorum.refuse, Board.state, Board.cells_push, Board.size, Cell.closed]
    · rw [same] at took
      cases took
  · have running : ¬m.stopped := by
      intro stopped
      simp [store, stopped, refuse] at stored
    rcases store_cases m payload metadata with ⟨busy, -⟩ | ⟨reason, log, -, number, -⟩ |
      ⟨log, offset, -, ran, -⟩
    · simp [idle] at busy
    · rw [stored] at number
      cases number
    · obtain ⟨next, -⟩ := NumberedLog.append_takes_next ran
      rw [taken?, if_neg (by simp [running, idle]), ran, next]
      rfl

end Master

namespace Passage

variable {L : Type} [LocalLog L] [LawfulLog L] {m : Master L} {before : List Move} {a : Move}
variable {e x : Entry}

/-- Everything that happened to the master. -/
def moves (p : Passage L) : List Move :=
  p.before ++ .greet p.address (.ok (.hello p.hello)) :: p.later

/-- The connection is one of a master to which a move happened, behind some others. -/
def Follows (p : Passage L) (m : Master L) (before : List Move) (a : Move) : Prop :=
  p.master = m ∧ ∃ later, p.moves = before ++ a :: later

/-- A connection is for each entry behind its offset that the log took. -/
theorem mem_due {p : Passage L} (follows : p.Follows m before a)
    (took : (m.play before).taken? a = some e) (behind : p.resume < e.offset) : e ∈ p.due := by
  obtain ⟨rfl, later, moves⟩ := follows
  refine List.mem_filter.mpr ⟨List.mem_append_right _ ?_, decide_eq_true behind⟩
  show e ∈ p.master.taken p.moves
  rw [moves, Master.taken_append, Master.taken, took]
  exact List.mem_append_right _ List.mem_cons_self

variable [PurgeableLog L]

/-- A connection has carried every entry it is for up to the last one that it carried. -/
theorem mem_frames {p : Passage L} (due : e ∈ p.due) (carried : x ∈ p.frames)
    (upTo : e.offset ≤ x.offset) : e ∈ p.frames := by
  have ascending : (p.due.map Entry.offset).Pairwise (· < ·) := by
    rw [show p.due.map Entry.offset = _ from p.conveys.due_offsets]
    exact List.pairwise_lt_range' _
  obtain ⟨rest, split⟩ := p.conveys.begins
  have whole : p.frames ++ rest = p.due := split
  rw [← whole] at due
  rcases List.mem_append.mp due with sent | waits
  · exact sent
  · rw [← whole, List.pairwise_map, List.pairwise_append] at ascending
    have earlier := ascending.2.2 x carried e waits
    omega

/-- Nothing behind an entry that is too large is carried by a connection that is for it. -/
theorem blocked {p : Passage L} (due : e ∈ p.due) (large : ¬e.Portable) (carried : x ∈ p.frames) :
    x.offset < e.offset := by
  by_contra beyond
  have sent := mem_frames due carried (Nat.le_of_not_lt beyond)
  exact large (Master.frames_portable p.later sent)

end Passage

namespace Master

variable {L : Type} [LocalLog L] [LawfulLog L] [PurgeableLog L] {m : Master L} {payload : Bytes}
variable {metadata : Option Bytes} {write : Nat}

/-- What becomes of an entry that a master stores after some moves. The connections are all that the
master ever accepts, before the entry is stored or after that, at any later moment. -/
structure Shipment (m : Master L) (before : List Move) (e : Entry) : Prop where
  /-- The log takes the entry, whatever its size. -/
  stored : (m.play before).taken? (.append e.payload e.metadata) = some e
  framed : (∃ frame, Frame.encode (.entry e) = .ok frame) ↔ e.Portable
  /-- Whoever reads the frame from a stream has the entry and is right behind it. -/
  arrives : e.offset < UInt64.size → ∀ frame rest, Frame.encode (.entry e) = .ok frame →
    Frame.next (frame ++ rest) = (.ok (.entry e), rest)
  /-- A session that comes to a portable entry writes it and goes on. -/
  carried : e.Portable → ∀ (p : Passage L) (s : Session),
    p.Follows m before (.append e.payload e.metadata) → p.now.session? p.generation = some s →
    s.upcoming? = some e → e.offset = s.next →
      (p.now.advance p.generation).2 = some (.entry e) ∧
      ∃ s', (p.now.advance p.generation).1.session? p.generation = some s' ∧
        s'.next = e.offset + 1 ∧ s'.isOver = false
  /-- A session that comes to any other entry fails. -/
  fails : ¬e.Portable → ∀ (p : Passage L) (s : Session),
    p.Follows m before (.append e.payload e.metadata) → p.now.session? p.generation = some s →
    s.upcoming? = some e → e.offset = s.next →
      (p.now.advance p.generation).2 = none ∧
      (p.now.advance p.generation).1.Fails p.generation
        (.protocol (.tooLarge (Message.entry e).payload.length))
  /-- And no connection that is for the entry comes past it. -/
  blocked : ¬e.Portable → ∀ p : Passage L,
    p.Follows m before (.append e.payload e.metadata) → p.resume < e.offset →
      ∀ x ∈ p.frames, x.offset < e.offset

/-- A write that did not fail is stored, and it can be shipped exactly if it is not too large for a
frame. -/
theorem shipment_of_stored (before : List Move)
    (took : ((m.play before).append payload metadata).2 = some write)
    (kept : ∀ reason,
      ((m.play before).append payload metadata).1.quorum.board.state write ≠ .failed reason) :
    m.Shipment before ⟨(m.play before).offset + 1, payload, metadata⟩ := by
  have stored := taken_of_append took kept
  constructor
  case stored => exact stored
  case framed => rw [Frame.encode_ok_iff, Entry.portable_iff]
  case arrives =>
    intro fits frame rest encoded
    exact Frame.next_encode (show Message.Fits (.entry _) from fits) encoded rest
  case carried =>
    intro portable p s follows found upcoming due
    rw [due]
    exact advance_carries p.conveys.names p.conveys.belongs found upcoming due portable
  case fails =>
    intro large p s follows found upcoming due
    exact advance_oversized p.conveys.names p.conveys.belongs found upcoming due large
  case blocked =>
    intro large p follows behind x carried
    exact Passage.blocked (Passage.mem_due follows stored behind) large carried

/-- A replica that has the first of three small entries, and a session that has read the second. -/
def halfway : Passage VolatileLog := .paged [.advance 1, .advance 1]

/-- The second entry has a frame, and the session writes it. -/
theorem shipment_of_second :
    (∃ frame, Frame.encode (.entry ⟨2, [98], none⟩) = .ok frame) ∧
      (halfway.now.advance halfway.generation).2 = some (.entry ⟨2, [98], none⟩) := by
  have took : ((halfway.master.play [.append [97] none]).append [98] none).2 = some 1 := by
    decide +kernel
  have pending : ((halfway.master.play [.append [97] none]).append [98] none).1.quorum.board.state 1 =
      .pending := by decide +kernel
  have second : (halfway.master.play [.append [97] none]).offset + 1 = 2 := by decide +kernel
  have shipment := shipment_of_stored [.append [97] none] took (by simp [pending])
  rw [second] at shipment
  have portable : Entry.Portable ⟨2, [98], none⟩ := by
    unfold Entry.Portable
    decide +kernel
  have follows : halfway.Follows halfway.master [.append [97] none] (.append [98] none) :=
    ⟨rfl, _, rfl⟩
  obtain ⟨s, found⟩ := halfway.session
  have upcoming : (halfway.now.session? halfway.generation).bind Session.upcoming? =
      some ⟨2, [98], none⟩ := by decide +kernel
  have due : (halfway.now.session? halfway.generation).map Session.next = some 2 := by
    decide +kernel
  rw [found, Option.bind_some] at upcoming
  rw [found, Option.map_some, Option.some.injEq] at due
  have carried := shipment.carried portable halfway s follows found upcoming due.symm
  exact ⟨shipment.framed.mpr portable, carried.1⟩

/-- A payload of the size of a frame. -/
def filling : Bytes := List.replicate Frame.maxPayload 0

/-- The first write is stored and waits for copies, whatever it is. -/
theorem first_write (payload : Bytes) : ((small 2).append payload none).2 = some 0 ∧
    ((small 2).append payload none).1.quorum.board.state 0 = .pending ∧
    ((small 2).append payload none).1.log.entries = [⟨1, payload, none⟩] := ⟨rfl, rfl, rfl⟩

/-- A write that has no frame is stored too, and waits like any other. -/
theorem stored_without_frame :
    ((small 2).append filling none).2 = some 0 ∧
    ((small 2).append filling none).1.quorum.board.state 0 = .pending ∧
    ((small 2).append filling none).1.log.entries = [⟨1, filling, none⟩] ∧
    ¬∃ frame, Frame.encode (.entry ⟨1, filling, none⟩) = .ok frame := by
  obtain ⟨took, waits, holds⟩ := first_write filling
  refine ⟨took, waits, holds, ?_⟩
  have long : Frame.maxPayload ≤ filling.length := by rw [filling, List.length_replicate]
  rw [Frame.encode_ok_iff, ← Entry.portable_iff]
  exact Entry.not_portable_of_long long

end Master

end QuorumLog
