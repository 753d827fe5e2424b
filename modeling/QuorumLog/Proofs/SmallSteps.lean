import Mathlib.Logic.Relation
import QuorumLog.Proofs.Tracking

/-! What goes on between reports and writes, in small steps. A session that is past its welcome, a
connection that is given up and a replica that is turned away touch links, sessions and a few counts,
one after the other, in one of seven ways. What each of these keeps, everything keeps that is made of
them. -/

namespace QuorumLog

/-- The same connection of the same replica, which takes entries as before and waits for its welcome
as before. -/
structure Session.Stays (before after : Session) : Prop where
  generation : after.generation = before.generation
  replicaId : after.replicaId = before.replicaId
  fed : after.connection.fed = before.connection.fed
  welcoming : after.isWelcoming = before.isWelcoming

/-- The same link with the same connection, as far as before. -/
structure Link.Stays (before after : Link) : Prop where
  peer : after.peer = before.peer
  generation : after.generation = before.generation
  phase : after.phase = before.phase

namespace Master

variable {L : Type} {m m' : Master L} {generation : Nat} {s : Session}

/-- One small step. -/
inductive Touch (m : Master L) : Master L → Prop
  | link (id : String) {f : Link → Link} (stays : ∀ l : Link, l.Stays (f l)) :
    Touch m (m.onLink id f)
  | session (generation : Nat) {f : Session → Session}
      (stays : ∀ s ∈ m.sessions, s.generation = generation → s.Stays (f s)) :
    Touch m (m.onSession generation f)
  | counted (shipped rejected : Nat) :
    Touch m { m with tally := { m.tally with shipped, rejected } }
  | issued : Touch m { m with generation := m.generation + 1 }
  | closed (id : String) (generation? : Option Nat) : Touch m (m.closeLink id generation?)
  | ended (generation : Nat) (fault : Option Fault) : Touch m (m.endSession generation fault)
  | streams (id : String) : Touch m (m.onLink id Link.beginStreaming).recount

/-- Some small steps. -/
abbrev Touches : Master L → Master L → Prop := Relation.ReflTransGen Touch

/-! ### A session that is past its welcome -/

theorem Touch.listens (touch : Touch m m') (listens : m.Listens generation) :
    m'.Listens generation := by
  cases touch with
  | link id stays => exact listens
  | session other stays =>
    rintro s' held here
    obtain ⟨s, before, rfl⟩ := List.mem_map.mp held
    by_cases touched : s.generation = other
    · rw [if_pos touched] at here ⊢
      rw [(stays s before touched).welcoming]
      exact listens s before ((stays s before touched).generation.symm.trans here)
    · rw [if_neg touched] at here ⊢
      exact listens s before here
  | counted shipped rejected => exact listens
  | issued => exact listens
  | closed id generation? => exact (quiet_closeLink m id generation? : Silent m _).listens listens
  | ended other fault => exact (quiet_endSession m other fault : Silent m _).listens listens
  | streams id => exact listens

theorem touch_enter (listens : m.Listens generation) {stage : Stage}
    (past : ∀ welcome, stage ≠ .welcoming welcome) : Touch m (m.enter generation stage) := by
  refine .session generation fun s held here => ⟨rfl, rfl, rfl, ?_⟩
  rw [listens s held here]
  cases stage with
  | welcoming welcome => exact absurd rfl (past welcome)
  | _ => rfl

theorem touches_countShipped (m : Master L) (id : String) (count : Nat) :
    Touches m (m.countShipped id count) := by
  have sent : Touch m (m.onLink id (Link.recordSent count)) := .link id fun _ => ⟨rfl, rfl, rfl⟩
  exact (Relation.ReflTransGen.single sent).tail (.counted _ m.tally.rejected)

/-- Nothing that follows a slice is a welcome. -/
theorem Slice.after_past (slice : Slice) (welcome : Welcome) :
    slice.after ≠ .welcoming welcome := by
  cases slice <;> simp [Slice.after]

theorem touches_sendNext (m : Master L) (s : Session) (slice : Slice) (e : Entry)
    (rest : List Entry) (count : Nat) (listens : m.Listens s.generation) :
    Touches m (m.sendNext s slice e rest count).1 := by
  unfold sendNext
  split
  · exact .single (.ended _ _)
  rcases write_cases m s.generation (.entry e) with ⟨fault, failed⟩ | wrote
  · rw [failed]
    exact .single (.ended _ _)
  rw [wrote]
  have moved : Touch m (m.onSession s.generation fun s => { s with next := s.next + 1 }) :=
    .session _ fun _ _ _ => ⟨rfl, rfl, rfl, rfl⟩
  have past := moved.listens listens
  dsimp only
  split
  · have sent := (touches_countShipped _ s.replicaId count).head moved
    refine sent.tail (touch_enter ?_ (Slice.after_past slice))
    exact past
  · exact (Relation.ReflTransGen.single moved).tail (touch_enter past (by simp))

theorem touches_takeFresh (m : Master L) (s : Session) (listens : m.Listens s.generation) :
    Touches m (m.takeFresh s).1 := by
  unfold takeFresh
  split
  · rename_i e later queue
    have taken : Touch m (m.onSession s.generation fun s =>
        { s with connection := { s.connection with queue := later } }) :=
      .session _ fun _ _ _ => ⟨rfl, rfl, rfl, rfl⟩
    exact (touches_sendNext _ _ _ _ _ _ (taken.listens listens)).head taken
  · split
    · exact .refl
    · exact .single (.ended _ _)

/-! ### Reading the log -/

variable [LocalLog L]

theorem touches_readPage (m : Master L) (s : Session) (listens : m.Listens s.generation) :
    Touches m (m.readPage s) := by
  unfold readPage
  split
  · exact .single (.ended _ _)
  · exact .single (touch_enter listens (by simp))
  · exact .single (touch_enter listens (by simp))

theorem touches_finishCatchUp (m : Master L) (s : Session) (listens : m.Listens s.generation) :
    Touches m (m.finishCatchUp s) := by
  unfold finishCatchUp
  split
  · exact .refl
  split
  · exact .single (.ended _ _)
  rename_i tail _
  split
  · exact .single (.ended _ _)
  split
  · have streams : Touch m (m.onLink s.replicaId Link.beginStreaming).recount := .streams _
    refine (Relation.ReflTransGen.single streams).tail (touch_enter (streams.listens listens) ?_)
    intro welcome
    unfold sendingStage
    split
    · exact Slice.after_past .tail welcome
    · simp
  · exact .single (.ended _ _)

/-- A step of a session that is past its welcome. -/
theorem touches_advance (m : Master L) (listens : m.Listens generation) :
    Touches m (m.advance generation).1 := by
  unfold advance
  split
  · exact .refl
  rename_i s found
  obtain ⟨held, rfl⟩ := session_of_find found
  split
  · rename_i welcome stage
    exact absurd (listens s held rfl) (by simp [Session.isWelcoming, stage])
  · exact touches_readPage m s listens
  · exact touches_sendNext m s _ _ _ _ listens
  · exact .single (touch_enter listens (Slice.after_past _))
  · exact touches_finishCatchUp m s listens
  · exact .single (touch_enter listens (by simp))
  · exact touches_takeFresh m s listens
  · exact .refl

/-- What a session hears, unless it is a report. -/
theorem touches_receive (m : Master L) (generation : Nat) (message : Message) :
    (∃ s offset, m.session? generation = some s ∧ s.isListening ∧ message = .ack offset ∧
      m.receive generation message = m.acknowledge s.replicaId offset) ∨
    Touches m (m.receive generation message) := by
  unfold receive
  split
  · exact .inr .refl
  rename_i s found
  split
  · rename_i listening
    split
    · exact .inl ⟨s, _, found, listening, rfl, rfl⟩
    · exact .inr (.single (.link _ fun _ => ⟨rfl, rfl, rfl⟩))
    · exact .inr (.single (.ended _ _))
    · exact .inr .refl
  · exact .inr .refl

/-! ### Handshakes -/

omit [LocalLog L] in
theorem touches_countRejection (m : Master L) (rejection : Rejection) :
    Touches m (m.countRejection rejection) := by
  unfold countRejection
  split
  · exact .single (.counted m.tally.shipped _)
  · exact .refl

/-- The master with a link and a session for a replica that finds a place. -/
def seatOf (m : Master L) (peer : Peer) (h : Hello) : Master L :=
  ({ m with generation := m.generation + 1 }.register peer h.lastOffset).openSession h

/-- A replica gets its link and its session while there is a place. Otherwise a generation is used
up. -/
theorem seat_outcome (m : Master L) (peer : Peer) (h : Hello) :
    (m.seat peer h).1 = { m with generation := m.generation + 1 } ∨
      m.others peer.id < m.settings.maxReplicas.toNat ∧ (m.seat peer h).1 = m.seatOf peer h := by
  unfold seat
  dsimp only
  split
  · exact .inl rfl
  · rename_i place
    refine .inr ⟨Nat.lt_of_not_le place, ?_⟩
    split <;> rfl

/-- A first message is turned away, or it gives a replica its place. -/
theorem touches_greet (m : Master L) (address : SocketAddress) (first : Except Fault Message) :
    Touches m (m.greet address first).1 ∨
    ∃ peer h, h.replicaId = peer.id ∧ m.others peer.id < m.settings.maxReplicas.toNat ∧
      Touches (m.seatOf peer h) (m.greet address first).1 := by
  unfold greet
  split
  · exact .inl (touches_countRejection m _)
  rename_i peer h hello
  split
  · exact .inl (touches_countRejection m _)
  have named := (checkHello_of_ok hello).2.symm
  have outcome := seat_outcome m peer h
  cases seat : m.seat peer h with
  | mk after result =>
    rw [seat] at outcome
    dsimp only at outcome
    -- After the place is refused or given, at most the rejection is left to count.
    cases result with
    | error rejection =>
      rcases outcome with rfl | ⟨place, rfl⟩
      · exact .inl ((touches_countRejection _ rejection).head .issued)
      · exact .inr ⟨peer, h, named, place, touches_countRejection _ rejection⟩
    | ok report =>
      rcases outcome with rfl | ⟨place, rfl⟩
      · exact .inl (.single .issued)
      · exact .inr ⟨peer, h, named, place, .refl⟩

end Master

end QuorumLog
