import QuorumLog.Proofs.LogContract
import QuorumLog.Proofs.MasterSteps

/-! Runs of a master in which a handshake is one step. A write may be one step, or it is stored and
announced in two with anything between them. What an action can do is one of five turns: nothing that
counts, a replica reports, an entry is stored, announced, or both. -/

namespace QuorumLog.Master

variable {L : Type} [LocalLog L]

/-! ### Actions -/

/-- The whole handshake: a replica that is accepted is welcomed at once, or the welcome does not reach
it and its session ends. Says whether the replica was accepted and welcomed. -/
def accept (m : Master L) (address : SocketAddress) (first : Except Fault Message)
    (reached : Bool) : Master L × Bool :=
  match m.greet address first with
  | (m, .error _) => (m, false)
  | (m, .ok _) =>
    if reached then
      let (m, message) := m.advance m.generation
      (m, message.isSome)
    else (m.endSession m.generation none, false)

/-- One thing that a master does. -/
inductive Action (L : Type) where
  /-- It takes a write. -/
  | append (payload : Bytes) (metadata : Option Bytes)
  /-- It stores a write and does not announce it yet. -/
  | store (payload : Bytes) (metadata : Option Bytes)
  /-- It announces the write that it stored. -/
  | announce
  /-- It goes through a handshake, and the welcome reaches the replica or does not. -/
  | accept (address : SocketAddress) (first : Except Fault Message) (reached : Bool)
  /-- It takes a step on a session. -/
  | advance (generation : Nat)
  /-- A session hears a message. -/
  | receive (generation : Nat) (message : Message)
  /-- A replica reports what it holds. -/
  | acknowledge (id : String) (offset : Nat)
  /-- The connection of a replica is given up. -/
  | disconnect (id : String)
  /-- A session ends. -/
  | endSession (generation : Nat) (fault : Option Fault)
  /-- It starts to take replicas. -/
  | start (bind : Except Nat SocketAddress)
  /-- It stops. -/
  | stop
  /-- Its log becomes another one with the same end: old entries go, or calls begin to fail. -/
  | disturb (log : L)

/-- Whether an action is a part of a write. -/
def Action.isPart : Action L → Bool
  | .store .. | .announce => true
  | _ => false

/-- The master after an action. -/
def act (m : Master L) : Action L → Master L
  | .append payload metadata => (m.append payload metadata).1
  | .store payload metadata => (m.store payload metadata).1
  | .announce => m.announce.1
  | .accept address first reached => (m.accept address first reached).1
  | .advance generation => (m.advance generation).1
  | .receive generation message => m.receive generation message
  | .acknowledge id offset => m.acknowledge id offset
  | .disconnect id => m.closeLink id none
  | .endSession generation fault => m.endSession generation fault
  | .start bind => (m.start bind).1
  | .stop => m.stop
  | .disturb log => if LocalLog.highest log = m.offset then { m with log } else m

/-- The master after some actions. -/
def run (m : Master L) (actions : List (Action L)) : Master L := actions.foldl act m

/-! ### What a run leaves behind -/

/-- The report of a replica, if it counts: the offset is within the log, and the link of the replica
has a connection. -/
def heard? (m : Master L) (id : String) (offset : Nat) : Option (String × Nat) :=
  if offset ≤ m.offset ∧ (m.link? id).any Link.isConnected then some (id, offset) else none

/-- What a replica reports in an action: what it holds when it is accepted, or an acknowledgment. -/
def report? (m : Master L) : Action L → Option (String × Nat)
  | .accept address (.ok (.hello h)) reached =>
    if (m.accept address (.ok (.hello h)) reached).2 then some (h.replicaId, h.lastOffset)
    else none
  | .receive generation (.ack offset) =>
    match m.session? generation with
    | some s => if s.isListening then m.heard? s.replicaId offset else none
    | none => none
  | .acknowledge id offset => m.heard? id offset
  | _ => none

/-- The write that an action brings into the log: its number and its entry. -/
def written? (m : Master L) : Action L → Option (Nat × Entry)
  | .append payload metadata =>
    match m.append payload metadata with
    | (after, some write) =>
      ((after.quorum.board.cells[write]?).bind Cell.offset).map fun offset =>
        (write, ⟨offset, payload, metadata⟩)
    | (_, none) => none
  | .announce =>
    match m.unannounced, m.announce.2 with
    | some e, some write => some (write, e)
    | _, _ => none
  | _ => none

/-- The connections, by name and generation, on which an entry was reported already. -/
def overtaking (m : Master L) (e : Entry) : List (String × Nat) :=
  (m.links.filter fun l => l.isConnected ∧ e.offset ≤ l.lastAck).map fun l =>
    (l.peer.id, l.generation)

/-- The write that an action announces, with each connection on which its entry was reported before
that. -/
def overtaken (m : Master L) : Action L → List (Nat × String × Nat)
  | .announce =>
    match m.unannounced with
    | some e => (m.overtaking e).map fun connection => (m.quorum.board.size, connection)
    | none => []
  | _ => []

/-- Everything that replicas reported in a run. -/
def reports (m : Master L) : List (Action L) → List (String × Nat)
  | [] => []
  | a :: later => (m.report? a).toList ++ (m.act a).reports later

/-- Every write that a run brought into the log: its number and its entry. -/
def written (m : Master L) : List (Action L) → List (Nat × Entry)
  | [] => []
  | a :: later => (m.written? a).toList ++ (m.act a).written later

/-- The writes of a run that were announced after they had been reported, with the connections on
which that happened. -/
def races (m : Master L) : List (Action L) → List (Nat × String × Nat)
  | [] => []
  | a :: later => m.overtaken a ++ (m.act a).races later

/-! ### The whole handshake -/

variable {m m' : Master L}

section Ending

omit [LocalLog L]

/-- When a session has ended, the connection of its link is given up. -/
theorem endSession_disconnects (m : Master L) (numbered : m.Numbered) {generation : Nat}
    (fault : Option Fault) {s : Session} (found : m.session? generation = some s) :
    ∀ l ∈ (m.endSession generation fault).links, l.peer.id = s.replicaId →
      l.generation = generation → l.isConnected = false := by
  simp only [endSession, found, closeLink]
  intro l member here newest
  split at member
  · rename_i missing
    simpa [here] using List.find?_eq_none.mp missing l member
  rename_i l₀ present
  obtain ⟨held, name⟩ := link_of_find present
  split at member
  · obtain ⟨l₁, -, rfl⟩ := List.mem_map.mp member
    split
    · rfl
    · rename_i other
      simp only [other, if_false] at here
  · rename_i kept
    have same : l = l₀ := numbered.link_unique member held (here.trans name.symm)
    subst same
    cases connected : l.isConnected with
    | false => rfl
    | true => exact absurd ⟨connected, by simp [newest]⟩ kept

/-- A session that has ended does not welcome anyone. -/
theorem endSession_listens (m : Master L) {generation : Nat} (fault : Option Fault) {s : Session}
    (found : m.session? generation = some s) :
    (m.endSession generation fault).Listens generation := by
  simp only [endSession, found]
  refine (quiet_closeLink _ _ _ : Silent _ _).listens ?_
  intro t member here
  obtain ⟨t₀, -, rfl⟩ := List.mem_map.mp member
  split
  · rfl
  · rename_i other
    simp only [other, if_false] at here

/-- A session that welcomed its replica is past the welcome. -/
theorem welcomed_listens (m : Master L) (s : Session) : (m.welcomed s).Listens s.generation := by
  intro t member here
  obtain ⟨t₀, -, rfl⟩ := List.mem_map.mp member
  split
  · rfl
  · rename_i other
    simp only [other, if_false] at here

/-- No session is about to welcome its replica, as it is between whole handshakes. -/
def Calm (m : Master L) : Prop := ∀ generation, m.Listens generation

/-- What a handshake does that gives a replica its place: the link of the replica has a new generation
and the offset that the replica holds, which is credited if the welcome reached it. If it did not,
the connection is gone again. -/
structure Accepted (reached : Bool) (id : String) (held : Nat) (before after : Master L) : Prop where
  settings : after.settings = before.settings
  log : after.log = before.log
  quorum : after.quorum =
    if reached then (before.quorum.rebase (.replica id) held).1 else before.quorum
  unannounced : after.unannounced = before.unannounced
  numbered : after.Numbered
  calm : before.Calm → after.Calm
  generation : before.generation < after.generation
  links : ∀ l' ∈ after.links,
    (l'.peer.id = id ∧ before.generation < l'.generation ∧ l'.lastAck = held ∧
      (l'.isConnected → reached)) ∨ (l'.peer.id ≠ id ∧ ∃ l ∈ before.links, l.Continues l')

/-- After a seat, everything quiet leaves the place of the replica as it is or gives it up. -/
private theorem accepted_of_seated {reached : Bool} {id : String} {held : Nat} {mid : Master L}
    (numbered : m.Numbered) (seated : Seated id held m mid) {q : Quorum}
    (quiet : Silent { mid with quorum := q } m')
    (credited : q = if reached then (m.quorum.rebase (.replica id) held).1 else m.quorum)
    (listens : m'.Listens mid.generation)
    (dropped : reached = false → ∀ l ∈ m'.links, l.peer.id = id → l.generation = mid.generation →
      l.isConnected = false) : Accepted reached id held m m' where
  settings := quiet.settings.trans seated.settings
  log := quiet.log.trans seated.log
  quorum := quiet.quorum.trans credited
  unannounced := quiet.unannounced.trans seated.unannounced
  numbered := by
    have placed := numbered.seated seated
    exact Numbered.kept (m := { mid with quorum := q })
      ⟨placed.ids, placed.generations, placed.links, placed.sessions⟩ quiet.toKept
  calm calm generation s' member here := by
    obtain ⟨s, before, continues⟩ := quiet.sessions s' member
    rcases seated.sessions s before with ⟨-, newest, -⟩ | ⟨s₀, before₀, continues₀⟩
    · exact listens s' member (continues.generation.trans newest)
    · have past := calm s₀.generation s₀ before₀ rfl
      cases welcoming : s'.isWelcoming with
      | false => rfl
      | true =>
        rw [((continues₀.trans continues).welcoming welcoming).1] at past
        cases past
  generation := Nat.lt_of_lt_of_le (by rw [seated.generation]; omega) quiet.generation
  links l' member := by
    obtain ⟨l, before, continues⟩ := quiet.links l' member
    rcases seated.links l before with ⟨name, newest, resume, -⟩ | ⟨other, l₀, before₀, continues₀⟩
    · refine .inl ⟨continues.id.trans name, ?_, continues.lastAck.trans resume, fun connected => ?_⟩
      · rw [continues.generation, newest, seated.generation]
        omega
      · cases reached with
        | true => rfl
        | false =>
          have gone := dropped rfl l' member (continues.id.trans name)
            (continues.generation.trans newest)
          rw [gone] at connected
          cases connected
    · exact .inr ⟨continues.id ▸ other, l₀, before₀, continues₀.trans continues⟩

end Ending

/-- A handshake turns the replica away and is quiet, or it gives the replica its place. -/
theorem accept_cases (m : Master L) (numbered : m.Numbered) (address : SocketAddress)
    (first : Except Fault Message) (reached : Bool) :
    ((m.accept address first reached).2 = false ∧
      Silent m (m.accept address first reached).1) ∨
    ∃ h welcomed, first = .ok (.hello h) ∧ (m.accept address first reached).2 = welcomed ∧
      h.lastOffset ≤ m.offset ∧
      Accepted welcomed h.replicaId h.lastOffset m (m.accept address first reached).1 := by
  cases greeted : m.greet address first with
  | mk mid result =>
    rcases greet_cases m address first with ⟨rejection, rejected, quiet⟩ | ⟨h, report, said, taken,
      within, seated⟩
    · rw [greeted] at rejected quiet
      cases rejected
      exact .inl ⟨by simp [accept, greeted], by simpa [accept, greeted] using quiet⟩
    rw [greeted] at taken seated
    cases taken
    obtain ⟨s, found, name, next, welcoming⟩ := seated.session numbered
    have ended (fault : Option Fault) : Accepted false h.replicaId h.lastOffset m
        (mid.endSession mid.generation fault) :=
      accepted_of_seated numbered seated (quiet_endSession mid _ _)
        seated.quorum (endSession_listens mid fault found) fun _ l member here newest =>
          endSession_disconnects mid (numbered.seated seated) fault found l member
            (here.trans name.symm) newest
    refine .inr ⟨h, (m.accept address first reached).2, said, rfl, within, ?_⟩
    cases reached with
    | false => simpa [accept, greeted] using ended none
    | true =>
      rcases advance_welcome mid found welcoming with ⟨fault, failed⟩ | ⟨welcome, wrote⟩
      · simpa [accept, greeted, failed] using ended fault
      · have newest := (session_of_find found).2
        have same : mid.quorum = m.quorum := seated.quorum
        have placed : Accepted true h.replicaId h.lastOffset m (mid.welcomed s) := by
          refine accepted_of_seated numbered seated
            (quiet_welcomed mid s) ?_ ?_ (by simp)
          · simp [same, name, next]
          · exact newest ▸ welcomed_listens mid s
        simpa [accept, greeted, wrote] using placed

/-! ### Whole writes -/

/-- The number that a write was given tells whether it is in the log. -/
private theorem written_of_append {payload : Bytes} {metadata : Option Bytes} {write : Nat}
    (number : (m.append payload metadata).2 = some write) :
    m.written? (.append payload metadata) =
      (((m.append payload metadata).1.quorum.board.cells[write]?).bind Cell.offset).map
        fun offset => (write, ⟨offset, payload, metadata⟩) := by
  cases ran : m.append payload metadata with
  | mk after number' =>
    rw [ran] at number
    cases number
    simp [written?, ran]

/-- A write is not taken at all, it is refused, or it is stored and announced at once; only then it is
on record. -/
theorem append_outcome [NumberedLog L] (m : Master L)
    (within : ∀ w ∈ m.quorum.pending, w.offset ≤ m.offset) (payload : Bytes)
    (metadata : Option Bytes) :
    (m.written? (.append payload metadata) = none ∧ (m.append payload metadata).1 = m) ∨
    (∃ reason log, (log = m.log ∨ ∃ fault,
        LocalLog.append m.log payload metadata = (log, .error fault)) ∧
      m.written? (.append payload metadata) = none ∧
      Silent { m with log, quorum := (m.quorum.refuse reason).1 }
        (m.append payload metadata).1) ∨
    ∃ log offset, m.unannounced = none ∧
      LocalLog.append m.log payload metadata = (log, .ok offset) ∧
      m.written? (.append payload metadata) =
        some (m.quorum.board.size, ⟨offset, payload, metadata⟩) ∧
      Quiet (· = ⟨offset, payload, metadata⟩)
        { m with
          log
          quorum := m.announcedQuorum ⟨offset, payload, metadata⟩
          unannounced := none } (m.append payload metadata).1 := by
  rcases append_cases m payload metadata with ⟨-, same⟩ | ⟨write, refused, same⟩ |
    ⟨fresh, free, same⟩
  · exact .inl ⟨by simp [written?, same], by rw [same]⟩
  · rcases store_cases m payload metadata with ⟨-, busy⟩ | ⟨reason, log, kept, number, quiet⟩ |
      ⟨log, offset, -, -, stored⟩
    · simp [busy] at refused
    · refine .inr (.inl ⟨reason, log, kept, ?_, same ▸ quiet⟩)
      have quorum : (m.store payload metadata).1.quorum = (m.quorum.refuse reason).1 :=
        quiet.quorum
      rw [written_of_append (by rw [same, number]), same, quorum]
      simp [Quorum.refuse, Board.cells_push, Cell.closed]
    · simp [stored] at refused
  · rcases store_cases m payload metadata with ⟨busy, -⟩ | ⟨reason, log, -, number, -⟩ |
      ⟨log, offset, -, taken, stored⟩
    · simp [free] at busy
    · simp [number] at fresh
    · have last : ∀ w ∈ m.quorum.pending, w.offset < offset := by
        intro w waited
        have next : offset = m.offset + 1 := (NumberedLog.append_takes_next taken).1
        have low := within w waited
        omega
      rw [stored] at same
      rcases announce_cases { m with log, unannounced := some ⟨offset, payload, metadata⟩ } with
        ⟨none, -⟩ | ⟨e, entry, number, quiet⟩
      · cases none
      · cases entry
        obtain ⟨c, cell, written⟩ := announcedQuorum_cell (e := ⟨offset, payload, metadata⟩) last
        refine .inr (.inr ⟨log, offset, free, taken, ?_, same ▸ quiet⟩)
        rw [written_of_append (by rw [same]; exact number), same, quiet.quorum]
        change (((announcedQuorum m _).board.cells[m.quorum.board.size]?).bind Cell.offset).map _ = _
        rw [cell, Option.bind_some, written]
        rfl

/-! ### A small master -/

/-- The settings of a master that asks for so many copies. -/
def smallSettings (copies : UInt32) : Settings :=
  { Settings.master "master" Settings.defaultBind with copies }

/-- A new master that asks for so many copies, over an empty log in memory. -/
def small (copies : UInt32) : Master VolatileLog where
  settings := smallSettings copies
  log := {}
  quorum := .ofCopies copies

/-- The first message of a replica whose log ends at an offset. -/
def introduction (id : String) (offset : Nat) : Except Fault Message :=
  .ok (.hello {
    replicaId := id
    token := ""
    lastOffset := offset
    lastChecksum := 0
    version := Message.version })

end QuorumLog.Master
