import QuorumLog.Proofs.LinkTable

/-! The links of a master as others see them, in every state that it can come to. What is kept true of
the table of links between all steps is told here in the terms of an observer, for steps that come one
by one and for whole handshakes. -/

namespace QuorumLog.Master

variable {L : Type} [LocalLog L] {m m' : Master L}

/-! ### Whole handshakes -/

theorem Table.accept (table : m.Table) (address : SocketAddress) (first : Except Fault Message)
    (reached : Bool) : Follows m (m.accept address first reached).1 := by
  have greeted := table.greet address first
  unfold Master.accept
  split
  · rename_i after rejection turned
    rw [turned] at greeted
    exact greeted
  · rename_i after report taken
    rw [taken] at greeted
    split
    · exact greeted.trans (greeted.table.advance after.generation)
    · exact greeted.trans (greeted.table.endSession after.generation none)

theorem Table.act (table : m.Table) (a : Action L) : Follows m (m.act a) := by
  cases a with
  | append payload metadata => exact table.append payload metadata
  | store payload metadata => exact table.store payload metadata
  | announce => exact table.announce
  | accept address first reached => exact table.accept address first reached
  | advance generation => exact table.advance generation
  | receive generation message => exact table.receive generation message
  | acknowledge id offset => exact table.acknowledge id offset
  | disconnect id => exact table.closeLink id none
  | endSession generation fault => exact table.endSession generation fault
  | start bind => exact table.start bind
  | stop => exact table.stop
  | disturb log =>
    rw [Master.act]
    split
    · exact table.same rfl (Nat.le_refl _) rfl rfl rfl rfl
    · exact .refl table

theorem Table.run (table : m.Table) (actions : List (Action L)) : Follows m (m.run actions) := by
  induction actions generalizing m with
  | nil => exact .refl table
  | cons a later ih =>
    have acted := table.act a
    exact acted.trans (ih acted.table)

/-- Between whole handshakes nobody waits for a welcome. -/
theorem Calm.act (calm : m.Calm) (numbered : m.Numbered) (a : Action L) : (m.act a).Calm := by
  have quietly {given : Entry → Prop} {m₀ m' : Master L} (same : m₀.sessions = m.sessions)
      (quiet : Quiet given m₀ m') : m'.Calm := fun generation => by
    refine quiet.listens fun s held => calm generation s ?_
    rwa [same] at held
  have acknowledged (id : String) (offset : Nat) : (m.acknowledge id offset).Calm := by
    intro generation
    rw [Listens, (acknowledge_same m id offset).1]
    exact calm generation
  have stored (payload : Bytes) (metadata : Option Bytes) :
      (m.store payload metadata).1.Calm := by
    intro generation
    rw [Listens, (store_same m payload metadata).2.1]
    exact calm generation
  have announced {m : Master L} (calm : m.Calm) : m.announce.1.Calm := by
    rcases announce_cases m with ⟨-, same⟩ | ⟨e, -, -, quiet⟩
    · rw [same]
      exact calm
    · exact fun generation => quiet.listens (calm generation)
  cases a with
  | append payload metadata =>
    rcases append_cases m payload metadata with ⟨-, same⟩ | ⟨write, -, same⟩ | ⟨-, -, same⟩
    · rw [Master.act, same]
      exact calm
    · rw [Master.act, same]
      exact stored payload metadata
    · rw [Master.act, same]
      exact announced (stored payload metadata)
  | store payload metadata => exact stored payload metadata
  | announce => exact announced calm
  | accept address first reached =>
    rcases accept_cases m numbered address first reached with ⟨-, quiet⟩ | ⟨_, _, -, -, -, accepted⟩
    · exact quietly rfl quiet
    · exact accepted.calm calm
  | advance generation => exact quietly rfl (quiet_advance m (calm generation)).1
  | receive generation message =>
    rcases receive_cases m generation message with ⟨s, -, offset, -, -, -, same⟩ | ⟨-, quiet⟩
    · rw [Master.act, same]
      exact acknowledged s.replicaId offset
    · exact quietly rfl quiet
  | acknowledge id offset => exact acknowledged id offset
  | disconnect id => exact quietly rfl (quiet_closeLink m id none : Silent m _)
  | endSession generation fault => exact quietly rfl (quiet_endSession m generation fault : Silent m _)
  | start bind => exact quietly rfl (quiet_start m bind : Silent m _)
  | stop => exact quietly rfl (quiet_stop m : Silent m _)
  | disturb log =>
    rw [Master.act]
    split <;> exact calm

theorem Calm.run (calm : m.Calm) (table : m.Table) (actions : List (Action L)) :
    (m.run actions).Calm := by
  induction actions generalizing m with
  | nil => exact calm
  | cons a later ih => exact ih (calm.act table.numbered a) (table.act a).table

/-! ### The links as others see them -/

/-- The links of a master with so many places, as others see them. -/
structure Roster (places : Nat) (m : Master L) : Prop where
  place : m.connectedCount ≤ places
  names : (m.links.map (·.peer.id)).Nodup
  found : ∀ l ∈ m.links, m.link? l.peer.id = some l
  generations : (m.links.map (·.generation)).Nodup
  issued : ∀ l ∈ m.links, l.generation ≤ m.generation
  /-- A link has a connection if more entries may be put into that of its session. -/
  outbox : ∀ l ∈ m.links, ∃ s, m.session? l.generation = some s ∧ s.replicaId = l.peer.id ∧
    s.connection.fed = l.isConnected
  /-- Nothing may be put into any other connection. -/
  spare : ∀ s ∈ m.sessions, s.connection.fed → m.Connected s.generation

omit [LocalLog L] in
theorem Linked.roster (linked : m.Linked) : m.Roster m.settings.maxReplicas.toNat where
  place := linked.place
  names := linked.numbered.ids
  found l held := linked.numbered.find_link held
  generations := List.Nodup.map_on (fun _ left _ right => linked.link_unique left right)
    linked.numbered.ids.of_map
  issued := linked.numbered.links
  outbox l held := by
    obtain ⟨s, present, here, name⟩ := linked.session l held
    refine ⟨s, here ▸ linked.numbered.find_session present, name, ?_⟩
    rw [Bool.eq_iff_iff, linked.fed s present]
    constructor
    · rintro ⟨l', held', here', up⟩
      rwa [← linked.link_unique held' held (here'.trans here)]
    · exact fun up => ⟨l, held, here.symm, up⟩
  spare s held := (linked.fed s held).mp

/-- The generation of a link only grows, whether the link goes on or another one has its name. -/
def Ages (before after : Master L) : Prop :=
  ∀ l ∈ before.links, ∀ l' ∈ after.links, l'.peer.id = l.peer.id → l.generation ≤ l'.generation

omit [LocalLog L] in
theorem Follows.ages (follows : Follows m m') (table : m.Table) : Ages m m' := by
  intro l held l' held' name
  rcases follows.links l' held' with ⟨l₀, before, name₀, same⟩ | newer
  · rw [← table.numbered.link_unique before held (name₀.trans name), same]
  · exact Nat.le_trans (table.numbered.links l held) (Nat.le_of_lt newer)

/-- The table of links is in order at every moment, also while handshakes are under way: there are no
more connections than places, a link is found by its name and no other has it, generations differ and
only grow, and a link has a connection that takes entries just while it is connected. Its counts are
exact whenever no replica waits for its welcome, so they are exact after any actions of which each
handshake is one. -/
theorem table_in_order {settings : Settings} {log : L} (created : create settings log = .ok m) :
    (∀ moves, (m.play moves).Roster settings.maxReplicas.toNat ∧
      ((m.play moves).Calm → (m.play moves).Counted) ∧
      ∀ later, Ages (m.play moves) ((m.play moves).play later)) ∧
    ∀ actions, (m.run actions).Roster settings.maxReplicas.toNat ∧ (m.run actions).Counted ∧
      ∀ later, Ages (m.run actions) ((m.run actions).run later) := by
  have table := table_of_create created
  have same : m.settings = settings := by
    obtain ⟨-, rfl⟩ := create_of_ok created
    rfl
  have roster {m' : Master L} (follows : Follows m m') :
      m'.Roster settings.maxReplicas.toNat := by
    have sound := follows.table.roster
    rwa [follows.settings, same] at sound
  have counted {m' : Master L} (table : m'.Table) (calm : m'.Calm) : m'.Counted := by
    rcases table.told with counted | ⟨s, held, welcoming, -⟩
    · exact counted
    · rw [calm s.generation s held rfl] at welcoming
      cases welcoming
  refine ⟨fun moves => ?_, fun actions => ?_⟩
  · have played := table.play moves
    exact ⟨roster played, counted played.table, fun later =>
      (played.table.play later).ages played.table⟩
  · have ran := table.run actions
    have calm : m.Calm := by
      obtain ⟨-, rfl⟩ := create_of_ok created
      simp [Calm, Listens]
    exact ⟨roster ran, counted ran.table (calm.run table actions), fun later =>
      (ran.table.run later).ages ran.table⟩

/-- Two replicas come, the first comes back and its welcome is lost. -/
def comings : List (Action VolatileLog) :=
  [.accept Settings.defaultBind (introduction "first" 0) true,
    .accept Settings.defaultBind (introduction "second" 0) true, .advance 2, .advance 2,
    .accept Settings.defaultBind (introduction "first" 0) false]

/-- The link of the first has a newer generation and no connection, and that of the second is the one
that counts. -/
theorem table_after_comings :
    ((small 2).run comings).Roster (smallSettings 2).maxReplicas.toNat ∧
      ((small 2).run comings).Counted ∧
      ((small 2).run comings).links.map (·.generation) = [3, 2] ∧
      ((small 2).run comings).tally.connected = 1 ∧
      ((small 2).run comings).tally.streaming = 1 := by
  have created : create (smallSettings 2) ({} : VolatileLog) = .ok (small 2) := rfl
  obtain ⟨roster, counted, -⟩ := (table_in_order created).2 comings
  exact ⟨roster, counted, by decide +kernel, by decide +kernel, by decide +kernel⟩

end QuorumLog.Master
