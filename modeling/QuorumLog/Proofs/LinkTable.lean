import QuorumLog.Proofs.SmallSteps

/-! The table of links, in every state that a master can come to. There is one link for a name, and no
more of them have a connection than there are places; a link and the session of its generation belong
together, and just the sessions of connected links may be handed entries. The counts of links are
exact but for the time in which a replica has its link and not yet its welcome. -/

namespace QuorumLog.Master

variable {L : Type} {m m' m'' : Master L} {generation : Nat} {id : String}

/-! ### The table -/

/-- What is true of links and sessions. -/
structure Linked (m : Master L) : Prop where
  numbered : m.Numbered
  place : m.connectedCount ≤ m.settings.maxReplicas.toNat
  session : ∀ l ∈ m.links, ∃ s ∈ m.sessions, s.generation = l.generation ∧ s.replicaId = l.peer.id
  fed : ∀ s ∈ m.sessions, s.connection.fed ↔ m.Connected s.generation

/-- The counts of links are what they count. -/
structure Counted (m : Master L) : Prop where
  connected : m.tally.connected = m.connectedCount
  streaming : m.tally.streaming = m.streamingCount

/-- A replica has its link and waits for its welcome. -/
def Greeting (m : Master L) : Prop :=
  ∃ s ∈ m.sessions, s.isWelcoming ∧ m.Connected s.generation

/-- The table is in order, and the links are counted but for those of a replica that waits for its
welcome. -/
structure Table (m : Master L) : Prop extends Linked m where
  told : m.Counted ∨ m.Greeting

/-- One state of the table after another: the links of before, or others of newer generations. -/
structure Follows (before after : Master L) : Prop where
  table : after.Table
  settings : after.settings = before.settings
  issued : before.generation ≤ after.generation
  links : ∀ l' ∈ after.links, (∃ l ∈ before.links, l.peer.id = l'.peer.id ∧
    l.generation = l'.generation) ∨ before.generation < l'.generation

theorem Follows.refl (table : m.Table) : Follows m m :=
  ⟨table, rfl, Nat.le_refl _, fun l held => .inl ⟨l, held, rfl, rfl⟩⟩

theorem Follows.trans (first : Follows m m') (second : Follows m' m'') : Follows m m'' where
  table := second.table
  settings := second.settings.trans first.settings
  issued := Nat.le_trans first.issued second.issued
  links l'' held := by
    rcases second.links l'' held with ⟨l', held', name', same'⟩ | newer
    · rcases first.links l' held' with ⟨l, before, name, same⟩ | newer
      · exact .inl ⟨l, before, name.trans name', same.trans same'⟩
      · exact .inr (same' ▸ newer)
    · exact .inr (Nat.lt_of_le_of_lt first.issued newer)

/-- Two links of one generation are one, for they have one session. -/
theorem Linked.link_unique (linked : m.Linked) {l l' : Link} (left : l ∈ m.links)
    (right : l' ∈ m.links) (same : l.generation = l'.generation) : l = l' := by
  obtain ⟨s, held, here, name⟩ := linked.session l left
  obtain ⟨s', held', here', name'⟩ := linked.session l' right
  have one : s = s' :=
    linked.numbered.session_unique held held' (here.trans (same.trans here'.symm))
  subst one
  exact linked.numbered.link_unique left right (name.symm.trans name')

/-! ### Steps that give no place -/

/-- Links and sessions may change while they keep their names and generations, if the connections
that go are those of some generations. -/
theorem Linked.mapped (linked : m.Linked) (down : Nat → Prop) {f : Link → Link}
    {g : Session → Session} (settings : m'.settings = m.settings)
    (issued : m.generation ≤ m'.generation) (links : m'.links = m.links.map f)
    (sessions : m'.sessions = m.sessions.map g)
    (link : ∀ l ∈ m.links, (f l).peer.id = l.peer.id ∧ (f l).generation = l.generation ∧
      ((f l).isConnected ↔ l.isConnected ∧ ¬down l.generation))
    (session : ∀ s ∈ m.sessions, (g s).generation = s.generation ∧ (g s).replicaId = s.replicaId ∧
      ((g s).connection.fed ↔ s.connection.fed ∧ ¬down s.generation)) : m'.Linked := by
  have ids : m'.links.map (·.peer.id) = m.links.map (·.peer.id) := by
    rw [links, List.map_map]
    exact List.map_congr_left fun l held => (link l held).1
  have generations : m'.sessions.map (·.generation) = m.sessions.map (·.generation) := by
    rw [sessions, List.map_map]
    exact List.map_congr_left fun s held => (session s held).1
  refine ⟨⟨ids ▸ linked.numbered.ids, generations ▸ linked.numbered.generations, ?_, ?_⟩, ?_, ?_, ?_⟩
  · rw [links]
    intro l' held
    obtain ⟨l, before, rfl⟩ := List.mem_map.mp held
    rw [(link l before).2.1]
    exact Nat.le_trans (linked.numbered.links l before) issued
  · rw [sessions]
    intro s' held
    obtain ⟨s, before, rfl⟩ := List.mem_map.mp held
    rw [(session s before).1]
    exact Nat.le_trans (linked.numbered.sessions s before) issued
  · rw [connectedCount, links, List.countP_map, settings]
    exact Nat.le_trans (List.countP_mono_left fun l held up => ((link l held).2.2.mp up).1)
      linked.place
  · rw [links, sessions]
    intro l' held
    obtain ⟨l, before, rfl⟩ := List.mem_map.mp held
    obtain ⟨s, present, here, name⟩ := linked.session l before
    obtain ⟨generation, replicaId, -⟩ := session s present
    refine ⟨g s, List.mem_map_of_mem present, ?_, ?_⟩
    · rw [generation, here, (link l before).2.1]
    · rw [replicaId, name, (link l before).1]
  · rw [sessions]
    intro s' held
    obtain ⟨s, before, rfl⟩ := List.mem_map.mp held
    obtain ⟨generation, -, fed⟩ := session s before
    rw [fed, generation, linked.fed s before]
    constructor
    · rintro ⟨⟨l, held, here, up⟩, kept⟩
      obtain ⟨-, same, connected⟩ := link l held
      refine ⟨f l, links ▸ List.mem_map_of_mem held, same.trans here, connected.mpr ⟨up, ?_⟩⟩
      rwa [here]
    · rintro ⟨l', held, here, up⟩
      rw [links] at held
      obtain ⟨l, present, rfl⟩ := List.mem_map.mp held
      obtain ⟨-, same, connected⟩ := link l present
      rw [same] at here
      obtain ⟨up, kept⟩ := connected.mp up
      exact ⟨⟨l, present, here, up⟩, here ▸ kept⟩

/-- Links and sessions may change while each stays what it is. -/
theorem Table.stays (table : m.Table) {f : Link → Link} {g : Session → Session}
    (settings : m'.settings = m.settings) (issued : m.generation ≤ m'.generation)
    (links : m'.links = m.links.map f) (sessions : m'.sessions = m.sessions.map g)
    (connected : m'.tally.connected = m.tally.connected)
    (streaming : m'.tally.streaming = m.tally.streaming)
    (link : ∀ l ∈ m.links, l.Stays (f l)) (session : ∀ s ∈ m.sessions, s.Stays (g s)) :
    Follows m m' := by
  have linked : m'.Linked := by
    refine table.mapped (fun _ => False) settings issued links sessions (fun l held => ?_)
      fun s held => ?_
    · have stays := link l held
      refine ⟨congrArg Peer.id stays.peer, stays.generation, ?_⟩
      rw [Link.isConnected, stays.phase, Link.isConnected]
      simp
    · have stays := session s held
      refine ⟨stays.generation, stays.replicaId, ?_⟩
      rw [stays.fed]
      simp
  refine ⟨⟨linked, ?_⟩, settings, issued, fun l' held => ?_⟩
  · rcases table.told with counted | ⟨s, held, welcoming, l, present, here, up⟩
    · refine .inl ⟨?_, ?_⟩
      · rw [connected, counted.connected, connectedCount, connectedCount, links, List.countP_map]
        exact List.countP_congr fun l held => by simp [Link.isConnected, (link l held).phase]
      · rw [streaming, counted.streaming, streamingCount, streamingCount, links, List.countP_map]
        exact List.countP_congr fun l held => by simp [Link.isStreaming, (link l held).phase]
    · refine .inr ⟨g s, sessions ▸ List.mem_map_of_mem held, ?_, f l,
        links ▸ List.mem_map_of_mem present, ?_, ?_⟩
      · rw [(session s held).welcoming, welcoming]
      · rw [(link l present).generation, here, (session s held).generation]
      · rw [Link.isConnected, (link l present).phase]
        exact up
  · rw [links] at held
    obtain ⟨l, before, rfl⟩ := List.mem_map.mp held
    exact .inl ⟨l, before, (congrArg Peer.id (link l before).peer).symm,
      (link l before).generation.symm⟩

/-- Nothing else is asked of a master than its settings, its links and its sessions. -/
theorem Table.same (table : m.Table) (settings : m'.settings = m.settings)
    (issued : m.generation ≤ m'.generation) (links : m'.links = m.links)
    (sessions : m'.sessions = m.sessions) (connected : m'.tally.connected = m.tally.connected)
    (streaming : m'.tally.streaming = m.tally.streaming) : Follows m m' :=
  table.stays settings issued (links.trans (List.map_id _).symm)
    (sessions.trans (List.map_id _).symm) connected streaming (fun _ _ => ⟨rfl, rfl, rfl⟩)
    fun _ _ => ⟨rfl, rfl, rfl, rfl⟩

theorem counted_recount (m : Master L) : m.recount.Counted := ⟨rfl, rfl⟩

/-- A link that is found and has a connection loses it, or nothing happens. -/
theorem closeLink_outcome (m : Master L) (id : String) (generation? : Option Nat) :
    (m.closeLink id generation? = m ∧ ∀ l, m.link? id = some l → l.isConnected →
      generation?.all (· = l.generation) = false) ∨
    ∃ l, m.link? id = some l ∧
      m.closeLink id generation? = ((m.onLink id Link.disconnect).cut l.generation).recount := by
  unfold closeLink
  split
  · rename_i missing
    exact .inl ⟨rfl, by simp [missing]⟩
  · rename_i l found
    split
    · exact .inr ⟨l, found, rfl⟩
    · rename_i kept
      refine .inl ⟨rfl, fun l' found' up => ?_⟩
      rw [found] at found'
      cases found'
      simpa [up] using kept

/-- When a connection is given up, the table stays in order. -/
theorem Linked.closeLink (linked : m.Linked) (id : String) (generation? : Option Nat) :
    (m.closeLink id generation?).Linked := by
  rcases closeLink_outcome m id generation? with ⟨same, -⟩ | ⟨l, found, closed⟩
  · rwa [same]
  obtain ⟨held, name⟩ := link_of_find found
  rw [closed]
  refine linked.mapped (· = l.generation) rfl (Nat.le_refl _) rfl rfl (fun l' present => ?_)
    fun s present => ?_
  · by_cases here : l'.peer.id = id
    · have same : l' = l := linked.numbered.link_unique present held (here.trans name.symm)
      rw [if_pos here, same]
      simp [Link.disconnect, Link.isConnected]
    · have apart : l'.generation ≠ l.generation := fun same =>
        here (linked.link_unique present held same ▸ name)
      rw [if_neg here]
      simp [apart]
  · by_cases here : s.generation = l.generation
    · rw [if_pos here]
      simp [Connection.cut, Connection.shut, Connection.cancel, here]
    · rw [if_neg here]
      simp [here]

theorem Table.closeLink (table : m.Table) (id : String) (generation? : Option Nat) :
    Follows m (m.closeLink id generation?) := by
  have quiet : Silent m (m.closeLink id generation?) := quiet_closeLink m id generation?
  refine ⟨⟨table.toLinked.closeLink id generation?, ?_⟩, quiet.settings, quiet.generation, ?_⟩
  · rcases closeLink_outcome m id generation? with ⟨same, -⟩ | ⟨l, -, closed⟩
    · rw [same]
      exact table.told
    · rw [closed]
      exact .inl (counted_recount _)
  · intro l' held
    obtain ⟨l, before, continues⟩ := quiet.links l' held
    exact .inl ⟨l, before, continues.id.symm, continues.generation.symm⟩

/-- When a session ends, the table stays in order: the connection of its link goes with it. -/
theorem Table.endSession (table : m.Table) (generation : Nat) (fault : Option Fault) :
    Follows m (m.endSession generation fault) := by
  have quiet : Silent m (m.endSession generation fault) := quiet_endSession m generation fault
  have links : ∀ l' ∈ (m.endSession generation fault).links, (∃ l ∈ m.links,
      l.peer.id = l'.peer.id ∧ l.generation = l'.generation) ∨ m.generation < l'.generation := by
    intro l' held
    obtain ⟨l, before, continues⟩ := quiet.links l' held
    exact .inl ⟨l, before, continues.id.symm, continues.generation.symm⟩
  refine ⟨?_, quiet.settings, quiet.generation, links⟩
  unfold Master.endSession
  split
  · exact table
  rename_i s found
  obtain ⟨held, newest⟩ := session_of_find found
  have ended : (m.onSession generation fun s =>
      { s with stage := .ended fault, connection := s.connection.cancel.abandon }).Linked := by
    refine table.mapped (fun _ => False) rfl (Nat.le_refl _) (List.map_id _).symm rfl
      (fun l _ => by simp) fun s _ => ?_
    split <;> simp [Connection.cancel, Connection.abandon]
  refine ⟨ended.closeLink _ _, ?_⟩
  rcases closeLink_outcome _ s.replicaId (some generation) with ⟨same, kept⟩ | ⟨l, -, closed⟩
  · rw [same]
    rcases table.told with counted | ⟨t, waits, welcoming, l, present, here, up⟩
    · exact .inl ⟨counted.connected, counted.streaming⟩
    · by_cases mine : t.generation = generation
      · -- The session that ended had the connection of a link, which was given up.
        obtain ⟨s', held', here', name⟩ := table.session l present
        have one : s' = s := table.numbered.session_unique held' held
          (here'.trans (here.trans (mine.trans newest.symm)))
        have only : m.link? s.replicaId = some l := by
          rw [← one, name]
          exact table.numbered.find_link present
        have apart := kept l only up
        simp [here, mine] at apart
      · refine .inr ⟨t, List.mem_map.mpr ⟨t, waits, if_neg mine⟩, welcoming, l, present, here, up⟩
  · rw [closed]
    exact .inl (counted_recount _)

/-! ### Small steps -/

theorem Table.touch (table : m.Table) (touch : Touch m m') : Follows m m' := by
  cases touch with
  | link id stays =>
    refine table.stays rfl (Nat.le_refl _) rfl (List.map_id _).symm rfl rfl (fun l _ => ?_)
      fun _ _ => ⟨rfl, rfl, rfl, rfl⟩
    split
    · exact stays l
    · exact ⟨rfl, rfl, rfl⟩
  | session generation stays =>
    refine table.stays rfl (Nat.le_refl _) (List.map_id _).symm rfl rfl rfl
      (fun _ _ => ⟨rfl, rfl, rfl⟩) fun s held => ?_
    split
    · rename_i here
      exact stays s held here
    · exact ⟨rfl, rfl, rfl, rfl⟩
  | counted shipped rejected => exact table.same rfl (Nat.le_refl _) rfl rfl rfl rfl
  | issued => exact table.same rfl (Nat.le_succ _) rfl rfl rfl rfl
  | closed id generation? => exact table.closeLink id generation?
  | ended generation fault => exact table.endSession generation fault
  | streams id =>
    have streaming (l : Link) : l.beginStreaming.peer = l.peer ∧
        l.beginStreaming.generation = l.generation ∧
        l.beginStreaming.isConnected = l.isConnected := by
      unfold Link.beginStreaming
      split
      · rename_i phase
        exact ⟨rfl, rfl, by simp [Link.isConnected, phase]⟩
      · exact ⟨rfl, rfl, rfl⟩
    refine ⟨⟨?_, .inl (counted_recount _)⟩, rfl, Nat.le_refl _, fun l' held => ?_⟩
    · refine table.mapped (fun _ => False) rfl (Nat.le_refl _) rfl (List.map_id _).symm
        (fun l _ => ?_) fun s _ => by simp
      obtain ⟨peer, generation, connected⟩ := streaming l
      split
      · exact ⟨congrArg Peer.id peer, generation, by simp [connected]⟩
      · simp
    · obtain ⟨l, before, rfl⟩ := List.mem_map.mp held
      obtain ⟨peer, generation, -⟩ := streaming l
      refine .inl ⟨l, before, ?_⟩
      split
      · exact ⟨congrArg Peer.id peer.symm, generation.symm⟩
      · exact ⟨rfl, rfl⟩

theorem Table.touches (table : m.Table) (touches : Touches m m') : Follows m m' := by
  induction touches with
  | refl => exact .refl table
  | tail _ touch follows => exact follows.trans (follows.table.touch touch)

/-! ### A place for a replica -/

/-- Of the links with a connection one at most has a given name. -/
theorem Numbered.connectedCount_le (numbered : m.Numbered) (id : String) :
    m.connectedCount ≤ m.others id + 1 := by
  have one : (m.links.filter fun l => !decide (l.peer.id ≠ id)).countP Link.isConnected ≤ 1 := by
    have single := List.nodup_iff_count_le_one.mp numbered.ids id
    rw [List.count, List.countP_map] at single
    refine Nat.le_trans ?_ single
    rw [List.countP_filter]
    exact List.countP_mono_left fun l _ both => by simpa using (Bool.and_eq_true_iff.mp both).2
  have rest : (m.links.filter fun l => decide (l.peer.id ≠ id)).countP Link.isConnected =
      m.others id := by
    rw [List.countP_filter, others]
    exact List.countP_congr fun l _ => by simp
  calc m.connectedCount
    _ = _ := List.countP_eq_countP_filter_add m.links Link.isConnected (·.peer.id ≠ id)
    _ ≤ m.others id + 1 := Nat.add_le_add (Nat.le_of_eq rest) one

/-- A place for a replica takes no link from another one. -/
theorem register_others (m : Master L) (peer : Peer) (held : Nat) {l : Link} (present : l ∈ m.links)
    (other : l.peer.id ≠ peer.id) : l ∈ (m.register peer held).links := by
  unfold register
  split
  · exact List.mem_map.mpr ⟨l, present, if_neg other⟩
  · exact List.mem_append_left _ present

/-- The other replicas have as many connections as before. -/
theorem others_register (m : Master L) (peer : Peer) (held : Nat) :
    (m.register peer held).others peer.id = m.others peer.id := by
  have named (l : Link) : ((l.reconnect peer m.generation held).beginCatchUp).peer = peer := by
    simp [Link.reconnect, Link.beginCatchUp]
  unfold register others
  split
  · simp only [onLink, cut, onSession, List.countP_map]
    refine List.countP_congr fun l _ => ?_
    by_cases here : l.peer.id = peer.id <;> simp [here, named]
  · simp [List.countP_append, Link.beginCatchUp]

/-- The sessions of before take entries as before, but for the one of the connection that the link
of the replica had. -/
theorem register_fed (m : Master L) (peer : Peer) (held : Nat) :
    ∀ s' ∈ (m.register peer held).sessions, ∃ s ∈ m.sessions, s'.generation = s.generation ∧
      (s'.connection.fed ↔ s.connection.fed ∧
        ∀ old, m.link? peer.id = some old → old.generation ≠ s.generation) := by
  intro s' present
  unfold register at present
  split at present
  · rename_i old found
    obtain ⟨s, before, rfl⟩ := List.mem_map.mp present
    refine ⟨s, before, ?_⟩
    by_cases here : s.generation = old.generation
    · rw [if_pos here]
      simp [Connection.cut, Connection.shut, Connection.cancel, found, here]
    · rw [if_neg here]
      simp [found, Ne.symm here]
  · rename_i missing
    exact ⟨s', present, rfl, by simp [missing]⟩

section Handshakes

variable [LocalLog L]

omit [LocalLog L] in
/-- The connections of earlier generations that are left when a replica has its place are those of
other replicas. -/
theorem Seated.connected_before {held : Nat} (seated : Seated id held m m')
    (issued : generation ≤ m.generation) (connected : m'.Connected generation) :
    ∃ l ∈ m.links, l.generation = generation ∧ l.peer.id ≠ id ∧ l.isConnected := by
  obtain ⟨l', held, here, up⟩ := connected
  rcases seated.links l' held with ⟨-, new, -⟩ | ⟨other, l, before, continues⟩
  · rw [← here, new, seated.generation] at issued
    omega
  · exact ⟨l, before, continues.generation.symm.trans here, continues.id ▸ other,
      continues.connected up⟩

omit [LocalLog L] in
/-- The replica itself has a connection of the newest generation. -/
theorem Seated.connected_new {held : Nat} (seated : Seated id held m m') :
    m'.Connected m'.generation := by
  obtain ⟨l, held, here⟩ := seated.link
  rcases seated.links l held with ⟨-, new, -, connected⟩ | ⟨other, -⟩
  · exact ⟨l, held, new, connected⟩
  · exact absurd here other

omit [LocalLog L] in
/-- When a replica has its place, every link has a session of its own. -/
theorem Seated.session_of_link {held : Nat} (seated : Seated id held m m') (linked : m.Linked) :
    ∀ l ∈ m'.links, ∃ s ∈ m'.sessions, s.generation = l.generation ∧ s.replicaId = l.peer.id := by
  intro l' member
  rcases seated.links l' member with ⟨here, new, -⟩ | ⟨-, l, before, continues⟩
  · obtain ⟨t, found, name, -⟩ := seated.session linked.numbered
    obtain ⟨present, newest⟩ := session_of_find found
    exact ⟨t, present, newest.trans new.symm, name.trans here.symm⟩
  · obtain ⟨s, present, here, name⟩ := linked.session l before
    have kept : s.generation ∈ m'.sessions.map (·.generation) := by
      rw [seated.generations]
      exact List.mem_append_left _ (List.mem_map_of_mem present)
    obtain ⟨s', present', same⟩ := List.mem_map.mp kept
    refine ⟨s', present', same.trans (here.trans continues.generation.symm), ?_⟩
    rcases seated.sessions s' present' with ⟨-, new, -⟩ | ⟨s₀, before₀, goes⟩
    · have issued := linked.numbered.sessions s present
      rw [← same, new, seated.generation] at issued
      omega
    · have one := linked.numbered.session_unique before₀ present (goes.generation.symm.trans same)
      rw [goes.replicaId, one, name, continues.id]

/-- When a replica has its place, just the sessions of connected links take entries. -/
theorem Linked.fed_seatOf (linked : m.Linked) (peer : Peer) (h : Hello)
    (seated : Seated peer.id h.lastOffset m (m.seatOf peer h)) :
    ∀ s ∈ (m.seatOf peer h).sessions,
      s.connection.fed ↔ (m.seatOf peer h).Connected s.generation := by
  intro s' held
  rcases List.mem_append.mp held with before | new
  · obtain ⟨s, held, here, fed⟩ := register_fed _ peer h.lastOffset s' before
    have issued : s.generation ≤ m.generation := linked.numbered.sessions s held
    rw [fed, here]
    constructor
    · rintro ⟨fed, spared⟩
      obtain ⟨l, present, same, up⟩ := (linked.fed s held).mp fed
      have other : l.peer.id ≠ peer.id := fun id =>
        spared l (id ▸ linked.numbered.find_link present) same
      exact ⟨l, register_others _ peer h.lastOffset present other, same, up⟩
    · intro connected
      obtain ⟨l, present, same, other, up⟩ := seated.connected_before issued connected
      refine ⟨(linked.fed s held).mpr ⟨l, present, same, up⟩, fun old found apart => ?_⟩
      obtain ⟨held', id⟩ := link_of_find found
      exact other (linked.link_unique held' present (apart.trans same.symm) ▸ id)
  · rw [List.mem_singleton.mp new]
    exact iff_of_true rfl seated.connected_new

/-- A replica that finds a place has its link and a session that waits to welcome it. -/
theorem Table.seatOf (table : m.Table) (peer : Peer) (h : Hello) (named : h.replicaId = peer.id)
    (place : m.others peer.id < m.settings.maxReplicas.toNat) : Follows m (m.seatOf peer h) := by
  have seated : Seated peer.id h.lastOffset m (m.seatOf peer h) := seated_of_register m peer h named
  have numbered := table.numbered.seated seated
  have bound : (m.seatOf peer h).connectedCount ≤ (m.seatOf peer h).settings.maxReplicas.toNat := by
    have others : (m.seatOf peer h).others peer.id = m.others peer.id :=
      others_register { m with generation := m.generation + 1 } peer h.lastOffset
    have one := numbered.connectedCount_le peer.id
    rw [others] at one
    rw [seated.settings]
    omega
  obtain ⟨t, found, -, -, welcoming⟩ := seated.session table.numbered
  obtain ⟨present, newest⟩ := session_of_find found
  refine ⟨⟨⟨numbered, bound, seated.session_of_link table.toLinked,
    table.fed_seatOf peer h seated⟩, .inr ⟨t, present, welcoming, newest ▸ seated.connected_new⟩⟩,
    seated.settings, seated.generation ▸ Nat.le_succ _, fun l' held => ?_⟩
  rcases seated.links l' held with ⟨-, new, -⟩ | ⟨-, l, before, continues⟩
  · rw [new, seated.generation]
    exact .inr (Nat.lt_succ_self _)
  · exact .inl ⟨l, before, continues.id.symm, continues.generation.symm⟩

theorem Table.greet (table : m.Table) (address : SocketAddress) (first : Except Fault Message) :
    Follows m (m.greet address first).1 := by
  rcases touches_greet m address first with touches | ⟨peer, h, named, place, touches⟩
  · exact table.touches touches
  · have seated := table.seatOf peer h named place
    exact seated.trans (seated.table.touches touches)

omit [LocalLog L] in
/-- A replica that was welcomed is counted. -/
theorem Table.welcomed (table : m.Table) (s : Session) : Follows m (m.welcomed s) := by
  refine ⟨⟨?_, .inl ⟨rfl, rfl⟩⟩, rfl, Nat.le_refl _, fun l held => .inl ⟨l, held, rfl, rfl⟩⟩
  refine table.mapped (fun _ => False) rfl (Nat.le_refl _) (List.map_id _).symm rfl
    (fun l _ => by simp) fun t _ => ?_
  split <;> simp

theorem Table.advance (table : m.Table) (generation : Nat) :
    Follows m (m.advance generation).1 := by
  rcases table.numbered.listens_or_welcomes generation with listens | ⟨s, found, welcoming⟩
  · exact table.touches (touches_advance m listens)
  · rcases advance_welcome m found welcoming with ⟨fault, failed⟩ | ⟨welcome, wrote⟩
    · rw [failed]
      exact table.endSession generation fault
    · rw [wrote]
      exact table.welcomed s

/-! ### Every move -/

theorem Table.acknowledge (table : m.Table) (id : String) (offset : Nat) :
    Follows m (m.acknowledge id offset) := by
  have recorded (l : Link) : l.Stays (if l.peer.id = id then l.recordAck offset else l) := by
    split
    · obtain ⟨peer, generation⟩ := Link.recordAck_same offset l
      refine ⟨peer, generation, ?_⟩
      unfold Link.recordAck
      split
      · rfl
      · split <;> rfl
    · exact ⟨rfl, rfl, rfl⟩
  unfold Master.acknowledge
  split
  · exact .refl table
  split
  · exact .refl table
  dsimp only
  split <;>
    exact table.stays rfl (Nat.le_refl _) rfl (List.map_id _).symm rfl rfl (fun l _ => recorded l)
      fun _ _ => ⟨rfl, rfl, rfl, rfl⟩

theorem Table.receive (table : m.Table) (generation : Nat) (message : Message) :
    Follows m (m.receive generation message) := by
  rcases touches_receive m generation message with ⟨s, offset, -, -, -, same⟩ | touches
  · rw [same]
    exact table.acknowledge s.replicaId offset
  · exact table.touches touches

omit [LocalLog L] in
theorem Table.stop (table : m.Table) : Follows m m.stop := by
  have quiet : Silent m m.stop := quiet_stop m
  unfold Master.stop at quiet ⊢
  split
  · exact .refl table
  rename_i running
  rw [if_neg running] at quiet
  refine ⟨⟨⟨table.numbered.kept quiet.toKept, Nat.zero_le _, by simp [recount], fun s' held => ?_⟩,
    .inl ⟨rfl, rfl⟩⟩, rfl, Nat.le_refl _, by simp [recount]⟩
  have alone : ∀ generation, ¬(recount { m.cutAll with
      links := [], running := false, stopped := true }).Connected generation := by
    rintro generation ⟨l, none, -⟩
    cases none
  refine iff_of_false ?_ (alone _)
  obtain ⟨s, before, rfl⟩ := List.mem_map.mp held
  by_cases linked : m.links.any (·.generation = s.generation)
  · rw [if_pos linked]
    simp [Connection.cut, Connection.shut, Connection.cancel]
  · rw [if_neg linked]
    intro fed
    obtain ⟨l, present, here, -⟩ := (table.fed s before).mp fed
    exact linked (List.any_eq_true.mpr ⟨l, present, by simpa using here⟩)

omit [LocalLog L] in
theorem Table.announce (table : m.Table) : Follows m m.announce.1 := by
  unfold Master.announce
  split
  · exact .refl table
  · rename_i e _
    refine table.stays rfl (Nat.le_refl _) (List.map_id _).symm rfl rfl rfl
      (fun _ _ => ⟨rfl, rfl, rfl⟩) fun s _ => ?_
    split
    · refine ⟨rfl, rfl, ?_, rfl⟩
      unfold Connection.offer
      split <;> rfl
    · exact ⟨rfl, rfl, rfl, rfl⟩

theorem Table.store (table : m.Table) (payload : Bytes) (metadata : Option Bytes) :
    Follows m (m.store payload metadata).1 := by
  unfold Master.store
  split
  · exact table.same rfl (Nat.le_refl _) rfl rfl rfl rfl
  split
  · exact .refl table
  split <;> exact table.same rfl (Nat.le_refl _) rfl rfl rfl rfl

omit [LocalLog L] in
theorem Table.start (table : m.Table) (bind : Except Nat SocketAddress) :
    Follows m (m.start bind).1 := by
  unfold Master.start
  split
  · exact .refl table
  split
  · exact .refl table
  split
  · exact .refl table
  · exact table.same rfl (Nat.le_refl _) rfl rfl rfl rfl

theorem Table.append (table : m.Table) (payload : Bytes) (metadata : Option Bytes) :
    Follows m (m.append payload metadata).1 := by
  have stored := table.store payload metadata
  rcases append_cases m payload metadata with ⟨-, same⟩ | ⟨write, -, same⟩ | ⟨-, -, same⟩
  · rw [same]
    exact .refl table
  · rw [same]
    exact stored
  · rw [same]
    exact stored.trans stored.table.announce

theorem Table.move (table : m.Table) (a : Move) : Follows m (m.move a) := by
  cases a with
  | append payload metadata => exact table.append payload metadata
  | store payload metadata => exact table.store payload metadata
  | announce => exact table.announce
  | purge offset => exact table.same rfl (Nat.le_refl _) rfl rfl rfl rfl
  | greet address first => exact table.greet address first
  | advance generation => exact table.advance generation
  | receive generation message => exact table.receive generation message
  | acknowledge id offset => exact table.acknowledge id offset
  | disconnect id => exact table.closeLink id none
  | endSession generation fault => exact table.endSession generation fault
  | start bind => exact table.start bind
  | stop => exact table.stop

theorem Table.play (table : m.Table) (moves : List Move) : Follows m (m.play moves) := by
  induction moves generalizing m with
  | nil => exact .refl table
  | cons a later ih =>
    have moved := table.move a
    exact moved.trans (ih moved.table)

omit [LocalLog L] in
theorem table_of_create {settings : Settings} {log : L} (created : create settings log = .ok m) :
    m.Table := by
  have numbered := numbered_of_create created
  obtain ⟨-, rfl⟩ := create_of_ok created
  exact ⟨⟨numbered, Nat.zero_le _, by simp, by simp⟩, .inl ⟨rfl, rfl⟩⟩

end Handshakes

end QuorumLog.Master
