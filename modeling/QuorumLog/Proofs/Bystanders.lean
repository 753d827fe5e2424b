import QuorumLog.Proofs.MasterRuns

/-! What a step leaves of one connection that it is not a step of. The session of the connection keeps
its place and what it is about to write, and its link keeps its phase, or the connection is gone: then
nothing more is written on it. Every step of a master is of this kind for all connections but one, up
to an entry that is handed to all of them. -/

namespace QuorumLog

/-- The same session, which wrote nothing meanwhile and is about to write nothing else. -/
structure Session.Rests (before after : Session) : Prop where
  generation : after.generation = before.generation
  replicaId : after.replicaId = before.replicaId
  next : after.next = before.next
  waiting : ∀ e ∈ after.waiting, e ∈ before.waiting
  stage : after.stage = before.stage ∨ ∃ fault, after.stage = .ended fault

theorem Session.Rests.refl (s : Session) : s.Rests s :=
  ⟨rfl, rfl, rfl, fun _ held => held, .inl rfl⟩

theorem Session.Rests.trans {s s' s'' : Session} (first : s.Rests s') (second : s'.Rests s'') :
    s.Rests s'' where
  generation := second.generation.trans first.generation
  replicaId := second.replicaId.trans first.replicaId
  next := second.next.trans first.next
  waiting e held := first.waiting e (second.waiting e held)
  stage := by
    rcases second.stage with same | ended
    · rw [same]
      exact first.stage
    · exact .inr ended

/-- A session that is as ready to write as before. -/
structure Session.Ready (before after : Session) : Prop where
  stage : after.stage = before.stage
  queue : after.connection.queue = before.connection.queue
  takes : after.connection.takes = before.connection.takes

theorem Session.Ready.refl (s : Session) : s.Ready s := ⟨rfl, rfl, rfl⟩

theorem Session.Ready.trans {s s' s'' : Session} (first : s.Ready s') (second : s'.Ready s'') :
    s.Ready s'' :=
  ⟨second.stage.trans first.stage, second.queue.trans first.queue, second.takes.trans first.takes⟩

theorem Session.rests_cut (s : Session) : s.Rests { s with connection := s.connection.cut } :=
  ⟨rfl, rfl, rfl, fun _ held => held, .inl rfl⟩

namespace Master

variable {L : Type} {m m' m'' : Master L} {generation other : Nat} {id : String} {s : Session}

/-- Some link has the connection of a generation. -/
def Connected (m : Master L) (generation : Nat) : Prop :=
  ∃ l ∈ m.links, l.generation = generation ∧ l.isConnected

/-- A generation was given out, to a replica of a name. -/
structure Belongs (m : Master L) (generation : Nat) (id : String) : Prop where
  issued : generation ≤ m.generation
  links : ∀ l ∈ m.links, l.generation = generation → l.peer.id = id
  sessions : ∀ s ∈ m.sessions, s.generation = generation → s.replicaId = id

/-- What a step leaves of the connection of a generation. -/
structure Leaves (generation : Nat) (before after : Master L) : Prop where
  issued : before.generation ≤ after.generation
  sessions : ∀ s' ∈ after.sessions, s'.generation = generation → ∃ s ∈ before.sessions,
    s.Rests s' ∧ (after.Connected generation → s.Ready s')
  links : ∀ l' ∈ after.links, l'.generation = generation → ∃ l ∈ before.links,
    l.generation = generation ∧ l.peer.id = l'.peer.id ∧ (l'.isConnected → l'.phase = l.phase)

theorem Belongs.leaves (belongs : m.Belongs generation id) (leaves : Leaves generation m m') :
    m'.Belongs generation id where
  issued := Nat.le_trans belongs.issued leaves.issued
  links l' held here := by
    obtain ⟨l, before, newest, name, -⟩ := leaves.links l' held here
    exact name ▸ belongs.links l before newest
  sessions s' held here := by
    obtain ⟨s, before, rests, -⟩ := leaves.sessions s' held here
    rw [rests.replicaId]
    exact belongs.sessions s before (rests.generation.symm.trans here)

theorem Leaves.connected (leaves : Leaves generation m m') (connected : m'.Connected generation) :
    m.Connected generation := by
  obtain ⟨l', held, here, up⟩ := connected
  obtain ⟨l, before, newest, -, same⟩ := leaves.links l' held here
  refine ⟨l, before, newest, ?_⟩
  rw [Link.isConnected, ← same up]
  exact up

theorem Leaves.refl (m : Master L) : Leaves generation m m where
  issued := Nat.le_refl _
  sessions s held _ := ⟨s, held, .refl s, fun _ => .refl s⟩
  links l held here := ⟨l, held, here, rfl, fun _ => rfl⟩

theorem Leaves.trans (first : Leaves generation m m') (second : Leaves generation m' m'') :
    Leaves generation m m'' where
  issued := Nat.le_trans first.issued second.issued
  sessions s'' held here := by
    obtain ⟨s', held', rests', ready'⟩ := second.sessions s'' held here
    obtain ⟨s, before, rests, ready⟩ := first.sessions s' held' (rests'.generation.symm.trans here)
    exact ⟨s, before, rests.trans rests', fun connected =>
      (ready (second.connected connected)).trans (ready' connected)⟩
  links l'' held here := by
    obtain ⟨l', held', here', name', same'⟩ := second.links l'' held here
    obtain ⟨l, before, newest, name, same⟩ := first.links l' held' here'
    refine ⟨l, before, newest, name.trans name', fun up => ?_⟩
    have up' : l'.isConnected := by
      rw [Link.isConnected, ← same' up]
      exact up
    exact (same' up).trans (same up')

/-! ### Small steps -/

theorem leaves_of_same (links : m'.links = m.links) (sessions : m'.sessions = m.sessions)
    (issued : m.generation ≤ m'.generation) : Leaves generation m m' := by
  refine ⟨issued, ?_, ?_⟩
  · rw [sessions]
    exact fun s held _ => ⟨s, held, .refl s, fun _ => .refl s⟩
  · rw [links]
    exact fun l held here => ⟨l, held, here, rfl, fun _ => rfl⟩

theorem leaves_recount (m : Master L) : Leaves generation m m.recount :=
  leaves_of_same rfl rfl (Nat.le_refl _)

/-- A link may be changed that is not the one of the connection, or if it keeps its phase. -/
theorem leaves_onLink (m : Master L) (id : String) {f : Link → Link}
    (named : ∀ l : Link, (f l).generation = l.generation ∧ (f l).peer = l.peer)
    (same : ∀ l ∈ m.links, l.peer.id = id → l.generation = generation → (f l).isConnected →
      (f l).phase = l.phase) : Leaves generation m (m.onLink id f) := by
  refine ⟨Nat.le_refl _, fun s held _ => ⟨s, held, .refl s, fun _ => .refl s⟩, ?_⟩
  intro l' held here
  obtain ⟨l, before, rfl⟩ := List.mem_map.mp held
  split at here
  · rename_i name
    rw [(named l).1] at here
    refine ⟨l, before, here, ?_, fun up => ?_⟩
    · rw [if_pos name, (named l).2]
    · rw [if_pos name] at up ⊢
      exact same l before name here up
  · rename_i apart
    rw [if_neg apart]
    exact ⟨l, before, here, rfl, fun _ => rfl⟩

/-- The session of another connection may be changed. -/
theorem leaves_onSession (m : Master L) (apart : other ≠ generation) {f : Session → Session}
    (named : ∀ s, (f s).generation = s.generation) :
    Leaves generation m (m.onSession other f) := by
  refine ⟨Nat.le_refl _, ?_, fun l held here => ⟨l, held, here, rfl, fun _ => rfl⟩⟩
  intro s' held here
  obtain ⟨s, before, rfl⟩ := List.mem_map.mp held
  split at here
  · rename_i changed
    rw [named, changed] at here
    exact absurd here apart
  · rename_i kept
    rw [if_neg kept]
    exact ⟨s, before, .refl s, fun _ => .refl s⟩

theorem leaves_enter (m : Master L) (apart : other ≠ generation) (stage : Stage) :
    Leaves generation m (m.enter other stage) :=
  leaves_onSession m apart fun _ => rfl

/-- When the connection is gone, what its session was about to write does not matter. -/
theorem leaves_of_unconnected (issued : m.generation ≤ m'.generation)
    (sessions : ∀ s' ∈ m'.sessions, ∃ s ∈ m.sessions, s.Rests s')
    (links : ∀ l' ∈ m'.links, l'.generation = generation → ∃ l ∈ m.links,
      l.generation = generation ∧ l.peer.id = l'.peer.id)
    (gone : ¬m'.Connected generation) : Leaves generation m m' where
  issued := issued
  sessions s' held here := by
    obtain ⟨s, before, rests⟩ := sessions s' held
    exact ⟨s, before, rests, fun connected => absurd connected gone⟩
  links l' held here := by
    obtain ⟨l, before, newest, name⟩ := links l' held here
    exact ⟨l, before, newest, name, fun up => absurd ⟨l', held, here, up⟩ gone⟩

theorem onSession_rests (m : Master L) (other : Nat) {f : Session → Session}
    (rests : ∀ s ∈ m.sessions, s.generation = other → s.Rests (f s)) :
    ∀ s' ∈ (m.onSession other f).sessions, ∃ s ∈ m.sessions, s.Rests s' := by
  intro s' member
  obtain ⟨s, before, rfl⟩ := List.mem_map.mp member
  refine ⟨s, before, ?_⟩
  split
  · rename_i here
    exact rests s before here
  · exact .refl s

/-- A connection that is cut has lost its link, or it is another one. -/
theorem leaves_cut (m : Master L) (gone : other = generation → ¬m.Connected generation) :
    Leaves generation m (m.cut other) := by
  by_cases apart : other = generation
  · exact leaves_of_unconnected (Nat.le_refl _) (onSession_rests m other fun s _ _ => s.rests_cut)
      (fun l held here => ⟨l, held, here, rfl⟩) (gone apart)
  · exact leaves_onSession m apart fun _ => rfl

theorem closeLink_rests (m : Master L) (name : String) (generation? : Option Nat) :
    ∀ s' ∈ (m.closeLink name generation?).sessions, ∃ s ∈ m.sessions, s.Rests s' := by
  unfold closeLink
  split
  · exact fun s held => ⟨s, held, .refl s⟩
  split
  · exact onSession_rests _ _ fun s _ _ => s.rests_cut
  · exact fun s held => ⟨s, held, .refl s⟩

theorem leaves_closeLink (m : Master L) (belongs : m.Belongs generation id) (name : String)
    (generation? : Option Nat) : Leaves generation m (m.closeLink name generation?) := by
  unfold closeLink
  split
  · exact .refl m
  rename_i l found
  obtain ⟨held, here⟩ := link_of_find found
  split
  · refine Leaves.trans ?_ ((leaves_cut _ ?_).trans (leaves_recount _))
    · refine leaves_onLink m name (fun _ => ⟨rfl, rfl⟩) ?_
      intro l' _ _ _ up
      simp [Link.isConnected, Link.disconnect] at up
    · rintro newest ⟨l', held', here', up⟩
      obtain ⟨l₀, before, rfl⟩ := List.mem_map.mp held'
      -- The link that was given up is the only one with the generation.
      have mine : l₀.peer.id = name := by
        have owner := belongs.links l held newest
        by_contra apart
        rw [if_neg apart] at here'
        exact apart ((belongs.links l₀ before here').trans (owner.symm.trans here))
      rw [if_pos mine] at up
      simp [Link.isConnected, Link.disconnect] at up
  · exact .refl m

/-- A session that ends, or loses its connection, writes nothing else. -/
theorem endSession_rests (m : Master L) (other : Nat) (fault : Option Fault) :
    ∀ s' ∈ (m.endSession other fault).sessions, ∃ s ∈ m.sessions, s.Rests s' := by
  have ends : ∀ s : Session,
      s.Rests { s with stage := .ended fault, connection := s.connection.cancel.abandon } := by
    intro s
    refine ⟨rfl, rfl, rfl, fun e waits => ?_, .inr ⟨fault, rfl⟩⟩
    simp [Session.waiting, Stage.rest, Connection.abandon] at waits
  unfold endSession
  split
  · exact fun s held => ⟨s, held, .refl s⟩
  intro s'' member
  obtain ⟨s', between, later⟩ := closeLink_rests _ _ _ s'' member
  obtain ⟨s, before, first⟩ := onSession_rests m other (fun s _ _ => ends s) s' between
  exact ⟨s, before, first.trans later⟩

/-- When its session has ended, a connection is gone. -/
theorem endSession_unconnected (numbered : m.Numbered) (belongs : m.Belongs generation id)
    (found : m.session? generation = some s) (fault : Option Fault) :
    ¬(m.endSession generation fault).Connected generation := by
  rintro ⟨l', member, newest, up⟩
  obtain ⟨held, here⟩ := session_of_find found
  obtain ⟨l, before, continues⟩ := (quiet_endSession m generation fault : Silent m _).links l' member
  have owner := belongs.links l before (continues.generation.symm.trans newest)
  rw [← continues.id, ← belongs.sessions s held here] at owner
  rw [endSession_disconnects m numbered fault found l' member owner newest] at up
  cases up

/-- A session ends, and with it its connection. -/
theorem leaves_endSession (m : Master L) (numbered : m.Numbered)
    (belongs : m.Belongs generation id) (other : Nat) (fault : Option Fault) :
    Leaves generation m (m.endSession other fault) := by
  cases found : m.session? other with
  | none =>
    rw [endSession, found]
    exact .refl m
  | some s =>
    by_cases apart : other = generation
    · subst apart
      have quiet : Silent m (m.endSession other fault) := quiet_endSession m other fault
      refine leaves_of_unconnected quiet.generation ?_ ?_
        (endSession_unconnected numbered belongs found fault)
      · exact endSession_rests m other fault
      · intro l' member newest
        obtain ⟨l, before, continues⟩ := quiet.links l' member
        exact ⟨l, before, continues.generation.symm.trans newest, continues.id.symm⟩
    · have moved : Leaves generation m (m.onSession other fun s =>
          { s with stage := .ended fault, connection := s.connection.cancel.abandon }) :=
        leaves_onSession m apart fun _ => rfl
      rw [endSession, found]
      exact moved.trans (leaves_closeLink _ (belongs.leaves moved) _ _)

theorem leaves_countShipped (m : Master L) (name : String) (count : Nat) :
    Leaves generation m (m.countShipped name count) := by
  refine (leaves_onLink m name (f := Link.recordSent count) ?_ ?_).trans
    (leaves_of_same rfl rfl (Nat.le_refl _))
  · exact fun _ => ⟨rfl, rfl⟩
  · exact fun _ _ _ _ _ => rfl

theorem leaves_stop (m : Master L) : Leaves generation m m.stop := by
  unfold stop
  split
  · exact .refl m
  refine leaves_of_unconnected (Nat.le_refl _) ?_ ?_ ?_
  · intro s' held
    obtain ⟨s, before, rfl⟩ := List.mem_map.mp held
    refine ⟨s, before, ?_⟩
    split
    · exact s.rests_cut
    · exact .refl s
  · intro l' held
    cases held
  · rintro ⟨l', held, -⟩
    cases held

theorem leaves_start (m : Master L) (bind : Except Nat SocketAddress) :
    Leaves generation m (m.start bind).1 := by
  unfold start
  split
  · exact .refl m
  split
  · exact .refl m
  split
  · exact .refl m
  · exact leaves_of_same rfl rfl (Nat.le_refl _)

/-- A link with an older generation than the one that is given out stays as it is, and is not the link
of the peer. -/
theorem register_kept (m : Master L) (peer : Peer) (held : Nat) (fresh : generation ≠ m.generation) :
    ∀ l ∈ (m.register peer held).links, l.generation = generation →
      l ∈ m.links ∧ l.peer.id ≠ peer.id := by
  intro l' member newest
  unfold register at member
  split at member
  · obtain ⟨l, before, rfl⟩ := List.mem_map.mp member
    split at newest
    · exact absurd newest.symm fresh
    · rename_i other
      rw [if_neg other]
      exact ⟨before, other⟩
  · rename_i missing
    rcases List.mem_append.mp member with before | new
    · have other := List.find?_eq_none.mp missing l' before
      exact ⟨before, by simpa using other⟩
    · rw [List.mem_singleton.mp new] at newest
      exact absurd newest.symm fresh

/-- A replica that gets a place leaves the connections of others as they are, and takes over the one
of its own link. -/
theorem leaves_register (m : Master L) (belongs : m.Belongs generation id) (peer : Peer)
    (held : Nat) (fresh : generation ≠ m.generation) :
    Leaves generation m (m.register peer held) := by
  have kept := register_kept m peer held fresh
  have links : ∀ l' ∈ (m.register peer held).links, l'.generation = generation → ∃ l ∈ m.links,
      l.generation = generation ∧ l.peer.id = l'.peer.id ∧ (l'.isConnected → l'.phase = l.phase) :=
    fun l' member newest => ⟨l', (kept l' member newest).1, newest, rfl, fun _ => rfl⟩
  unfold register at kept links ⊢
  split at kept
  · rename_i old found
    obtain ⟨present, here⟩ := link_of_find found
    simp only [found] at links ⊢
    by_cases taken : old.generation = generation
    · refine leaves_of_unconnected (Nat.le_refl _) ?_ ?_ ?_
      · exact onSession_rests m old.generation fun s _ _ => s.rests_cut
      · intro l' member newest
        obtain ⟨l, before, first, name, -⟩ := links l' member newest
        exact ⟨l, before, first, name⟩
      · rintro ⟨l', member, newest, -⟩
        obtain ⟨before, other⟩ := kept l' member newest
        have owner := belongs.links l' before newest
        rw [← belongs.links old present taken, here] at owner
        exact other owner
    · have cut := leaves_onSession m taken (f := fun s =>
        { s with connection := s.connection.cut }) fun _ => rfl
      refine ⟨Nat.le_refl _, fun s' member same => ?_, links⟩
      obtain ⟨s, before, rests, ready⟩ := cut.sessions s' member same
      refine ⟨s, before, rests, ?_⟩
      rintro ⟨l', connected, newest, up⟩
      exact ready ⟨l', (kept l' connected newest).1, newest, up⟩
  · rename_i missing
    simp only [missing] at links ⊢
    exact ⟨Nat.le_refl _, fun s held _ => ⟨s, held, .refl s, fun _ => .refl s⟩, links⟩

/-! ### Steps of another session -/

theorem leaves_write (m : Master L) (numbered : m.Numbered) (belongs : m.Belongs generation id)
    (other : Nat) (message : Message) :
    (∃ m', m.write other message = .error m' ∧ Leaves generation m m') ∨
      m.write other message = .ok (some message) := by
  rcases write_cases m other message with ⟨fault, failed⟩ | wrote
  · exact .inl ⟨_, failed, leaves_endSession m numbered belongs other fault⟩
  · exact .inr wrote

theorem leaves_sendNext (m : Master L) (numbered : m.Numbered) (belongs : m.Belongs generation id)
    (apart : s.generation ≠ generation) (slice : Slice) (e : Entry) (rest : List Entry)
    (count : Nat) : Leaves generation m (m.sendNext s slice e rest count).1 := by
  unfold sendNext
  split
  · exact leaves_endSession m numbered belongs _ _
  rcases leaves_write m numbered belongs s.generation (.entry e) with ⟨m', failed, leaves⟩ | wrote
  · rw [failed]
    exact leaves
  · rw [wrote]
    have moved : Leaves generation m
        (m.onSession s.generation fun s => { s with next := s.next + 1 }) :=
      leaves_onSession m apart fun _ => rfl
    dsimp only
    split
    · exact (moved.trans (leaves_countShipped _ _ _)).trans (leaves_enter _ apart _)
    · exact moved.trans (leaves_enter _ apart _)

/-- A session may have its queue changed, whatever comes into it. -/
theorem quiet_taken (m : Master L) (other : Nat) (later : List Entry) :
    Quiet (fun _ => True) m (m.onSession other fun s =>
      { s with connection := { s.connection with queue := later } }) :=
  quiet_onSession m (fun _ _ _ => ⟨rfl, rfl, fun w => ⟨w, rfl⟩⟩) fun _ _ _ _ => .inr trivial

theorem leaves_takeFresh (m : Master L) (numbered : m.Numbered) (belongs : m.Belongs generation id)
    (apart : s.generation ≠ generation) : Leaves generation m (m.takeFresh s).1 := by
  unfold takeFresh
  split
  · rename_i later _
    have taken : Leaves generation m (m.onSession s.generation fun s =>
        { s with connection := { s.connection with queue := later } }) :=
      leaves_onSession m apart fun _ => rfl
    have quiet := quiet_taken m s.generation later
    have numbered' := numbered.kept quiet.toKept
    exact taken.trans (leaves_sendNext _ numbered' (belongs.leaves taken) apart _ _ _ _)
  · split
    · exact .refl m
    · exact leaves_endSession m numbered belongs _ _

section Steps

variable [LocalLog L]

theorem leaves_readPage (m : Master L) (numbered : m.Numbered) (belongs : m.Belongs generation id)
    (apart : s.generation ≠ generation) : Leaves generation m (m.readPage s) := by
  unfold readPage
  split
  · exact leaves_endSession m numbered belongs _ _
  · exact leaves_enter m apart _
  · exact leaves_enter m apart _

theorem leaves_finishCatchUp (m : Master L) (numbered : m.Numbered)
    (belongs : m.Belongs generation id) (apart : s.generation ≠ generation) :
    Leaves generation m (m.finishCatchUp s) := by
  unfold finishCatchUp
  split
  · exact .refl m
  split
  · exact leaves_endSession m numbered belongs _ _
  split
  · exact leaves_endSession m numbered belongs _ _
  rename_i l found
  obtain ⟨held, here⟩ := link_of_find found
  split
  · rename_i current
    refine ((leaves_onLink m s.replicaId (fun _ => ?_) ?_).trans (leaves_recount _)).trans
      (leaves_enter _ apart _)
    · unfold Link.beginStreaming
      split <;> exact ⟨rfl, rfl⟩
    · intro l' held' here' newest _
      -- The link that becomes streaming has the generation of the other connection.
      have same : l' = l := numbered.link_unique held' held (here'.trans here.symm)
      rw [same, current.1] at newest
      exact absurd newest apart
  · exact leaves_endSession m numbered belongs _ _

/-- A step of another session leaves the connection as it is. -/
theorem leaves_advance (m : Master L) (numbered : m.Numbered) (belongs : m.Belongs generation id)
    (apart : other ≠ generation) : Leaves generation m (m.advance other).1 := by
  unfold advance
  split
  · exact .refl m
  rename_i s found
  obtain ⟨-, rfl⟩ := session_of_find found
  split
  · rename_i welcome _
    rcases leaves_write m numbered belongs s.generation (.welcome welcome) with
      ⟨m', failed, leaves⟩ | wrote
    · rw [failed]
      exact leaves
    · rw [wrote]
      refine Leaves.trans ?_ (leaves_enter _ apart _)
      exact leaves_of_same rfl rfl (Nat.le_refl _)
  · exact leaves_readPage m numbered belongs apart
  · exact leaves_sendNext m numbered belongs apart _ _ _ _
  · exact leaves_enter m apart _
  · exact leaves_finishCatchUp m numbered belongs apart
  · exact leaves_enter m apart _
  · exact leaves_takeFresh m numbered belongs apart
  · exact .refl m

/-! ### What is heard, stored and greeted -/

theorem leaves_acknowledge (m : Master L) (name : String) (offset : Nat) :
    Leaves generation m (m.acknowledge name offset) := by
  unfold acknowledge
  split
  · exact .refl m
  split
  · exact .refl m
  have heard : Leaves generation m (m.onLink name (Link.recordAck offset)) := by
    refine leaves_onLink m name (fun l => (l.recordAck_same offset).symm) fun l _ _ _ _ => ?_
    unfold Link.recordAck
    split
    · rfl
    · split <;> rfl
  dsimp only
  split
  · exact heard.trans (leaves_of_same rfl rfl (Nat.le_refl _))
  · exact heard

theorem leaves_receive (m : Master L) (numbered : m.Numbered) (belongs : m.Belongs generation id)
    (other : Nat) (message : Message) : Leaves generation m (m.receive other message) := by
  unfold receive
  split
  · exact .refl m
  split
  · split
    · exact leaves_acknowledge m _ _
    · exact leaves_onLink m _ (fun _ => ⟨rfl, rfl⟩) fun _ _ _ _ _ => rfl
    · exact leaves_endSession m numbered belongs _ _
    · exact .refl m
  · exact .refl m

/-- A report concerns no session. -/
theorem acknowledge_same (m : Master L) (id : String) (offset : Nat) :
    (m.acknowledge id offset).sessions = m.sessions ∧
      (m.acknowledge id offset).settings = m.settings := by
  unfold acknowledge
  split
  · exact ⟨rfl, rfl⟩
  split
  · exact ⟨rfl, rfl⟩
  dsimp only
  split <;> exact ⟨rfl, rfl⟩

/-- A write that is stored concerns no connection yet. -/
theorem store_same (m : Master L) (payload : Bytes) (metadata : Option Bytes) :
    (m.store payload metadata).1.links = m.links ∧
      (m.store payload metadata).1.sessions = m.sessions ∧
      (m.store payload metadata).1.generation = m.generation := by
  unfold store
  split
  · exact ⟨rfl, rfl, rfl⟩
  split
  · exact ⟨rfl, rfl, rfl⟩
  · split <;> exact ⟨rfl, rfl, rfl⟩

theorem leaves_store (m : Master L) (payload : Bytes) (metadata : Option Bytes) :
    Leaves generation m (m.store payload metadata).1 := by
  obtain ⟨links, sessions, issued⟩ := store_same m payload metadata
  exact leaves_of_same links sessions (Nat.le_of_eq issued.symm)

theorem leaves_openSession (m : Master L) (h : Hello) (fresh : generation ≠ m.generation) :
    Leaves generation m (m.openSession h) := by
  refine ⟨Nat.le_refl _, ?_, fun l held here => ⟨l, held, here, rfl, fun _ => rfl⟩⟩
  intro s' member newest
  rcases List.mem_append.mp member with before | new
  · exact ⟨s', before, .refl s', fun _ => .refl s'⟩
  · rw [List.mem_singleton.mp new] at newest
    exact absurd newest.symm fresh

theorem leaves_seat (m : Master L) (belongs : m.Belongs generation id) (peer : Peer) (h : Hello) :
    Leaves generation m (m.seat peer h).1 := by
  have issued := belongs.issued
  have numbered : Leaves generation m { m with generation := m.generation + 1 } :=
    leaves_of_same rfl rfl (Nat.le_succ _)
  have fresh : generation ≠ m.generation + 1 := by omega
  have placed := numbered.trans
    (leaves_register _ (belongs.leaves numbered) peer h.lastOffset fresh)
  have next : ({ m with generation := m.generation + 1 }.register peer h.lastOffset).generation =
      m.generation + 1 := by
    unfold register
    split <;> rfl
  have opened := placed.trans (leaves_openSession _ h (next.symm ▸ fresh))
  unfold seat
  dsimp only
  split
  · exact numbered
  · split
    · exact opened
    · exact opened

/-- Whoever says hello next leaves the connection as it is, or takes it over. -/
theorem leaves_greet (m : Master L) (belongs : m.Belongs generation id) (address : SocketAddress)
    (first : Except Fault Message) : Leaves generation m (m.greet address first).1 := by
  have counted : ∀ (m : Master L) rejection, Leaves generation m (m.countRejection rejection) := by
    intro m rejection
    unfold countRejection
    split
    · exact leaves_of_same rfl rfl (Nat.le_refl _)
    · exact .refl m
  unfold greet
  split
  · exact counted m _
  rename_i peer h _
  split
  · exact counted m _
  have seated := leaves_seat m belongs peer h
  cases seat : m.seat peer h with
  | mk after result =>
    rw [seat] at seated
    cases result with
    | error rejection => exact seated.trans (counted after rejection)
    | ok report => exact seated

end Steps

end Master

end QuorumLog
