import QuorumLog.Proofs.Bystanders

/-! What a step is to one connection: a step of its session, which goes on as the stage says and writes
at most one entry, or something that leaves the connection as it is or brings it down. Everything that
is proved about what a connection carries rests on the cases here. -/

namespace QuorumLog

/-- The entry that a message carries. -/
def Message.entry? : Message → Option Entry
  | .entry e => some e
  | _ => none

/-- The stages before new entries are handed over: what is written then comes from the log alone. -/
def Stage.isEarly : Stage → Bool
  | .welcoming _ | .reading | .sending .page _ _ | .finishing => true
  | _ => false

/-- The entry that the next step of a session is to write, if it is to write one. -/
def Session.upcoming? (s : Session) : Option Entry :=
  match s.stage with
  | .sending _ rest _ => rest.head?
  | .streaming => s.connection.queue.head?
  | _ => none

namespace Master

variable {L : Type} {m m' m'' : Master L} {given : Entry → Prop} {generation : Nat} {id : String}
variable {s s' : Session}

theorem Belongs.kept (belongs : m.Belongs generation id) (kept : Kept given m m') :
    m'.Belongs generation id where
  issued := Nat.le_trans belongs.issued kept.generation
  links l' held here := by
    obtain ⟨l, before, continues⟩ := kept.links l' held
    rw [continues.id]
    exact belongs.links l before (continues.generation.symm.trans here)
  sessions s' held here := by
    obtain ⟨s, before, continues⟩ := kept.sessions s' held
    rw [continues.replicaId]
    exact belongs.sessions s before (continues.generation.symm.trans here)

/-! ### Steps that leave the log alone -/

/-- A step that touches neither the log nor the entry that waits to be announced, and forgets no
session. -/
structure Steady (before after : Master L) : Prop where
  numbered : after.Numbered
  log : after.log = before.log
  unannounced : after.unannounced = before.unannounced
  sessions : before.sessions.map (·.generation) <+: after.sessions.map (·.generation)

theorem steady_of_quiet (numbered : m.Numbered) {q : Quorum}
    (quiet : Quiet given { m with quorum := q } m') : Steady m m' where
  numbered := Numbered.kept (m := { m with quorum := q }) (numbered.same rfl rfl rfl) quiet.toKept
  log := quiet.log
  unannounced := quiet.unannounced
  sessions := by rw [quiet.generations]

section Steps

variable [LocalLog L]

theorem steady_acknowledge (numbered : m.Numbered) (name : String) (offset : Nat) :
    Steady m (m.acknowledge name offset) := by
  rcases acknowledge_cases m numbered name offset with ⟨quiet, -⟩ | ⟨l, -, -, -, -, -, quiet⟩
  · exact steady_of_quiet numbered quiet
  · have recorded := numbered_onLink numbered name (Link.recordAck_same offset)
    have steady := steady_of_quiet recorded quiet
    exact ⟨steady.numbered, steady.log, steady.unannounced, steady.sessions⟩

theorem steady_receive (numbered : m.Numbered) (generation : Nat) (message : Message) :
    Steady m (m.receive generation message) := by
  rcases receive_cases m generation message with ⟨s, -, offset, -, -, -, same⟩ | ⟨-, quiet⟩
  · rw [same]
    exact steady_acknowledge numbered s.replicaId offset
  · exact steady_of_quiet numbered quiet

theorem steady_greet (numbered : m.Numbered) (address : SocketAddress)
    (first : Except Fault Message) : Steady m (m.greet address first).1 := by
  rcases greet_cases m address first with ⟨rejection, -, quiet⟩ | ⟨h, report, -, -, -, seated⟩
  · exact steady_of_quiet numbered quiet
  · refine ⟨numbered.seated seated, seated.log, seated.unannounced, ?_⟩
    rw [seated.generations]
    exact List.prefix_append _ _

/-- A step of a session is quiet, up to the credit that goes with a welcome. -/
theorem quiet_step (m : Master L) (numbered : m.Numbered) (generation : Nat) :
    ∃ q given, Quiet given { m with quorum := q } (m.advance generation).1 := by
  rcases numbered.listens_or_welcomes generation with listens | ⟨s, found, welcoming⟩
  · exact ⟨m.quorum, _, (quiet_advance m listens).1⟩
  · rcases advance_welcome m found welcoming with ⟨fault, failed⟩ | ⟨welcome, wrote⟩
    · rw [failed]
      exact ⟨m.quorum, fun _ => False, quiet_endSession m _ _⟩
    · rw [wrote]
      exact ⟨_, fun _ => False, quiet_welcomed m s⟩

theorem steady_advance (numbered : m.Numbered) (generation : Nat) :
    Steady m (m.advance generation).1 := by
  obtain ⟨q, given, quiet⟩ := quiet_step m numbered generation
  exact steady_of_quiet numbered quiet

theorem Belongs.advance (belongs : m.Belongs generation id) (numbered : m.Numbered) (other : Nat) :
    (m.advance other).1.Belongs generation id := by
  obtain ⟨q, given, quiet⟩ := quiet_step m numbered other
  exact Belongs.kept (m := { m with quorum := q })
    ⟨belongs.issued, belongs.links, belongs.sessions⟩ quiet.toKept

end Steps

/-! ### Steps of the session itself -/

section Session

variable [LocalLog L]

/-- How a session goes on: what becomes of it, the entry that it writes, and whether its link becomes
streaming with that. -/
inductive Goes (m : Master L) (s : Session) : Session → Option Entry → Bool → Prop
  | welcomed {welcome : Welcome} (stage : s.stage = .welcoming welcome) :
      Goes m s { s with stage := .reading } none false
  | exhausted (stage : s.stage = .reading) :
      Goes m s { s with stage := .finishing } none false
  | page {page : List Entry} {count : Nat} (stage : s.stage = .reading)
      (read : LocalLog.read m.log s.next m.settings.batchSize = .ok page) :
      Goes m s { s with stage := .sending .page page count } none false
  | wrote {slice : Slice} {e : Entry} {rest : List Entry} {count : Nat}
      (stage : s.stage = .sending slice (e :: rest) count) (due : e.offset = s.next) :
      Goes m s { s with
        next := s.next + 1
        stage := if rest.isEmpty then slice.after else .sending slice rest count } (some e) false
  | through {slice : Slice} {count : Nat} (stage : s.stage = .sending slice [] count) :
      Goes m s { s with stage := slice.after } none false
  | begins {tail : List Entry} (stage : s.stage = .finishing) (idle : m.unannounced = none)
      (read : LocalLog.readTail m.log s.next = .ok tail) :
      Goes m s { s with stage := sendingStage .tail tail } none true
  | completed (stage : s.stage = .completing) :
      Goes m s { s with stage := .streaming } none false
  | fresh {e : Entry} {later : List Entry} (stage : s.stage = .streaming)
      (queue : s.connection.queue = e :: later) (due : e.offset = s.next) :
      Goes m s { s with
        next := s.next + 1
        stage := .streaming
        connection := { s.connection with queue := later } } (some e) false

omit [LocalLog L] in
theorem sendingStage_late (tail : List Entry) : (sendingStage .tail tail).isEarly = false := by
  unfold sendingStage
  split <;> rfl

omit [LocalLog L] in
theorem sendingStage_rest (tail : List Entry) : (sendingStage .tail tail).rest = tail := by
  unfold sendingStage
  split
  · rename_i none
    exact (List.isEmpty_iff.mp none).symm
  · rfl

theorem Goes.takes {frame : Option Entry} {begun : Bool} (goes : m.Goes s s' frame begun) :
    s'.connection.takes = s.connection.takes := by
  cases goes <;> rfl

/-- A session that reads the log goes on doing so, until its link becomes streaming. -/
theorem Goes.early {frame : Option Entry} (goes : m.Goes s s' frame false) (early : s.stage.isEarly) :
    s'.stage.isEarly ∧ s'.connection = s.connection := by
  cases goes with
  | welcomed | exhausted | page => exact ⟨rfl, rfl⟩
  | @wrote slice e rest count stage due =>
    rw [stage] at early
    cases slice with
    | page => exact ⟨by dsimp only; split <;> rfl, rfl⟩
    | tail | fresh => cases early
  | @through slice count stage =>
    rw [stage] at early
    cases slice with
    | page => exact ⟨rfl, rfl⟩
    | tail | fresh => cases early
  | completed stage => rw [stage] at early; cases early
  | fresh stage => rw [stage] at early; cases early

/-- A session to which entries are handed writes what it was about to write. -/
theorem Goes.late {frame : Option Entry} (goes : m.Goes s s' frame false)
    (late : s.stage.isEarly = false) :
    s'.stage.isEarly = false ∧ frame.toList ++ s'.waiting = s.waiting := by
  cases goes with
  | welcomed stage | exhausted stage | page stage => rw [stage] at late; cases late
  | @wrote slice e rest count stage due =>
    rw [stage] at late
    refine ⟨?_, ?_⟩
    · cases slice with
      | page => cases late
      | tail | fresh => dsimp only; split <;> rfl
    · rw [Session.waiting, Session.waiting, stage]
      cases rest with
      | nil => cases slice <;> rfl
      | cons => rfl
  | @through slice count stage =>
    rw [stage] at late
    refine ⟨?_, ?_⟩
    · cases slice with
      | page => cases late
      | tail | fresh => rfl
    · rw [Session.waiting, Session.waiting, stage]
      cases slice <;> rfl
  | completed stage =>
    refine ⟨rfl, ?_⟩
    rw [Session.waiting, Session.waiting, stage]
    rfl
  | fresh stage queue due =>
    refine ⟨rfl, ?_⟩
    rw [Session.waiting, Session.waiting, stage, queue]
    rfl

/-- The session of a generation has become another one, and its link is the same, or has become
streaming if it was catching up. -/
structure Becomes (generation : Nat) (s' : Session) (begun : Bool) (before after : Master L) :
    Prop where
  session : ∀ t ∈ after.sessions, t.generation = generation → t = s'
  links : ∀ l' ∈ after.links, l'.generation = generation → ∃ l ∈ before.links,
    l.generation = generation ∧ (l'.isConnected →
      if begun then l.phase = .catchingUp ∧ l'.phase = .streaming else l'.phase = l.phase)

end Session

section Sessions

/-- Every session of a generation is this one. -/
def Only (m : Master L) (generation : Nat) (s : Session) : Prop :=
  ∀ t ∈ m.sessions, t.generation = generation → t = s

theorem Numbered.only (numbered : m.Numbered) (found : m.session? generation = some s) :
    m.Only generation s := by
  intro t held here
  obtain ⟨held', here'⟩ := session_of_find found
  exact numbered.session_unique held held' (here.trans here'.symm)

theorem Only.onSession (only : m.Only generation s) (f : Session → Session) :
    (m.onSession generation f).Only generation (f s) := by
  intro t' held here
  obtain ⟨t, before, rfl⟩ := List.mem_map.mp held
  split at here
  · rename_i changed
    rw [if_pos changed, only t before changed]
  · rename_i other
    exact absurd here other

theorem session_onSession (m : Master L) (other : Nat) {f : Session → Session}
    (named : ∀ t : Session, (f t).generation = t.generation) (generation : Nat) :
    (m.onSession other f).session? generation =
      (m.session? generation).map fun t => if t.generation = other then f t else t := by
  have same : ((fun t : Session => decide (t.generation = generation)) ∘
      fun t => if t.generation = other then f t else t) =
        fun t => decide (t.generation = generation) := by
    funext t
    simp only [Function.comp_apply]
    split
    · rw [named]
    · rfl
  unfold session?
  rw [onSession, List.find?_map, same]

theorem find_onSession (found : m.session? generation = some s) {f : Session → Session}
    (named : ∀ t : Session, (f t).generation = t.generation) :
    (m.onSession generation f).session? generation = some (f s) := by
  rw [session_onSession m generation named, found, Option.map_some,
    if_pos (session_of_find found).2]

theorem closeLink_stage (m : Master L) (name : String) (generation? : Option Nat) :
    ((m.closeLink name generation?).session? generation).map (·.stage) =
      (m.session? generation).map (·.stage) := by
  unfold closeLink
  split
  · rfl
  split
  · have cut (m : Master L) (other : Nat) : ((m.cut other).session? generation).map (·.stage) =
        (m.session? generation).map (·.stage) := by
      rw [Master.cut, session_onSession m other (f := fun t =>
        { t with connection := t.connection.cut }) fun _ => rfl, Option.map_map]
      refine Option.map_congr fun t _ => ?_
      simp only [Function.comp_apply]
      split <;> rfl
    exact cut _ _
  · rfl

/-- A session that ends is over, for the reason that is given. -/
theorem endSession_stage (found : m.session? generation = some s) (fault : Option Fault) :
    ((m.endSession generation fault).session? generation).map (·.stage) = some (.ended fault) := by
  rw [endSession, found]
  refine (closeLink_stage _ _ _).trans ?_
  have ended := find_onSession found (f := fun t =>
    { t with stage := .ended fault, connection := t.connection.cancel.abandon }) fun _ => rfl
  exact congrArg (Option.map Session.stage) ended

/-- Nothing changes but the session and what a link counts. -/
theorem becomes_of_leaves {mid : Master L} (only : m'.Only generation s')
    (leaves : Leaves generation mid m'') (before : mid.links = m.links)
    (after : m'.links = m''.links) : Becomes generation s' false m m' := by
  refine ⟨only, fun l' held here => ?_⟩
  obtain ⟨l, present, newest, -, same⟩ := leaves.links l' (after ▸ held) here
  exact ⟨l, before ▸ present, newest, same⟩

theorem becomes_of_only (only : m'.Only generation s') (links : m'.links = m.links) :
    Becomes generation s' false m m' :=
  becomes_of_leaves only (.refl m) rfl links

/-- The next entry is written, or the session ends. -/
theorem sendNext_cases (numbered : m.Numbered)
    (found : m.session? s.generation = some s') (slice : Slice) (e : Entry) (rest : List Entry)
    (count : Nat) :
    (∃ fault, m.sendNext s slice e rest count = (m.endSession s.generation fault, none)) ∨
    (e.offset = s.next ∧ (m.sendNext s slice e rest count).2 = some (.entry e) ∧
      Becomes s.generation
        { s' with
          next := s'.next + 1
          stage := if rest.isEmpty then slice.after else .sending slice rest count } false m
        (m.sendNext s slice e rest count).1) := by
  unfold sendNext
  split
  · exact .inl ⟨_, rfl⟩
  rename_i due
  rcases write_cases m s.generation (.entry e) with ⟨fault, failed⟩ | wrote
  · rw [failed]
    exact .inl ⟨fault, rfl⟩
  · rw [wrote]
    refine .inr ⟨Decidable.not_not.mp due, ?_⟩
    have only := (numbered.only found).onSession fun s => { s with next := s.next + 1 }
    dsimp only
    split
    · have counted : (countShipped (m.onSession s.generation fun s => { s with next := s.next + 1 })
          s.replicaId count).Only _ _ := only
      have leaves : Leaves s.generation _ (countShipped (m.onSession s.generation fun s =>
          { s with next := s.next + 1 }) s.replicaId count) := leaves_countShipped _ _ _
      exact ⟨rfl, becomes_of_leaves (counted.onSession fun s => { s with stage := slice.after })
        leaves rfl rfl⟩
    · exact ⟨rfl, becomes_of_only
        (only.onSession fun s => { s with stage := .sending slice rest count }) rfl⟩

end Sessions

section Yields

variable [LocalLog L]

/-- What a step of a session comes to: it leaves the connection as it is, or brings it down, and then
writes no entry; or the session goes on. -/
def Yields (generation : Nat) (s : Session) (m : Master L)
    (result : Master L × Option Message) : Prop :=
  (Leaves generation m result.1 ∧ result.2.bind Message.entry? = none) ∨
    ∃ s' begun, m.Goes s s' (result.2.bind Message.entry?) begun ∧
      Becomes generation s' begun m result.1

theorem yields_endSession (numbered : m.Numbered) (belongs : m.Belongs generation id)
    (fault : Option Fault) : Yields generation s m (m.endSession generation fault, none) :=
  .inl ⟨leaves_endSession m numbered belongs generation fault, rfl⟩

/-- A session that goes to another stage, and nothing else. -/
theorem yields_enter (numbered : m.Numbered) (found : m.session? generation = some s)
    {stage : Stage} {message : Option Message} (silent : message.bind Message.entry? = none)
    (goes : m.Goes s { s with stage } none false) :
    Yields generation s m (m.enter generation stage, message) := by
  refine .inr ⟨_, _, silent.symm ▸ goes, becomes_of_only ?_ rfl⟩
  exact (numbered.only found).onSession fun s => { s with stage }

theorem yields_readPage (numbered : m.Numbered) (belongs : m.Belongs generation id)
    (found : m.session? generation = some s) (stage : s.stage = .reading) :
    Yields generation s m (m.readPage s, none) := by
  obtain ⟨-, rfl⟩ := session_of_find found
  unfold readPage
  split
  · exact yields_endSession numbered belongs _
  · exact yields_enter numbered found rfl (.exhausted stage)
  · rename_i page _ read
    exact yields_enter numbered found rfl (.page stage read)

theorem yields_finishCatchUp (numbered : m.Numbered) (belongs : m.Belongs generation id)
    (found : m.session? generation = some s) (stage : s.stage = .finishing) :
    Yields generation s m (m.finishCatchUp s, none) := by
  obtain ⟨held, rfl⟩ := session_of_find found
  unfold finishCatchUp
  split
  · exact .inl ⟨.refl m, rfl⟩
  rename_i idle
  split
  · exact yields_endSession numbered belongs _
  rename_i tail read
  split
  · exact yields_endSession numbered belongs _
  rename_i l present
  obtain ⟨linked, here⟩ := link_of_find present
  split
  · rename_i current
    refine .inr ⟨_, _, .begins stage (by simpa using idle) read, ?_, ?_⟩
    · exact (numbered.only found).onSession fun s => { s with stage := sendingStage .tail tail }
    · intro l' member newest
      obtain ⟨l₀, before, rfl⟩ := List.mem_map.mp member
      -- The link of the connection is the one with the name of the replica, and no other.
      have same : l₀ = l := by
        have first : l₀.generation = s.generation := by
          rw [← newest]
          split
          · unfold Link.beginStreaming
            split <;> rfl
          · rfl
        refine numbered.link_unique before linked ?_
        rw [belongs.links l₀ before first, belongs.links l linked current.1]
      refine ⟨l, linked, current.1, fun _ => ?_⟩
      rw [same, if_pos here, if_pos rfl]
      exact ⟨current.2, by rw [Link.beginStreaming, if_pos current.2]⟩
  · exact yields_endSession numbered belongs _

theorem yields_sendNext (numbered : m.Numbered) (belongs : m.Belongs generation id)
    (found : m.session? generation = some s) {slice : Slice} {e : Entry} {rest : List Entry}
    {count : Nat} (stage : s.stage = .sending slice (e :: rest) count) :
    Yields generation s m (m.sendNext s slice e rest count) := by
  obtain ⟨-, rfl⟩ := session_of_find found
  rcases sendNext_cases numbered found slice e rest count with ⟨fault, failed⟩ | ⟨due, wrote, becomes⟩
  · rw [failed]
    exact yields_endSession numbered belongs fault
  · refine .inr ⟨_, _, ?_, becomes⟩
    rw [wrote]
    exact .wrote stage due

theorem yields_takeFresh (numbered : m.Numbered) (belongs : m.Belongs generation id)
    (found : m.session? generation = some s) (stage : s.stage = .streaming) :
    Yields generation s m (m.takeFresh s) := by
  obtain ⟨held, rfl⟩ := session_of_find found
  unfold takeFresh
  split
  · rename_i e later queue
    have taking : ∀ t ∈ m.sessions, t.generation = s.generation →
        t.Rests { t with connection := { t.connection with queue := later } } := by
      intro t present here
      refine ⟨rfl, rfl, rfl, fun x waits => ?_, .inl rfl⟩
      rw [numbered.only found t present here] at waits ⊢
      rcases List.mem_append.mp waits with written | queued
      · exact List.mem_append_left _ written
      · exact List.mem_append_right _ (queue ▸ List.mem_cons_of_mem e queued)
    have quiet := quiet_taken m s.generation later
    have numbered' := numbered.kept quiet.toKept
    have found' := find_onSession found (f := fun s =>
      { s with connection := { s.connection with queue := later } }) fun _ => rfl
    rcases sendNext_cases numbered' found' .fresh e [] 1 with ⟨fault, failed⟩ | ⟨due, wrote, becomes⟩
    · rw [failed]
      have ended := quiet.trans (quiet_endSession _ s.generation fault)
      refine .inl ⟨leaves_of_unconnected ended.generation ?_ ?_
        (endSession_unconnected numbered' (belongs.kept quiet.toKept) found' fault), rfl⟩
      · intro s'' member
        obtain ⟨s', between, later'⟩ := endSession_rests _ s.generation fault s'' member
        obtain ⟨t, before, first⟩ := onSession_rests m s.generation taking s' between
        exact ⟨t, before, first.trans later'⟩
      · intro l' member newest
        obtain ⟨l, before, continues⟩ := ended.links l' member
        exact ⟨l, before, continues.generation.symm.trans newest, continues.id.symm⟩
    · refine .inr ⟨_, _, ?_, ⟨becomes.session, becomes.links⟩⟩
      rw [wrote]
      exact .fresh stage queue due
  · split
    · exact .inl ⟨.refl m, rfl⟩
    · exact yields_endSession numbered belongs none

/-- A step of the session of a connection. -/
theorem advance_yields (numbered : m.Numbered) (belongs : m.Belongs generation id)
    (found : m.session? generation = some s) : Yields generation s m (m.advance generation) := by
  unfold advance
  rw [found]
  dsimp only
  split
  · rename_i welcome stage
    rcases write_cases m generation (.welcome welcome) with ⟨fault, failed⟩ | wrote
    · rw [failed]
      exact yields_endSession numbered belongs fault
    · rw [wrote]
      refine .inr ⟨_, _, .welcomed stage, becomes_of_only ?_ rfl⟩
      obtain ⟨-, rfl⟩ := session_of_find found
      exact (numbered.only found).onSession fun s => { s with stage := .reading }
  · rename_i stage
    exact yields_readPage numbered belongs found stage
  · rename_i stage
    exact yields_sendNext numbered belongs found stage
  · rename_i stage
    exact yields_enter numbered found rfl (.through stage)
  · rename_i stage
    exact yields_finishCatchUp numbered belongs found stage
  · rename_i stage
    exact yields_enter numbered found rfl (.completed stage)
  · rename_i stage
    exact yields_takeFresh numbered belongs found stage
  · exact .inl ⟨.refl m, rfl⟩

/-- A session that is to write an entry tries to, as it is or with the entry taken out of what was
handed over. -/
theorem advance_upcoming (numbered : m.Numbered) (belongs : m.Belongs generation id)
    (found : m.session? generation = some s) {e : Entry} (upcoming : s.upcoming? = some e) :
    ∃ (ready : Master L) (s' : Session) (slice : Slice) (rest : List Entry) (count : Nat),
      ready.Numbered ∧ ready.Belongs generation id ∧ ready.session? generation = some s' ∧
      s'.next = s.next ∧ m.advance generation = ready.sendNext s slice e rest count := by
  unfold Session.upcoming? at upcoming
  unfold advance
  rw [found]
  split at upcoming
  · rename_i slice rest count stage
    cases rest with
    | nil => cases upcoming
    | cons first rest =>
      cases upcoming
      simp only [stage]
      exact ⟨m, s, slice, rest, count, numbered, belongs, found, rfl, rfl⟩
  · rename_i stage
    cases queue : s.connection.queue with
    | nil => rw [queue] at upcoming; cases upcoming
    | cons first later =>
      rw [queue] at upcoming
      cases upcoming
      obtain ⟨-, rfl⟩ := session_of_find found
      simp only [stage, takeFresh, queue]
      have quiet := quiet_taken m s.generation later
      have found' := find_onSession found (f := fun s =>
        { s with connection := { s.connection with queue := later } }) fun _ => rfl
      exact ⟨_, _, .fresh, [], 1, numbered.kept quiet.toKept, belongs.kept quiet.toKept, found', rfl,
        rfl⟩
  · cases upcoming

/-! ### A missing offset -/

/-- The connection of a generation has failed: its session is over because of a fault, and its link
is given up. -/
structure Fails (generation : Nat) (fault : Fault) (after : Master L) : Prop where
  stage : (after.session? generation).map (·.stage) = some (.ended (some fault))
  gone : ¬after.Connected generation

omit [LocalLog L] in
theorem fails_endSession (numbered : m.Numbered) (belongs : m.Belongs generation id)
    (found : m.session? generation = some s) (fault : Fault) :
    Fails generation fault (m.endSession generation (some fault)) :=
  ⟨endSession_stage found _, endSession_unconnected numbered belongs found _⟩

/-- An entry that is not the next one is not written, and the connection fails. -/
theorem advance_gap (numbered : m.Numbered) (belongs : m.Belongs generation id)
    (found : m.session? generation = some s) {e : Entry} (upcoming : s.upcoming? = some e)
    (gap : e.offset ≠ s.next) : (m.advance generation).2 = none ∧
      Fails generation (.replication (.shippingGap s.replicaId s.next e.offset))
        (m.advance generation).1 := by
  obtain ⟨-, rfl⟩ := session_of_find found
  obtain ⟨ready, s', slice, rest, count, numbered', belongs', found', -, same⟩ :=
    advance_upcoming numbered belongs found upcoming
  rw [same, sendNext, if_pos gap]
  exact ⟨rfl, fails_endSession numbered' belongs' found' _⟩

end Yields

end Master

end QuorumLog
