import QuorumLog.Proofs.MasterRuns
import QuorumLog.Proofs.Tracking

/-! What a master still does when it was stopped. It takes no write, and it forgets its links and is not
started again. A handshake is the one thing that it still goes through with: a replica whose hello comes
late gets a link, and its welcome is credited. Whatever waits or is empty stays so unless that happens. -/

namespace QuorumLog

/-! ### Who makes a write durable -/

namespace Quorum

variable {q : Quorum} {allowed : Source → Prop} {cell low high offset : Nat} {source : Source}

/-- A write waits and everyone counted for it is allowed, or there are enough who are allowed. -/
inductive Supported (allowed : Source → Prop) (cell : Nat) (q : Quorum) : Prop
  | waiting {w : PendingWrite} (held : w ∈ q.pending) (here : w.cell = cell)
      (counted : ∀ s ∈ w.sources, allowed s)
  | enough {sources : List Source} (distinct : sources.Nodup)
      (many : q.required ≤ sources.length) (all : ∀ s ∈ sources, allowed s)

theorem Supported.creditRange (consistent : q.Consistent) (supported : q.Supported allowed cell)
    (granted : allowed source) : (q.creditRange low high source).1.Supported allowed cell := by
  cases supported with
  | enough distinct many all => exact .enough distinct many all
  | @waiting w held here counted =>
    by_cases completes : q.completes low high source w
    · obtain ⟨-, -, missing, many⟩ := completes_iff.mp completes
      have distinct := List.nodup_cons.mpr ⟨missing, (consistent.sources w held).1⟩
      exact .enough distinct many (List.forall_mem_cons.mpr ⟨granted, counted⟩)
    · refine .waiting (mem_creditRange.mpr ⟨w, held, completes, rfl⟩) (by simpa using here) ?_
      intro s member
      rcases PendingWrite.mem_creditWithin.mp member with before | ⟨rfl, -⟩
      · exact counted s before
      · exact granted

theorem Supported.setWatermark (supported : q.Supported allowed cell) :
    (q.setWatermark source offset).Supported allowed cell := by
  cases supported with
  | waiting held here counted => exact .waiting held here counted
  | enough distinct many all => exact .enough distinct many all

theorem Supported.credit (consistent : q.Consistent) (supported : q.Supported allowed cell)
    (granted : allowed source) : (q.credit offset source).1.Supported allowed cell := by
  rcases credit_cases q offset source with ⟨-, same⟩ | ⟨-, range⟩
  · rwa [same]
  · rw [range]
    exact supported.setWatermark.creditRange (consistent_setWatermark consistent) granted

theorem Supported.rebase (consistent : q.Consistent) (supported : q.Supported allowed cell)
    (granted : allowed source) : (q.rebase source offset).1.Supported allowed cell :=
  supported.setWatermark.creditRange (consistent_setWatermark consistent) granted

theorem Supported.refuse (supported : q.Supported allowed cell) (reason : String) :
    (q.refuse reason).1.Supported allowed cell := by
  cases supported with
  | waiting held here counted => exact .waiting held here counted
  | enough distinct many all => exact .enough distinct many all

/-- A new write behind all that wait changes nothing for one of them, and neither does the master's
credit for it, as the master vouches for each of them already. -/
theorem Supported.announce (consistent : q.Consistent) (supported : q.Supported allowed cell)
    (last : ∀ w ∈ q.pending, w.offset < offset) (own : ∀ w ∈ q.pending, .master ∈ w.sources) :
    ((q.track offset).1.credit offset .master).1.Supported allowed cell := by
  cases supported with
  | enough distinct many all =>
    have credited : q.Keeps ((q.track offset).1.credit offset .master).1 :=
      (keeps_track q offset).trans credit_grants.toKeeps
    exact .enough distinct (credited.required.symm ▸ many) all
  | @waiting w held here counted =>
    have waiting : (q.track offset).1.Supported allowed cell := by
      rw [track_of_last last]
      exact .waiting (List.mem_append_left _ held) here counted
    exact waiting.credit (consistent_track consistent last) (counted .master (own w held))

/-- Whatever is durable has enough distinct sources who are allowed. -/
theorem Supported.sources (consistent : q.Consistent) (supported : q.Supported allowed cell)
    (durable : q.board.state cell = .durable) :
    ∃ sources : List Source, sources.Nodup ∧ q.required ≤ sources.length ∧
      ∀ s ∈ sources, allowed s := by
  cases supported with
  | enough distinct many all => exact ⟨_, distinct, many, all⟩
  | @waiting w held here counted =>
    have opened := consistent.opened w held
    simp [← here, Board.state, opened, Cell.opened] at durable

/-- A write waits for as long as too few are allowed. -/
theorem Supported.pending (consistent : q.Consistent) (supported : q.Supported allowed cell)
    (few : List Source) (short : few.length < q.required) (all : ∀ s, allowed s → s ∈ few) :
    q.board.state cell = .pending := by
  cases supported with
  | @waiting w held here counted =>
    have opened := consistent.opened w held
    simp [← here, Board.state, opened, Cell.opened]
  | @enough sources distinct many allowed =>
    have length := (distinct.subperm fun s member => all s (allowed s member)).length_le
    omega

end Quorum

namespace Master

variable {L : Type} {m m' m'' : Master L} {a : Move} {names : List String}

/-! ### What every step lets be -/

/-- No replica has a link, and none is counted. -/
structure Deserted (m : Master L) : Prop where
  links : m.links = []
  connected : m.tally.connected = 0
  streaming : m.tally.streaming = 0

/-- Nobody new gets a link, and a master that was stopped remains so. -/
structure Persists (before after : Master L) : Prop where
  stopped : after.stopped = before.stopped
  names : ∀ l' ∈ after.links, ∃ l ∈ before.links, l'.peer.id = l.peer.id
  deserted : before.Deserted → after.Deserted

theorem Persists.refl (m : Master L) : Persists m m := ⟨rfl, fun l held => ⟨l, held, rfl⟩, id⟩

theorem Persists.trans (first : Persists m m') (second : Persists m' m'') : Persists m m'' where
  stopped := second.stopped.trans first.stopped
  names l'' held := by
    obtain ⟨l', held, same⟩ := second.names l'' held
    obtain ⟨l, held, same'⟩ := first.names l' held
    exact ⟨l, held, same.trans same'⟩
  deserted := second.deserted ∘ first.deserted

theorem persists_of_same (stopped : m'.stopped = m.stopped) (links : m'.links = m.links)
    (connected : m'.tally.connected = m.tally.connected)
    (streaming : m'.tally.streaming = m.tally.streaming) : Persists m m' where
  stopped := stopped
  names l' held := ⟨l', links ▸ held, rfl⟩
  deserted empty := ⟨links.trans empty.links, connected.trans empty.connected,
    streaming.trans empty.streaming⟩

theorem persists_onLink (m : Master L) (id : String) {f : Link → Link}
    (same : ∀ l : Link, (f l).peer = l.peer) : Persists m (m.onLink id f) where
  stopped := rfl
  names l' held := by
    obtain ⟨l, before, rfl⟩ := List.mem_map.mp held
    refine ⟨l, before, ?_⟩
    split
    · rw [same l]
    · rfl
  deserted empty := ⟨by simp [onLink, empty.links], empty.connected, empty.streaming⟩

theorem persists_recount (m : Master L) : Persists m m.recount where
  stopped := rfl
  names l' held := ⟨l', held, rfl⟩
  deserted empty := ⟨empty.links, by simp [recount, connectedCount, empty.links],
    by simp [recount, streamingCount, empty.links]⟩

theorem persists_onSession (m : Master L) (generation : Nat) (f : Session → Session) :
    Persists m (m.onSession generation f) := persists_of_same rfl rfl rfl rfl

theorem persists_closeLink (m : Master L) (id : String) (generation? : Option Nat) :
    Persists m (m.closeLink id generation?) := by
  unfold closeLink
  split
  · exact .refl m
  split
  · have disconnected := persists_onLink m id (f := Link.disconnect) fun _ => rfl
    exact (disconnected.trans (persists_onSession _ _ _)).trans (persists_recount _)
  · exact .refl m

theorem persists_endSession (m : Master L) (generation : Nat) (fault : Option Fault) :
    Persists m (m.endSession generation fault) := by
  unfold endSession
  split
  · exact .refl m
  · exact (persists_onSession m _ _).trans (persists_closeLink _ _ _)

theorem persists_countShipped (m : Master L) (id : String) (count : Nat) :
    Persists m (m.countShipped id count) :=
  (persists_onLink m id (f := Link.recordSent count) fun _ => rfl).trans
    (persists_of_same rfl rfl rfl rfl)

theorem persists_enter (m : Master L) (generation : Nat) (stage : Stage) :
    Persists m (m.enter generation stage) := persists_onSession m _ _

theorem persists_sendNext (m : Master L) (s : Session) (slice : Slice) (e : Entry)
    (rest : List Entry) (count : Nat) : Persists m (m.sendNext s slice e rest count).1 := by
  unfold sendNext
  split
  · exact persists_endSession m _ _
  rcases write_cases m s.generation (.entry e) with ⟨fault, failed⟩ | wrote
  · rw [failed]
    exact persists_endSession m _ _
  · rw [wrote]
    have moved := persists_onSession m s.generation fun s => { s with next := s.next + 1 }
    dsimp only
    split
    · exact (moved.trans (persists_countShipped _ _ _)).trans (persists_enter _ _ _)
    · exact moved.trans (persists_enter _ _ _)

theorem persists_takeFresh (m : Master L) (s : Session) : Persists m (m.takeFresh s).1 := by
  unfold takeFresh
  split
  · exact (persists_onSession m _ _).trans (persists_sendNext _ _ _ _ _ _)
  · split
    · exact .refl m
    · exact persists_endSession m _ _

theorem persists_welcomed (m : Master L) (s : Session) : Persists m (m.welcomed s) := by
  unfold welcomed
  generalize m.quorum.rebase _ _ = credited
  refine Persists.trans ?_ (persists_enter _ s.generation .reading)
  refine Persists.trans ?_ (persists_recount _)
  exact persists_of_same rfl rfl rfl rfl

theorem persists_announce (m : Master L) : Persists m m.announce.1 := by
  unfold announce
  split
  · exact .refl m
  · exact persists_of_same rfl rfl rfl rfl

variable [LocalLog L]

theorem persists_readPage (m : Master L) (s : Session) : Persists m (m.readPage s) := by
  unfold readPage
  split
  · exact persists_endSession m _ _
  · exact persists_enter m _ _
  · exact persists_enter m _ _

theorem persists_finishCatchUp (m : Master L) (s : Session) : Persists m (m.finishCatchUp s) := by
  unfold finishCatchUp
  split
  · exact .refl m
  split
  · exact persists_endSession m _ _
  split
  · exact persists_endSession m _ _
  split
  · refine ((persists_onLink m _ fun l => ?_).trans (persists_recount _)).trans (persists_enter _ _ _)
    unfold Link.beginStreaming
    split <;> rfl
  · exact persists_endSession m _ _

theorem persists_advance (m : Master L) (generation : Nat) :
    Persists m (m.advance generation).1 := by
  unfold advance
  split
  · exact .refl m
  rename_i s found
  split
  · rename_i welcome stage
    rcases write_cases m generation (.welcome welcome) with ⟨fault, failed⟩ | wrote
    · rw [failed]
      exact persists_endSession m _ _
    · rw [wrote]
      exact persists_welcomed m s
  · exact persists_readPage m s
  · exact persists_sendNext m s _ _ _ _
  · exact persists_enter m _ _
  · exact persists_finishCatchUp m s
  · exact persists_enter m _ _
  · exact persists_takeFresh m s
  · exact .refl m

theorem persists_acknowledge (m : Master L) (id : String) (offset : Nat) :
    Persists m (m.acknowledge id offset) := by
  have recorded := persists_onLink m id fun l => (Link.recordAck_same offset l).1
  unfold acknowledge
  split
  · exact .refl m
  split
  · exact .refl m
  dsimp only
  split
  · exact recorded.trans (persists_of_same rfl rfl rfl rfl)
  · exact recorded

theorem persists_receive (m : Master L) (generation : Nat) (message : Message) :
    Persists m (m.receive generation message) := by
  unfold receive
  split
  · exact .refl m
  split
  · split
    · exact persists_acknowledge m _ _
    · exact persists_onLink m _ fun _ => rfl
    · exact persists_endSession m _ _
    · exact .refl m
  · exact .refl m

omit [LocalLog L] in
theorem persists_start (m : Master L) (bind : Except Nat SocketAddress) :
    Persists m (m.start bind).1 := by
  unfold start
  split
  · exact .refl m
  split
  · exact .refl m
  split
  · exact .refl m
  · exact persists_of_same rfl rfl rfl rfl

theorem persists_store (m : Master L) (payload : Bytes) (metadata : Option Bytes) :
    Persists m (m.store payload metadata).1 := by
  unfold store
  split
  · exact persists_of_same rfl rfl rfl rfl
  split
  · exact .refl m
  split
  · exact persists_of_same rfl rfl rfl rfl
  · exact persists_of_same rfl rfl rfl rfl

/-- A greeting turns a replica away, or it lets it in and says so. -/
theorem admitted_greet (m : Master L) (address : SocketAddress) (first : Except Fault Message) :
    (m.admitted? (.greet address first) = none ∧
      ∀ l' ∈ (m.greet address first).1.links, ∃ l ∈ m.links, l'.peer.id = l.peer.id) ∨
    ∃ id, m.admitted? (.greet address first) = some id ∧
      ∀ l' ∈ (m.greet address first).1.links, l'.peer.id = id ∨ ∃ l ∈ m.links, l'.peer.id = l.peer.id := by
  rcases greet_cases m address first with ⟨rejection, rejected, quiet⟩ | ⟨h, report, rfl, taken, -, seated⟩
  · refine .inl ⟨?_, fun l' held => ?_⟩
    · cases first with
      | error fault => rfl
      | ok message => cases message <;> simp [admitted?, rejected]
    · obtain ⟨l, before, continues⟩ := quiet.links l' held
      exact ⟨l, before, continues.id⟩
  · refine .inr ⟨h.replicaId, by simp [admitted?, taken], fun l' held => ?_⟩
    rcases seated.links l' held with ⟨name, -⟩ | ⟨-, l, before, continues⟩
    · exact .inl name
    · exact .inr ⟨l, before, continues.id⟩

omit [LocalLog L] in
private theorem countRejection_same (m : Master L) (rejection : Rejection) :
    (m.countRejection rejection).stopped = m.stopped ∧
      (m.countRejection rejection).tally.connected = m.tally.connected ∧
      (m.countRejection rejection).tally.streaming = m.tally.streaming := by
  unfold countRejection
  split <;> exact ⟨rfl, rfl, rfl⟩

private theorem seat_same (m : Master L) (peer : Peer) (h : Hello) :
    (m.seat peer h).1.stopped = m.stopped ∧ (m.seat peer h).1.tally = m.tally := by
  have registered (m : Master L) : (m.register peer h.lastOffset).stopped = m.stopped ∧
      (m.register peer h.lastOffset).tally = m.tally := by
    unfold register
    split <;> exact ⟨rfl, rfl⟩
  unfold seat
  dsimp only
  split
  · exact ⟨rfl, rfl⟩
  · split <;> exact registered _

/-- A greeting neither stops a master nor counts its links. -/
theorem greet_same (m : Master L) (address : SocketAddress) (first : Except Fault Message) :
    (m.greet address first).1.stopped = m.stopped ∧
      (m.greet address first).1.tally.connected = m.tally.connected ∧
      (m.greet address first).1.tally.streaming = m.tally.streaming := by
  unfold greet
  split
  · exact countRejection_same m _
  split
  · exact countRejection_same m _
  rename_i peer h _ _ _
  obtain ⟨stopped, tally⟩ := seat_same m peer h
  split
  · rename_i after rejection turned
    rw [turned] at stopped tally
    rw [← stopped, ← tally]
    exact countRejection_same after rejection
  · rename_i after report taken
    rw [taken] at stopped tally
    exact ⟨stopped, congrArg _ tally, congrArg _ tally⟩

/-! ### A master that was stopped -/

/-- It was stopped, and whoever has a link was let in since. -/
structure Closed (names : List String) (m : Master L) : Prop where
  stopped : m.stopped
  links : ∀ l ∈ m.links, l.peer.id ∈ names
  deserted : names = [] → m.Deserted

omit [LocalLog L] in
theorem closed_stop (open_ : m.stopped = false) (names : List String) : m.stop.Closed names := by
  rw [stop, if_neg (by simp [open_])]
  refine ⟨rfl, by simp [recount], fun _ => ⟨rfl, ?_, ?_⟩⟩
  · simp [recount, connectedCount]
  · simp [recount, streamingCount]

omit [LocalLog L] in
theorem Closed.persists (closed : m.Closed names) (persists : Persists m m') : m'.Closed names where
  stopped := persists.stopped ▸ closed.stopped
  links l' held := by
    obtain ⟨l, before, same⟩ := persists.names l' held
    exact same ▸ closed.links l before
  deserted empty := persists.deserted (closed.deserted empty)

/-- A stopped master takes no write, leaves its log alone, and tells the writer at once. -/
theorem Closed.append (closed : m.Closed names) (payload : Bytes) (metadata : Option Bytes) :
    m.append payload metadata = ({ m with quorum := (m.quorum.refuse "master stopped").1 },
      some m.quorum.board.size) := by
  simp [Master.append, store, closed.stopped, refuse, Quorum.refuse]

theorem Closed.greet (closed : m.Closed names) (address : SocketAddress)
    (first : Except Fault Message)
    (known : ∀ id, m.admitted? (.greet address first) = some id → id ∈ names) :
    (m.greet address first).1.Closed names := by
  obtain ⟨stopped, connected, streaming⟩ := greet_same m address first
  have within : ∀ l' ∈ (m.greet address first).1.links, l'.peer.id ∈ names := by
    intro l' held
    rcases admitted_greet m address first with ⟨-, others⟩ | ⟨id, admitted, others⟩
    · obtain ⟨l, before, same⟩ := others l' held
      exact same ▸ closed.links l before
    · rcases others l' held with rfl | ⟨l, before, same⟩
      · exact known _ admitted
      · exact same ▸ closed.links l before
  refine ⟨stopped ▸ closed.stopped, within, fun empty => ?_⟩
  have deserted := closed.deserted empty
  refine ⟨?_, connected.trans deserted.connected, streaming.trans deserted.streaming⟩
  rw [List.eq_nil_iff_forall_not_mem]
  intro l held
  have named := within l held
  rw [empty] at named
  cases named

theorem Closed.move (closed : m.Closed names) (a : Move)
    (known : ∀ id, m.admitted? a = some id → id ∈ names) : (m.move a).Closed names := by
  cases a with
  | append payload metadata =>
    rw [Master.move, closed.append payload metadata]
    exact closed.persists (persists_of_same rfl rfl rfl rfl)
  | store payload metadata => exact closed.persists (persists_store m payload metadata)
  | announce => exact closed.persists (persists_announce m)
  | purge offset => exact closed.persists (persists_of_same rfl rfl rfl rfl)
  | greet address first => exact closed.greet address first known
  | advance generation => exact closed.persists (persists_advance m generation)
  | receive generation message => exact closed.persists (persists_receive m generation message)
  | acknowledge id offset => exact closed.persists (persists_acknowledge m id offset)
  | disconnect id => exact closed.persists (persists_closeLink m id none)
  | endSession generation fault => exact closed.persists (persists_endSession m generation fault)
  | start bind => exact closed.persists (persists_start m bind)
  | stop =>
    rw [Master.move, stop, if_pos closed.stopped]
    exact closed

theorem Closed.play (closed : m.Closed names) (moves : List Move)
    (known : ∀ id ∈ m.admitted moves, id ∈ names) : (m.play moves).Closed names := by
  induction moves generalizing m with
  | nil => exact closed
  | cons a later ih =>
    refine ih (closed.move a fun id admitted => known id ?_) fun id admitted => known id ?_
    · exact List.mem_append_left _ (Option.mem_toList.mpr admitted)
    · exact List.mem_append_right _ admitted

/-! ### Writes that waited -/

section Supported

variable {cell : Nat} {allowed : Source → Prop}

private theorem Closed.credited (closed : m.Closed names) (tracked : m.Tracked)
    (known : ∀ id, m.admitted? a = some id → id ∈ names)
    (all : ∀ id ∈ names, allowed (.replica id)) (supported : m.quorum.Supported allowed cell)
    {q : Quorum} (credited : Credited m a q) : q.Supported allowed cell := by
  cases credited with
  | same same => rwa [same]
  | reported held credit =>
    rw [credit]
    exact supported.credit tracked.consistent (all _ (closed.links _ held))
  | welcomed admitted rebase =>
    rw [rebase]
    exact supported.rebase tracked.consistent (all _ (known _ admitted))

/-- In a stopped master nobody is counted for a write who was not let in since. -/
theorem Closed.supported (closed : m.Closed names) (tracked : m.Tracked) (a : Move)
    (known : ∀ id, m.admitted? a = some id → id ∈ names)
    (all : ∀ id ∈ names, allowed (.replica id)) (supported : m.quorum.Supported allowed cell) :
    (m.move a).quorum.Supported allowed cell := by
  cases a with
  | append payload metadata =>
    rw [Master.move, closed.append payload metadata]
    exact supported.refuse _
  | store payload metadata =>
    rcases store_cases m payload metadata with ⟨-, same⟩ | ⟨reason, log, -, -, quiet⟩ |
      ⟨log, offset, -, -, same⟩
    · rwa [Master.move, same]
    · rw [show (m.move (.store payload metadata)).quorum = _ from quiet.quorum]
      exact supported.refuse reason
    · rwa [Master.move, same]
  | announce =>
    rcases announce_cases m with ⟨-, same⟩ | ⟨e, entry, -, quiet⟩
    · rwa [Master.move, same]
    · rw [show (m.move .announce).quorum = _ from quiet.quorum]
      exact supported.announce tracked.consistent (tracked.stored e entry).2.2 tracked.own
  | purge offset => exact supported
  | _ => exact closed.credited tracked known all supported (credited_move tracked.numbered rfl)

theorem Closed.supported_play [NumberedLog L] [SteadyEnd L] (closed : m.Closed names)
    (tracked : m.Tracked) (moves : List Move) (known : ∀ id ∈ m.admitted moves, id ∈ names)
    (all : ∀ id ∈ names, allowed (.replica id)) (supported : m.quorum.Supported allowed cell) :
    (m.play moves).quorum.Supported allowed cell := by
  induction moves generalizing m with
  | nil => exact supported
  | cons a later ih =>
    have now : ∀ id, m.admitted? a = some id → id ∈ names := fun id admitted =>
      known id (List.mem_append_left _ (Option.mem_toList.mpr admitted))
    exact ih (closed.move a now) (tracked.move a)
      (fun id admitted => known id (List.mem_append_right _ admitted))
      (closed.supported tracked a now all supported)

end Supported

/-- What a stop leaves for good, up to the replicas that were let in later. -/
structure Final (stopped after : Master L) (names : List String) : Prop where
  /-- No write is taken: the log stays, and the writer is told. -/
  refuses : ∀ payload metadata, ∃ write, (after.append payload metadata).2 = some write ∧
    (after.append payload metadata).1.log = after.log ∧
    (after.append payload metadata).1.quorum.board.state write = .failed "master stopped"
  starts : ∀ bind, after.start bind = (after, .error (.stopped .master))
  links : ∀ report ∈ after.replicas, report.id ∈ names
  deserted : names = [] →
    after.replicas = [] ∧ after.tally.connected = 0 ∧ after.tally.streaming = 0
  /-- A write that waited is durable only if enough sources were counted for it or let in. -/
  durable : ∀ w ∈ stopped.quorum.pending, after.quorum.board.state w.cell = .durable →
    ∃ sources : List Source, sources.Nodup ∧ stopped.quorum.required ≤ sources.length ∧
      ∀ s ∈ sources, s ∈ w.sources ∨ ∃ id ∈ names, s = .replica id
  pending : names = [] → ∀ w ∈ stopped.quorum.pending,
    after.quorum.board.state w.cell = .pending

theorem Closed.refuses (closed : m.Closed names) (payload : Bytes) (metadata : Option Bytes) :
    ∃ write, (m.append payload metadata).2 = some write ∧
      (m.append payload metadata).1.log = m.log ∧
      (m.append payload metadata).1.quorum.board.state write = .failed "master stopped" := by
  rw [closed.append payload metadata]
  refine ⟨_, rfl, rfl, ?_⟩
  simp [Quorum.refuse, Board.state, Board.cells_push, Cell.closed]

variable [NumberedLog L] [SteadyEnd L]

/-- A stop is final up to handshakes. The master takes no write and is not started again. As long as it
lets no replica in, nobody has a link and every write that waited waits. A write that became durable
all the same has enough sources, each counted when the master stopped or let in after that. -/
theorem stop_is_final {settings : Settings} {log : L} (created : create settings log = .ok m)
    (before : List Move) (open_ : (m.play before).stopped = false) (later : List Move) :
    Final (m.play before).stop ((m.play before).stop.play later)
      ((m.play before).stop.admitted later) := by
  have tracked : (m.play before).stop.Tracked :=
    ((tracked_of_create created).play before).move .stop
  generalize names_eq : (m.play before).stop.admitted later = names
  have known : ∀ id ∈ (m.play before).stop.admitted later, id ∈ names := by simp [names_eq]
  have closed := closed_stop open_ names
  have after := closed.play later known
  have consistent := (tracked.play later).consistent
  have supported (w : PendingWrite) (held : w ∈ (m.play before).stop.quorum.pending) :
      ((m.play before).stop.play later).quorum.Supported
        (fun s => s ∈ w.sources ∨ ∃ id ∈ names, s = .replica id) w.cell := by
    refine closed.supported_play tracked later known ?_ (.waiting held rfl fun s counted => .inl counted)
    exact fun id named => .inr ⟨id, named, rfl⟩
  have required := (tracked.keeps_play later).required
  refine ⟨after.refuses, ?_, ?_, ?_, ?_, ?_⟩
  · intro bind
    simp [start, after.stopped]
  · intro report member
    obtain ⟨l, held, rfl⟩ := List.mem_map.mp member
    exact after.links l held
  · intro empty
    have deserted := after.deserted empty
    exact ⟨by simp [replicas, deserted.links], deserted.connected, deserted.streaming⟩
  · intro w held durable
    obtain ⟨sources, distinct, many, all⟩ := (supported w held).sources consistent durable
    exact ⟨sources, distinct, required ▸ many, all⟩
  · intro empty w held
    refine (supported w held).pending consistent w.sources ?_ ?_
    · rw [required]
      exact (tracked.consistent.sources w held).2
    · simp [empty]

/-- A late first message of a replica that holds one entry. -/
def lateHello (id : String) (e : Entry) : Move :=
  .greet Settings.defaultBind (.ok (.hello {
    replicaId := id
    token := ""
    lastOffset := e.offset
    lastChecksum := e.checksum
    version := Message.version }))

/-- What happens to a stopped master that lets nobody in: a write, the report of a replica that it does
not know any more, a replica with another history, and an attempt to start it. -/
def afterwards : List Move :=
  [.append [8] none, .acknowledge "first" 1, lateHello "second" ⟨1, [9], none⟩,
    .start (.ok Settings.defaultBind)]

/-- The write that waited waits, and no replica is known. -/
theorem final_without_handshake :
    (((small 2).play [.append [7] none]).stop.play afterwards).quorum.board.state 0 = .pending ∧
      (((small 2).play [.append [7] none]).stop.play afterwards).replicas = [] := by
  have created : create (smallSettings 2) ({} : VolatileLog) = .ok (small 2) := rfl
  have open_ : ((small 2).play [.append [7] none]).stopped = false := by decide +kernel
  have final := stop_is_final created [.append [7] none] open_ afterwards
  have nobody : ((small 2).play [.append [7] none]).stop.admitted afterwards = [] := by
    decide +kernel
  have waited : ⟨1, [.master], 0⟩ ∈ ((small 2).play [.append [7] none]).stop.quorum.pending := by
    decide +kernel
  have waits := final.pending nobody _ waited
  have alone := (final.deserted nobody).1
  exact ⟨waits, alone⟩

/-- The moves of a master that is stopped before the hello of a replica is handled. -/
def cutShort : List Move := [.append [7] none, .stop]

/-- A handshake that comes after the stop still gives the replica a link, and makes the write durable
that waited. -/
theorem admitted_after_stop :
    ((small 2).play cutShort).stopped = true ∧
    ((small 2).play cutShort).quorum.board.state 0 = .pending ∧
    let after := ((small 2).play cutShort).play
      [lateHello "first" ⟨1, [7], none⟩, .advance 1]
    after.replicas.map (·.id) = ["first"] ∧ after.tally.connected = 1 ∧
      after.quorum.board.state 0 = .durable := by
  decide +kernel

end Master

end QuorumLog
