import QuorumLog.Proofs.CountedSources
import QuorumLog.Proofs.SmallSteps

/-! The accounts of a master. Every write that is announced waits or is durable, and the counts say how
many do either: a credit moves writes from one side to the other and counts each of them, whether it is
the master's own, a report or the word of a replica that is welcomed, and nothing else touches the
counts. A write becomes durable in one move, and a report is counted if a link learns something by
it. -/

namespace QuorumLog

/-! ### Durable writes -/

namespace Board

variable {b b' : Board} {c : Cell} {write : Nat}

/-- The writes of a board that are durable. -/
def durables (b : Board) : Finset Nat :=
  (Finset.range b.size).filter fun write => b.state write = .durable

theorem mem_durables : write ∈ b.durables ↔ b.state write = .durable := by
  unfold durables
  rw [Finset.mem_filter, Finset.mem_range, and_iff_right_iff_imp]
  intro durable
  unfold state at durable
  cases found : b.cells[write]? with
  | none => simp [found] at durable
  | some c => exact (List.getElem?_eq_some_iff.mp found).1

/-- A new cell that is not durable adds to no count. -/
theorem durables_push (waits : c.state ≠ .durable) : (b.push c).durables = b.durables := by
  ext write
  rw [mem_durables, mem_durables, state, state, cells_push]
  by_cases here : write = b.size
  · have missing : b.cells[write]? = none := List.getElem?_eq_none (Nat.le_of_eq here.symm)
    simp [here, waits, show b.cells[b.size]? = none from here ▸ missing]
  · rw [if_neg here]

end Board

namespace Quorum

variable {q q' : Quorum} {given : List Nat} {w : PendingWrite}

/-- The cells of the writes that wait. -/
def waitingCells (q : Quorum) : Finset Nat := (q.pending.map PendingWrite.cell).toFinset

theorem Orderly.nodup_cells (orderly : q.Orderly) : (q.pending.map PendingWrite.cell).Nodup := by
  have apart : q.pending.Nodup :=
    orderly.ascending.imp fun below same => absurd (congrArg _ same) (Nat.ne_of_lt below)
  exact List.Nodup.map_on (fun _ left _ right => orderly.cell_unique left right) apart

theorem Orderly.card_waitingCells (orderly : q.Orderly) :
    q.waitingCells.card = q.pending.length := by
  rw [waitingCells, List.toFinset_card_of_nodup orderly.nodup_cells, List.length_map]

/-- A write that waits is not durable. -/
theorem Orderly.state_of_waiting (orderly : q.Orderly) (held : w ∈ q.pending) :
    q.board.state w.cell = .pending := by
  rw [Board.state, orderly.opened w held]
  rfl

/-- The writes that stop to wait are those that become durable. -/
theorem Yields.durables (yields : q.Yields q' given) (orderly : q.Orderly) :
    q'.board.durables = q.board.durables ∪ (q.waitingCells \ q'.waitingCells) := by
  ext write
  rw [Board.mem_durables, Finset.mem_union, Board.mem_durables, Finset.mem_sdiff, waitingCells,
    waitingCells, List.mem_toFinset, List.mem_toFinset, Board.state, yields.cells]
  by_cases gone : write ∈ q.pending.map PendingWrite.cell ∧ write ∉ q'.pending.map PendingWrite.cell
  · obtain ⟨w, held, rfl⟩ := List.mem_map.mp gone.1
    rw [if_pos gone, orderly.opened w held]
    exact iff_of_true rfl (.inr gone)
  · rw [if_neg gone]
    exact ⟨.inl, fun either => either.resolve_right gone⟩

/-- As many writes become durable as offsets are given back. -/
theorem Yields.card_durables (yields : q.Yields q' given) (orderly : q.Orderly)
    (orderly' : q'.Orderly) : q'.board.durables.card = q.board.durables.card + given.length := by
  have apart : Disjoint q.board.durables (q.waitingCells \ q'.waitingCells) := by
    refine Finset.disjoint_left.mpr fun write durable waits => ?_
    obtain ⟨w, held, rfl⟩ := List.mem_map.mp (List.mem_toFinset.mp (Finset.mem_sdiff.mp waits).1)
    rw [Board.mem_durables, orderly.state_of_waiting held] at durable
    cases durable
  have within : q'.waitingCells ⊆ q.waitingCells := fun write waits =>
    List.mem_toFinset.mpr (yields.cell_of (List.mem_toFinset.mp waits))
  have divided := yields.divided.length_eq
  simp only [pendingOffsets, List.length_append, List.length_map] at divided
  rw [yields.durables orderly, Finset.card_union_of_disjoint apart,
    Finset.card_sdiff_of_subset within, orderly.card_waitingCells, orderly'.card_waitingCells]
  omega

end Quorum

/-- Whether a move is a report of a replica. -/
def Move.isReport : Move → Bool
  | .acknowledge .. | .receive _ (.ack _) => true
  | _ => false

namespace Master

variable {L : Type} {m m' m'' : Master L}

/-! ### The books -/

/-- What is true of the counts of writes. -/
structure Balanced (m : Master L) : Prop where
  appends : m.tally.appends = m.tally.resolved + m.quorum.pending.length
  resolved : m.tally.resolved = m.quorum.resolved
  durable : m.quorum.board.durables.card = m.quorum.resolved
  failed : ∀ (write : Nat) (c : Cell), m.quorum.board.cells[write]? = some c → c.offset = none →
    ∃ reason, c.state = .failed reason

/-- Nothing happens to the writes, and nothing is counted of them. -/
structure Unbooked (before after : Master L) : Prop where
  quorum : after.quorum = before.quorum
  appends : after.tally.appends = before.tally.appends
  resolved : after.tally.resolved = before.tally.resolved
  acks : after.tally.acks = before.tally.acks

theorem Unbooked.refl (m : Master L) : Unbooked m m := ⟨rfl, rfl, rfl, rfl⟩

theorem Unbooked.trans (first : Unbooked m m') (second : Unbooked m' m'') : Unbooked m m'' :=
  ⟨second.quorum.trans first.quorum, second.appends.trans first.appends,
    second.resolved.trans first.resolved, second.acks.trans first.acks⟩

theorem Balanced.unbooked (balanced : m.Balanced) (unbooked : Unbooked m m') : m'.Balanced where
  appends := by
    rw [unbooked.appends, unbooked.resolved, unbooked.quorum]
    exact balanced.appends
  resolved := by
    rw [unbooked.resolved, unbooked.quorum]
    exact balanced.resolved
  durable := by
    rw [unbooked.quorum]
    exact balanced.durable
  failed := by
    rw [unbooked.quorum]
    exact balanced.failed

/-- A credit is balanced if the offsets that it gives back are counted. -/
theorem Balanced.yields (balanced : m.Balanced) {given : List Nat}
    (yields : m.quorum.Yields m'.quorum given) (orderly : m.quorum.Orderly)
    (orderly' : m'.quorum.Orderly) (appends : m'.tally.appends = m.tally.appends)
    (resolved : m'.tally.resolved = m.tally.resolved + given.length) : m'.Balanced := by
  have divided := yields.divided.length_eq
  simp only [Quorum.pendingOffsets, List.length_append, List.length_map] at divided
  have total := balanced.appends
  refine ⟨by omega, ?_, ?_, fun write c cell none => ?_⟩
  · rw [resolved, yields.resolved, balanced.resolved]
  · rw [yields.card_durables orderly orderly', yields.resolved, balanced.durable]
  · rw [yields.cells] at cell
    split at cell
    · rename_i gone
      obtain ⟨w, held, rfl⟩ := List.mem_map.mp gone.1
      rw [orderly.opened w held] at cell
      cases cell
      cases none
    · exact balanced.failed write c cell none

/-! ### Moves that are no part of a write -/

theorem unbooked_closeLink (m : Master L) (id : String) (generation? : Option Nat) :
    Unbooked m (m.closeLink id generation?) := by
  unfold closeLink
  split
  · exact .refl m
  · split <;> exact ⟨rfl, rfl, rfl, rfl⟩

theorem unbooked_endSession (m : Master L) (generation : Nat) (fault : Option Fault) :
    Unbooked m (m.endSession generation fault) := by
  unfold endSession
  split
  · exact .refl m
  · have closed := unbooked_closeLink (m.onSession generation fun s =>
      { s with stage := .ended fault, connection := s.connection.cancel.abandon })
    exact ⟨(closed _ _).quorum, (closed _ _).appends, (closed _ _).resolved, (closed _ _).acks⟩

theorem Touch.unbooked (touch : Touch m m') : Unbooked m m' := by
  cases touch with
  | closed id generation? => exact unbooked_closeLink m id generation?
  | ended generation fault => exact unbooked_endSession m generation fault
  | _ => exact ⟨rfl, rfl, rfl, rfl⟩

theorem Touches.unbooked (touches : Touches m m') : Unbooked m m' := by
  induction touches with
  | refl => exact .refl m
  | tail _ touch unbooked => exact unbooked.trans touch.unbooked

theorem unbooked_start (m : Master L) (bind : Except Nat SocketAddress) :
    Unbooked m (m.start bind).1 := by
  unfold start
  split
  · exact .refl m
  split
  · exact .refl m
  split
  · exact .refl m
  · exact ⟨rfl, rfl, rfl, rfl⟩

theorem unbooked_stop (m : Master L) : Unbooked m m.stop := by
  unfold stop
  split
  · exact .refl m
  · exact ⟨rfl, rfl, rfl, rfl⟩

section Handshakes

variable [LocalLog L]

theorem unbooked_seatOf (m : Master L) (peer : Peer) (h : Hello) :
    Unbooked m (m.seatOf peer h) := by
  unfold seatOf register
  split <;> exact ⟨rfl, rfl, rfl, rfl⟩

theorem unbooked_greet (m : Master L) (address : SocketAddress) (first : Except Fault Message) :
    Unbooked m (m.greet address first).1 := by
  rcases touches_greet m address first with touches | ⟨peer, h, -, -, touches⟩
  · exact touches.unbooked
  · exact (unbooked_seatOf m peer h).trans touches.unbooked

/-! ### Moves that credit a source -/

/-- The steps of a session are not booked, but for its welcome, which takes the word of the replica. -/
theorem advance_booked (m : Master L) (numbered : m.Numbered) (generation : Nat) :
    Unbooked m (m.advance generation).1 ∨ ∃ r : Request, r.source? ≠ none ∧
      (m.advance generation).1.quorum = (m.quorum.serve r).1 ∧
      (m.advance generation).1.tally.appends = m.tally.appends ∧
      (m.advance generation).1.tally.resolved =
        m.tally.resolved + (m.quorum.serve r).2.length ∧
      (m.advance generation).1.tally.acks = m.tally.acks := by
  rcases numbered.listens_or_welcomes generation with listens | ⟨s, found, welcoming⟩
  · exact .inl (touches_advance m listens).unbooked
  · rcases advance_welcome m found welcoming with ⟨fault, failed⟩ | ⟨welcome, wrote⟩
    · rw [failed]
      exact .inl (unbooked_endSession m generation fault)
    · rw [wrote]
      exact .inr ⟨.rebase (.replica s.replicaId) (s.next - 1), by simp [Request.source?], rfl, rfl,
        rfl, rfl⟩

/-- A report is no news to any link and is not booked, or its link learns of the offset, and it is
credited and counted. -/
theorem acknowledge_booked (m : Master L) (numbered : m.Numbered) (id : String) (offset : Nat) :
    (Unbooked m (m.acknowledge id offset) ∧ ∀ l' ∈ (m.acknowledge id offset).links,
      ∃ l ∈ m.links, l.peer.id = l'.peer.id ∧ l'.lastAck = l.lastAck) ∨
    ((∃ l ∈ m.links, l.isConnected ∧ ∃ l' ∈ (m.acknowledge id offset).links,
      l'.peer.id = l.peer.id ∧ l.lastAck < l'.lastAck) ∧
      (m.acknowledge id offset).quorum = (m.quorum.credit offset (.replica id)).1 ∧
      (m.acknowledge id offset).tally.appends = m.tally.appends ∧
      (m.acknowledge id offset).tally.resolved =
        m.tally.resolved + (m.quorum.credit offset (.replica id)).2.length ∧
      (m.acknowledge id offset).tally.acks = m.tally.acks + 1) := by
  unfold acknowledge
  split
  · exact .inl ⟨.refl m, fun l held => ⟨l, held, rfl, rfl⟩⟩
  cases found : m.link? id with
  | none => exact .inl ⟨.refl m, fun l held => ⟨l, held, rfl, rfl⟩⟩
  | some l =>
    obtain ⟨held, here⟩ := link_of_find found
    dsimp only
    split
    · rename_i accepts
      obtain ⟨connected, news⟩ : l.isConnected ∧ l.lastAck < offset := by
        simpa [Link.accepts] using accepts
      refine .inr ⟨⟨l, held, connected, l.recordAck offset, ?_, ?_, ?_⟩, rfl, rfl, rfl, rfl⟩
      · exact List.mem_map.mpr ⟨l, held, if_pos here⟩
      · exact congrArg Peer.id (Link.recordAck_same offset l).1
      · rw [Link.recordAck, if_pos accepts]
        exact news
    · rename_i old
      refine .inl ⟨⟨rfl, rfl, rfl, rfl⟩, fun l' member => ?_⟩
      obtain ⟨l₀, before, rfl⟩ := List.mem_map.mp member
      refine ⟨l₀, before, ?_⟩
      by_cases named : l₀.peer.id = id
      · rw [if_pos named, numbered.link_unique before held (named.trans here.symm), Link.recordAck,
          if_neg old]
        split <;> exact ⟨rfl, rfl⟩
      · rw [if_neg named]
        exact ⟨rfl, rfl⟩

/-! ### Writes -/

theorem unbooked_store (m : Master L) (payload : Bytes) (metadata : Option Bytes) :
    Unbooked m (m.store payload metadata).1 ∨ ∃ reason,
      (m.store payload metadata).1.quorum = (m.quorum.refuse reason).1 ∧
      (m.store payload metadata).1.tally.appends = m.tally.appends ∧
      (m.store payload metadata).1.tally.resolved = m.tally.resolved ∧
      (m.store payload metadata).1.tally.acks = m.tally.acks := by
  unfold store
  split
  · exact .inr ⟨_, rfl, rfl, rfl, rfl⟩
  split
  · exact .inl (.refl m)
  split
  · exact .inl ⟨rfl, rfl, rfl, rfl⟩
  · exact .inr ⟨_, rfl, rfl, rfl, rfl⟩

/-- A write that fails is no part of the balance. -/
theorem Balanced.store (balanced : m.Balanced) (payload : Bytes) (metadata : Option Bytes) :
    (m.store payload metadata).1.Balanced := by
  rcases unbooked_store m payload metadata with unbooked | ⟨reason, quorum, appends, resolved, -⟩
  · exact balanced.unbooked unbooked
  refine ⟨?_, ?_, ?_, ?_⟩
  · rw [appends, resolved, quorum]
    exact balanced.appends
  · rw [resolved, quorum]
    exact balanced.resolved
  · rw [quorum]
    exact (congrArg _ (Board.durables_push (by simp [Cell.closed]))).trans balanced.durable
  · rw [quorum]
    intro write c cell none
    rw [Quorum.refuse, Board.cells_push] at cell
    split at cell
    · cases cell
      exact ⟨reason, rfl⟩
    · exact balanced.failed write c cell none

omit [LocalLog L] in
/-- An announced write is counted and waits, and what the master's own credit makes durable is counted
too. -/
theorem Balanced.announce (balanced : m.Balanced) (consistent : m.quorum.Consistent)
    (last : ∀ e, m.unannounced = some e → ∀ w ∈ m.quorum.pending, w.offset < e.offset) :
    m.announce.1.Balanced ∧ m.announce.1.tally.acks = m.tally.acks := by
  unfold Master.announce
  cases entry : m.unannounced with
  | none => exact ⟨balanced, rfl⟩
  | some e =>
    have orderly := Quorum.orderly_track consistent.orderly e.offset
    have orderly' := orderly.serve (.credit e.offset .master)
    have yields : Quorum.Yields _ _ _ :=
      Quorum.yields_serve orderly (r := .credit e.offset .master) (by simp [Request.source?])
    -- The books with the write that waits, before the master vouches for it.
    have tracked : Balanced { m with
        quorum := (m.quorum.track e.offset).1
        tally := { m.tally with appends := m.tally.appends + 1 } } := by
      have total := balanced.appends
      rw [Quorum.track_of_last (last e entry)]
      refine ⟨?_, balanced.resolved, ?_, fun write c cell none => ?_⟩
      · simp only [List.length_append, List.length_singleton]
        omega
      · exact (congrArg _ (Board.durables_push (by simp [Cell.opened]))).trans balanced.durable
      · simp only [Board.cells_push] at cell
        split at cell
        · cases cell
          cases none
        · exact balanced.failed write c cell none
    exact ⟨tracked.yields yields orderly orderly' rfl rfl, rfl⟩

/-! ### Every move -/

/-- Whether a move is a report by which a connected link learns of a higher offset. -/
def advances (m : Master L) (a : Move) : Bool :=
  a.isReport && m.links.any fun l => l.isConnected && (m.move a).links.any fun l' =>
    l'.peer.id = l.peer.id && l.lastAck < l'.lastAck

/-- Whether a write becomes durable in a move. -/
def settles (write : Nat) (m : Master L) (a : Move) : Bool :=
  m.quorum.board.state write ≠ .durable ∧ (m.move a).quorum.board.state write = .durable

/-- In how many of some moves something is the case. -/
def times (p : Master L → Move → Bool) (m : Master L) : List Move → Nat
  | [] => 0
  | a :: later => (if p m a then 1 else 0) + (m.move a).times p later

/-- No link learns of anything while each keeps the offset that it knows. -/
theorem advances_of_kept (numbered : m.Numbered) {a : Move}
    (kept : ∀ l' ∈ (m.move a).links, ∃ l ∈ m.links, l.peer.id = l'.peer.id ∧
      l'.lastAck = l.lastAck) : m.advances a = false := by
  refine Bool.eq_false_iff.mpr fun advances => ?_
  simp only [Master.advances, Bool.and_eq_true, List.any_eq_true, decide_eq_true_eq] at advances
  obtain ⟨-, l, held, -, l', held', name, less⟩ := advances
  obtain ⟨l₀, before, name₀, same⟩ := kept l' held'
  rw [same, numbered.link_unique before held (name₀.trans name)] at less
  exact Nat.lt_irrefl _ less

theorem advances_of_silent {a : Move} (silent : a.isReport = false) : m.advances a = false := by
  rw [advances, silent, Bool.false_and]

/-- What a report leaves in the books: it is counted if a link learns something by it. -/
theorem Balanced.report (balanced : m.Balanced) (tracked : m.Tracked) {a : Move}
    (report : a.isReport) {id : String} {offset : Nat} (same : m.move a = m.acknowledge id offset) :
    (m.move a).Balanced ∧
      (m.move a).tally.acks = m.tally.acks + if m.advances a then 1 else 0 := by
  rcases acknowledge_booked m tracked.numbered id offset with
    ⟨unbooked, kept⟩ | ⟨⟨l, held, up, l', held', name, news⟩, quorum, appends, resolved, acks⟩
  · rw [← same] at unbooked kept
    rw [advances_of_kept tracked.numbered kept]
    exact ⟨balanced.unbooked unbooked, unbooked.acks⟩
  · have orderly := tracked.consistent.orderly
    have advances : m.advances a = true := by
      simp only [Master.advances, Bool.and_eq_true, List.any_eq_true, decide_eq_true_eq]
      exact ⟨report, l, held, up, l', same ▸ held', name, news⟩
    have yields : m.quorum.Yields _ _ := Quorum.yields_serve orderly
      (r := .credit offset (.replica id)) (by simp [Request.source?])
    rw [advances, same]
    refine ⟨balanced.yields (quorum ▸ yields) orderly ?_ appends resolved, acks⟩
    rw [quorum]
    exact orderly.serve (.credit offset (.replica id))

variable [NumberedLog L]

/-- Every move keeps the balance, and just the reports that are news are counted as such. -/
theorem Balanced.move (balanced : m.Balanced) (tracked : m.Tracked) (a : Move) :
    (m.move a).Balanced ∧
      (m.move a).tally.acks = m.tally.acks + if m.advances a then 1 else 0 := by
  have uncounted {a : Move} (silent : a.isReport = false) (balanced : (m.move a).Balanced)
      (acks : (m.move a).tally.acks = m.tally.acks) : (m.move a).Balanced ∧
        (m.move a).tally.acks = m.tally.acks + if m.advances a then 1 else 0 := by
    rw [advances_of_silent silent]
    exact ⟨balanced, acks⟩
  have quietly {a : Move} (silent : a.isReport = false) (unbooked : Unbooked m (m.move a)) :=
    uncounted silent (balanced.unbooked unbooked) unbooked.acks
  have stored (payload : Bytes) (metadata : Option Bytes) :
      (m.store payload metadata).1.tally.acks = m.tally.acks := by
    rcases unbooked_store m payload metadata with unbooked | ⟨reason, -, -, -, acks⟩
    · exact unbooked.acks
    · exact acks
  have last {m : Master L} (tracked : m.Tracked) : ∀ e, m.unannounced = some e →
      ∀ w ∈ m.quorum.pending, w.offset < e.offset := fun e entry => (tracked.stored e entry).2.2
  cases a with
  | append payload metadata =>
    have kept := balanced.store payload metadata
    have behind := tracked.store payload metadata
    rcases move_append m payload metadata with ⟨-, same⟩ | same | same
    · refine quietly rfl ?_
      rw [same]
      exact .refl m
    · refine uncounted rfl ?_ ?_ <;> rw [same]
      · exact kept
      · exact stored payload metadata
    · obtain ⟨announced, acks⟩ := kept.announce behind.consistent (last behind)
      refine uncounted rfl ?_ ?_ <;> rw [same]
      · exact announced
      · exact acks.trans (stored payload metadata)
  | store payload metadata =>
    exact uncounted rfl (balanced.store payload metadata) (stored payload metadata)
  | announce =>
    obtain ⟨announced, acks⟩ := balanced.announce tracked.consistent (last tracked)
    exact uncounted rfl announced acks
  | purge offset => exact quietly rfl ⟨rfl, rfl, rfl, rfl⟩
  | greet address first => exact quietly rfl (unbooked_greet m address first)
  | advance generation =>
    rcases advance_booked m tracked.numbered generation with
      unbooked | ⟨r, speaks, quorum, appends, resolved, acks⟩
    · exact quietly rfl unbooked
    · have orderly := tracked.consistent.orderly
      have yields := Quorum.yields_serve orderly speaks
      refine uncounted rfl (balanced.yields ?_ orderly ?_ appends resolved) acks
      · exact quorum ▸ yields
      · exact quorum ▸ orderly.serve r
  | receive generation message =>
    rcases receive_cases m generation message with
      ⟨s, -, offset, -, -, rfl, same⟩ | ⟨deaf, quiet⟩
    · exact balanced.report tracked rfl same
    rcases touches_receive m generation message with ⟨s, offset, found, listening, ack, -⟩ | touches
    · exact absurd ack (deaf s offset found listening)
    · have kept : m.advances (.receive generation message) = false := by
        refine advances_of_kept tracked.numbered fun l' held => ?_
        obtain ⟨l, before, continues⟩ := quiet.links l' held
        exact ⟨l, before, continues.id.symm, continues.lastAck⟩
      rw [kept]
      exact ⟨balanced.unbooked touches.unbooked, touches.unbooked.acks⟩
  | acknowledge id offset => exact balanced.report tracked rfl rfl
  | disconnect id => exact quietly rfl (unbooked_closeLink m id none)
  | endSession generation fault => exact quietly rfl (unbooked_endSession m generation fault)
  | start bind => exact quietly rfl (unbooked_start m bind)
  | stop => exact quietly rfl (unbooked_stop m)

variable [SteadyEnd L]

theorem Balanced.play (balanced : m.Balanced) (tracked : m.Tracked) (moves : List Move) :
    (m.play moves).Balanced ∧
      (m.play moves).tally.acks = m.tally.acks + m.times advances moves := by
  induction moves generalizing m with
  | nil => exact ⟨balanced, rfl⟩
  | cons a later ih =>
    obtain ⟨moved, acks⟩ := balanced.move tracked a
    obtain ⟨played, total⟩ := ih moved (tracked.move a)
    refine ⟨played, total.trans ?_⟩
    rw [acks, times, Nat.add_assoc]

/-- A write becomes durable in one move, if it does at all. -/
theorem Tracked.settles_once (tracked : m.Tracked) (write : Nat) (moves : List Move) :
    (if m.quorum.board.state write = .durable then 1 else 0) + m.times (settles write) moves =
      if (m.play moves).quorum.board.state write = .durable then 1 else 0 := by
  induction moves generalizing m with
  | nil => rfl
  | cons a later ih =>
    have rest := ih (tracked.move a)
    rw [times, ← Nat.add_assoc]
    refine Eq.trans (congrArg (· + _) ?_) rest
    by_cases before : m.quorum.board.state write = .durable
    · have after : (m.move a).quorum.board.state write = .durable :=
        (tracked.keeps a).durable before
      simp [settles, before, after]
    · by_cases after : (m.move a).quorum.board.state write = .durable <;>
        simp [settles, before, after]

/-! ### The accounts of a run -/

/-- How the counts of a master and its writes stand to each other after some moves. -/
structure Accounts (before : Master L) (moves : List Move) (after : Master L) : Prop where
  appends : after.tally.appends = after.tally.resolved + after.quorum.pending.length
  resolved : after.tally.resolved = after.quorum.resolved
  durable : after.tally.resolved = after.quorum.board.durables.card
  /-- The writes that are tracked are those whose outcome is open, each once. -/
  tracked : ∀ write < after.quorum.board.size, after.quorum.board.state write = .pending ↔
    ∃ w ∈ after.quorum.pending, w.cell = write
  distinct : (after.quorum.pending.map PendingWrite.cell).Nodup
  /-- A durable write became so in one move, another one in none. -/
  once : ∀ write, before.times (settles write) moves =
    if after.quorum.board.state write = .durable then 1 else 0
  acks : after.tally.acks = before.times advances moves

omit [LocalLog L] [NumberedLog L] [SteadyEnd L] in
theorem balanced_of_create {settings : Settings} {log : L} (created : create settings log = .ok m) :
    m.Balanced := by
  obtain ⟨-, rfl⟩ := create_of_ok created
  exact ⟨rfl, rfl, rfl, by simp [Quorum.ofCopies]⟩

omit [LocalLog L] [NumberedLog L] [SteadyEnd L] in
/-- A write is tracked just while its outcome is open. -/
theorem Balanced.pending_iff (balanced : m.Balanced) (consistent : m.quorum.Consistent) {write : Nat}
    (inside : write < m.quorum.board.size) : m.quorum.board.state write = .pending ↔
      ∃ w ∈ m.quorum.pending, w.cell = write := by
  constructor
  · intro waits
    obtain ⟨c, cell⟩ : ∃ c, m.quorum.board.cells[write]? = some c :=
      ⟨_, List.getElem?_eq_getElem inside⟩
    rw [Board.state, cell] at waits
    cases offset : c.offset with
    | none =>
      obtain ⟨reason, failed⟩ := balanced.failed write c cell offset
      exact absurd (failed.symm.trans waits) (by simp)
    | some o =>
      rcases consistent.settled write c o cell offset with durable | ⟨w, held, here, -⟩
      · exact absurd (durable.symm.trans waits) (by simp)
      · exact ⟨w, held, here⟩
  · rintro ⟨w, held, rfl⟩
    exact consistent.orderly.state_of_waiting held

/-- At every moment the writes that were announced are those that became durable and those that wait,
the counts of both are right, each durable write became so in one move, and the reports that are
counted are those by which a connected link learned of a higher offset. -/
theorem accounts_balance {settings : Settings} {log : L} (created : create settings log = .ok m)
    (moves : List Move) : Accounts m moves (m.play moves) := by
  have tracked := tracked_of_create created
  have after := tracked.play moves
  obtain ⟨balanced, acks⟩ := (balanced_of_create created).play tracked moves
  have once := tracked.settles_once
  obtain ⟨-, rfl⟩ := create_of_ok created
  refine ⟨balanced.appends, balanced.resolved, ?_, fun write inside => ?_, ?_, fun write => ?_, ?_⟩
  · rw [balanced.durable, balanced.resolved]
  · exact balanced.pending_iff after.consistent inside
  · exact after.consistent.orderly.nodup_cells
  · rw [← once write moves]
    simp [Quorum.ofCopies, Board.state]
  · rw [acks, Nat.zero_add]

end Handshakes

/-- A write is reported twice, another one not at all, and one comes too late. -/
def booked : List Move :=
  [.greet Settings.defaultBind (introduction "first" 0), .advance 1, .append [7] none,
    .append [8] none, .acknowledge "first" 1, .acknowledge "first" 1, .acknowledge "second" 2, .stop,
    .append [9] none]

/-- Two writes are counted, one of them is durable and was reported once. -/
theorem accounts_after_stop : Accounts (small 2) booked ((small 2).play booked) ∧
    ((small 2).play booked).tally.appends = 2 ∧ ((small 2).play booked).tally.resolved = 1 ∧
    ((small 2).play booked).tally.acks = 1 := by
  have created : create (smallSettings 2) ({} : VolatileLog) = .ok (small 2) := rfl
  exact ⟨accounts_balance created booked, by decide +kernel, by decide +kernel, by decide +kernel⟩

end Master

end QuorumLog
