import QuorumLog.Proofs.CarriedEntries
import QuorumLog.Proofs.ComparedHistory

/-! Every connection carries each entry behind its offset once and in order, whatever happens between
its steps: reads of the log and handed-over entries fit together without a gap and without an overlap.
How the log is read and in which order things happen decides only how far the connection comes. -/

namespace QuorumLog

namespace Master

variable {L : Type} [LocalLog L] [LawfulLog L] {m : Master L} {first generation resume : Nat}
variable {id : String} {history sent : List Entry} {address : SocketAddress} {h : Hello}
variable {report : LinkReport}

/-! ### A connection begins -/

omit [LawfulLog L] in
/-- An accepted replica has passed the check of its history, and has its link and its session. -/
theorem greet_of_ok (accepted : (m.greet address (.ok (.hello h))).2 = .ok report) :
    checkHistory m.log h = .ok () ∧ ∃ peer : Peer, peer.id = h.replicaId ∧
      (m.greet address (.ok (.hello h))).1 =
        ({ m with generation := m.generation + 1 }.register peer h.lastOffset).openSession h := by
  unfold greet at accepted ⊢
  split at accepted
  · cases accepted
  rename_i peer h' hello
  obtain ⟨said, name⟩ := checkHello_of_ok hello
  cases said
  split at accepted
  · cases accepted
  rename_i history
  refine ⟨history, peer, name, ?_⟩
  split at accepted
  · cases accepted
  rename_i after report' seat
  unfold Master.seat at seat
  dsimp only at seat
  split at seat
  · cases seat
  split at seat
  · cases seat
    rfl
  · cases seat

omit [LocalLog L] [LawfulLog L] in
/-- The link of a new generation catches up and is the one of the peer; no session has the generation
yet. -/
theorem register_new (m : Master L) (peer : Peer) (held : Nat)
    (links : ∀ l ∈ m.links, l.generation < m.generation)
    (sessions : ∀ s ∈ m.sessions, s.generation < m.generation) :
    (∀ l ∈ (m.register peer held).links, l.generation = m.generation →
      l.peer.id = peer.id ∧ l.phase = .catchingUp) ∧
    (∀ s ∈ (m.register peer held).sessions, s.generation < m.generation) ∧
    (m.register peer held).generation = m.generation := by
  unfold register
  split
  · refine ⟨fun l' member newest => ?_, fun s' member => ?_, rfl⟩
    · obtain ⟨l, before, rfl⟩ := List.mem_map.mp member
      split at newest
      · rename_i here
        rw [if_pos here]
        exact ⟨rfl, rfl⟩
      · exact absurd newest (Nat.ne_of_lt (links l before))
    · obtain ⟨s, before, rfl⟩ := List.mem_map.mp member
      split <;> exact sessions s before
  · refine ⟨fun l member newest => ?_, sessions, rfl⟩
    rcases List.mem_append.mp member with before | new
    · exact absurd newest (Nat.ne_of_lt (links l before))
    · rw [List.mem_singleton.mp new]
      exact ⟨rfl, rfl⟩

/-- What is known of a connection when its replica was accepted. -/
structure Opened (id : String) (resume : Nat) (m : Master L) : Prop where
  links : ∀ l ∈ m.links, l.generation = m.generation → l.peer.id = id ∧ l.phase = .catchingUp
  sessions : ∀ s ∈ m.sessions, s.generation = m.generation → ∃ welcome, s = {
    replicaId := id
    generation := m.generation
    next := resume + 1
    stage := .welcoming welcome }
  present : m.generation ∈ m.sessions.map (·.generation)

omit [LawfulLog L] in
theorem opened_of_greet (names : m.Numbered)
    (accepted : (m.greet address (.ok (.hello h))).2 = .ok report) :
    (m.greet address (.ok (.hello h))).1.Opened h.replicaId h.lastOffset := by
  obtain ⟨-, peer, name, after⟩ := greet_of_ok accepted
  obtain ⟨links, sessions, issued⟩ := register_new { m with generation := m.generation + 1 } peer
    h.lastOffset (fun l held => Nat.lt_succ_of_le (names.links l held))
    fun s held => Nat.lt_succ_of_le (names.sessions s held)
  rw [after]
  refine ⟨fun l held newest => ?_, fun s held newest => ?_, ?_⟩
  · exact name ▸ links l held (newest.trans issued)
  · rcases List.mem_append.mp held with before | new
    · exact absurd (newest.trans issued) (Nat.ne_of_lt (sessions s before))
    · exact ⟨_, List.mem_singleton.mp new⟩
  · refine List.mem_map.mpr ⟨_, List.mem_append_right _ List.mem_cons_self, rfl⟩

/-- A connection that was accepted has carried nothing yet. -/
theorem conveys_of_greet (ledger : m.Ledger first history)
    (accepted : (m.greet address (.ok (.hello h))).2 = .ok report) :
    Conveys first (m.greet address (.ok (.hello h))).1.generation h.lastOffset h.replicaId history []
      (m.greet address (.ok (.hello h))).1 := by
  obtain ⟨passed, -⟩ := greet_of_ok accepted
  obtain ⟨retained, reached, -⟩ := checkHistory_told ledger.sound passed
  have opened := opened_of_greet ledger.names accepted
  have steady := steady_greet ledger.names address (.ok (.hello h))
  have older : first ≤ LocalLog.oldest m.log := by
    have span := ledger.span
    have span' := LawfulLog.entries_span ledger.sound
    have length := ledger.retained.length_le
    rw [offset] at span
    omega
  refine ⟨ledger.steady steady, ⟨Nat.le_refl _, fun l held newest => (opened.links l held newest).1,
    fun s held newest => ?_⟩, older.trans retained, ?_, List.nil_prefix, fun s held newest => ?_⟩
  · obtain ⟨welcome, rfl⟩ := opened.sessions s held newest
    rfl
  · rw [offset, steady.log]
    exact reached
  · obtain ⟨welcome, rfl⟩ := opened.sessions s held newest
    exact ⟨rfl, fun e waits => by cases waits⟩

theorem covers_of_greet (ledger : m.Ledger first history)
    (accepted : (m.greet address (.ok (.hello h))).2 = .ok report) :
    Covers (m.greet address (.ok (.hello h))).1.generation h.lastOffset history []
      (m.greet address (.ok (.hello h))).1 := by
  obtain ⟨passed, -⟩ := greet_of_ok accepted
  obtain ⟨retained, -, -⟩ := checkHistory_told ledger.sound passed
  have opened := opened_of_greet ledger.names accepted
  have steady := steady_greet ledger.names address (.ok (.hello h))
  refine ⟨steady.log ▸ retained, fun s held newest _ => ?_, fun s held newest _ _ => ?_,
    fun s held newest fed => ?_⟩
  · obtain ⟨welcome, rfl⟩ := opened.sessions s held newest
    rfl
  · obtain ⟨welcome, rfl⟩ := opened.sessions s held newest
    exact ⟨rfl, rfl⟩
  · obtain ⟨l, member, here, streaming⟩ := fed
    rw [Link.isStreaming, (opened.links l member here).2] at streaming
    cases streaming

/-! ### A connection goes on -/

theorem Conveys.play [PurgeableLog L] (conveys : Conveys first generation resume id history sent m)
    (moves : List Move) (admitted : ∀ e ∈ m.taken moves, LawfulLog.Admits L e) :
    Conveys first generation resume id (history ++ m.taken moves)
      (sent ++ m.frames generation moves) (m.play moves) := by
  induction moves generalizing m history sent with
  | nil => simpa [play, taken, frames] using conveys
  | cons a later ih =>
    rw [taken, frames, ← List.append_assoc, ← List.append_assoc]
    refine ih (conveys.move a fun e took => admitted e ?_) fun e took => admitted e ?_
    · rw [taken, took]
      exact List.mem_append_left _ List.mem_cons_self
    · exact List.mem_append_right _ took

theorem Covers.play [PurgeableLog L] (covers : Covers generation resume history sent m)
    (conveys : Conveys first generation resume id history sent m) (moves : List Move)
    (admitted : ∀ e ∈ m.taken moves, LawfulLog.Admits L e)
    (keeps : ∀ a ∈ moves, a.isPurge = false) :
    Covers generation resume (history ++ m.taken moves) (sent ++ m.frames generation moves)
      (m.play moves) := by
  induction moves generalizing m history sent with
  | nil => simpa [play, taken, frames] using covers
  | cons a later ih =>
    have now : ∀ e, m.taken? a = some e → LawfulLog.Admits L e := fun e took =>
      admitted e (by rw [taken, took]; exact List.mem_append_left _ List.mem_cons_self)
    rw [taken, frames, ← List.append_assoc, ← List.append_assoc]
    refine ih (covers.move conveys a now (keeps a List.mem_cons_self)) (conveys.move a now)
      (fun e took => admitted e (List.mem_append_right _ took)) fun b held =>
        keeps b (List.mem_cons_of_mem a held)

end Master

/-! ### Accepted connections -/

/-- A connection that a master accepted, from the creation of the master up to any later moment. -/
structure Passage (L : Type) [LocalLog L] [LawfulLog L] where
  settings : Settings
  /-- The log that the master began with. -/
  log : L
  master : Master L
  /-- What happened before the connection. -/
  before : List Move
  address : SocketAddress
  hello : Hello
  report : LinkReport
  /-- What happened since. -/
  later : List Move
  sound : LawfulLog.Sound log
  created : Master.create settings log = .ok master
  accepted : ((master.play before).greet address (.ok (.hello hello))).2 = .ok report
  admitted : ∀ e ∈ master.taken (before ++ .greet address (.ok (.hello hello)) :: later),
    LawfulLog.Admits L e

namespace Passage

variable {L : Type} [LocalLog L] [LawfulLog L]

/-- The master when the connection was accepted. -/
def opened (p : Passage L) : Master L :=
  ((p.master.play p.before).greet p.address (.ok (.hello p.hello))).1

/-- The generation of the connection. -/
def generation (p : Passage L) : Nat := p.opened.generation

/-- The offset behind which the replica resumes. -/
def resume (p : Passage L) : Nat := p.hello.lastOffset

/-- The master now. -/
def now (p : Passage L) : Master L := p.opened.play p.later

/-- The entries that were written on the connection. -/
def frames (p : Passage L) : List Entry := p.opened.frames p.generation p.later

/-- All entries that the log ever had, purged or not. -/
def history (p : Passage L) : List Entry :=
  LawfulLog.entries p.log ++
    p.master.taken (p.before ++ .greet p.address (.ok (.hello p.hello)) :: p.later)

/-- The entries that the connection is for. -/
def due (p : Passage L) : List Entry := behind p.resume p.history

/-- What a connection carries and what becomes of it. -/
structure InOrder (p : Passage L) : Prop where
  /-- The frames carry the offsets behind the resume offset, one after the other. -/
  offsets : p.frames.map Entry.offset = List.range' (p.resume + 1) p.frames.length
  /-- They are the master's entries. -/
  entries : p.frames <+: p.due
  /-- What the log retains is the end of all that it ever had. -/
  retained : LawfulLog.entries p.now.log <:+ p.history
  /-- A connection for the same entries, with pages of any other size and any other order of steps,
  carries the same in the same order. -/
  same : ∀ q : Passage L, q.resume = p.resume → q.history = p.history →
    q.frames.length ≤ p.frames.length → q.frames <+: p.frames
  /-- An entry behind a missing offset is not written: the connection fails. -/
  gap : ∀ s e, p.now.session? p.generation = some s → s.upcoming? = some e →
    e.offset ≠ p.resume + 1 + p.frames.length →
      (p.now.advance p.generation).2 = none ∧
      (p.now.advance p.generation).1.Fails p.generation (.replication
        (.shippingGap s.replicaId (p.resume + 1 + p.frames.length) e.offset))
  /-- If nothing was purged meanwhile, then while the link is streaming nothing is missing: the
  entries that were written, the rest of what was read, those that were handed over, and the one that
  is not announced yet, are all that lie behind the resume offset, up to the end of the log. -/
  whole : (∀ a ∈ p.later, a.isPurge = false) → p.now.Fed p.generation →
    ∃ s, p.now.session? p.generation = some s ∧
      p.frames ++ s.stage.rest ++ s.connection.queue ++ p.now.unannounced.toList = p.due ∧
      p.due.map Entry.offset = List.range' (p.resume + 1) (p.now.offset - p.resume)

/-- The master's books before the connection. -/
theorem ledger [PurgeableLog L] (p : Passage L) :
    (p.master.play p.before).Ledger (LocalLog.oldest p.log)
      (LawfulLog.entries p.log ++ p.master.taken p.before) := by
  refine (Master.ledger_of_create p.sound p.created).play p.before fun e took => p.admitted e ?_
  rw [Master.taken_append]
  exact List.mem_append_left _ took

theorem history_eq (p : Passage L) : p.history =
    LawfulLog.entries p.log ++ p.master.taken p.before ++ p.opened.taken p.later := by
  rw [history, Master.taken_append, List.append_assoc]
  rfl

theorem admits (p : Passage L) : ∀ e ∈ p.opened.taken p.later, LawfulLog.Admits L e := by
  intro e took
  refine p.admitted e ?_
  rw [Master.taken_append]
  exact List.mem_append_right _ took

variable [PurgeableLog L]

theorem conveys (p : Passage L) : Master.Conveys (LocalLog.oldest p.log) p.generation p.resume
    p.hello.replicaId p.history p.frames p.now := by
  have opened := Master.conveys_of_greet p.ledger p.accepted
  have conveys := opened.play p.later p.admits
  rw [List.nil_append] at conveys
  rw [history_eq]
  exact conveys

theorem covers (p : Passage L) (keeps : ∀ a ∈ p.later, a.isPurge = false) :
    Master.Covers p.generation p.resume p.history p.frames p.now := by
  have opened := Master.covers_of_greet p.ledger p.accepted
  have covers := opened.play (Master.conveys_of_greet p.ledger p.accepted) p.later p.admits keeps
  rw [List.nil_append] at covers
  rw [history_eq]
  exact covers

/-- A connection keeps its session. -/
theorem session (p : Passage L) : ∃ s, p.now.session? p.generation = some s := by
  have present := (Master.opened_of_greet p.ledger.names p.accepted).present
  have begun := Master.conveys_of_greet p.ledger p.accepted
  have member := (begun.toLedger.sessions_play p.later p.admits).mem present
  obtain ⟨s, held, here⟩ := List.mem_map.mp member
  refine ⟨s, ?_⟩
  rw [generation, opened, ← here]
  exact p.conveys.names.find_session held

/-- Every connection carries the entries behind its offset, each once and in order, whatever is
written and purged between its steps. -/
theorem in_order (p : Passage L) : p.InOrder := by
  have conveys := p.conveys
  constructor
  case offsets => exact offsets_of_begins conveys.offsets conveys.start conveys.begins
  case entries => exact conveys.begins
  case retained => exact conveys.retained
  case same =>
    intro q resume history shorter
    have begins := q.conveys.begins
    rw [resume, history] at begins
    exact List.prefix_of_prefix_length_le begins conveys.begins shorter
  case gap =>
    intro s e found upcoming gap
    obtain ⟨held, here⟩ := Master.session_of_find found
    obtain ⟨next, -⟩ := conveys.sessions s held here
    rw [← next] at gap ⊢
    exact Master.advance_gap conveys.names conveys.belongs found upcoming gap
  case whole =>
    intro keeps fed
    obtain ⟨s, found⟩ := p.session
    obtain ⟨held, here⟩ := Master.session_of_find found
    obtain ⟨-, whole⟩ := (p.covers keeps).late s held here fed
    refine ⟨s, found, ?_, ?_⟩
    · rw [List.append_assoc p.frames]
      exact whole
    · exact conveys.due_offsets

/-! ### A replica that lacks two entries -/

/-- A replica with the first of three entries connects to a master that reads single entries. -/
def paged (later : List Move) : Passage VolatileLog where
  settings := { Master.smallSettings 2 with batchSize := 1 }
  log := {}
  master := { Master.small 2 with settings := { Master.smallSettings 2 with batchSize := 1 } }
  before := [.append [97] none, .append [98] none, .append [99] none]
  address := Settings.defaultBind
  hello := Master.visit ⟨1, [97], none⟩
  report :=
    { id := "visitor", address := Settings.defaultBind, phase := .catchingUp, lastAck := 1, lag := 2
      sent := 0, reconnects := 0 }
  later
  sound := ⟨rfl, rfl⟩
  created := rfl
  accepted := by decide +kernel
  admitted _ _ := trivial

/-- Two more writes come while the replica catches up: one is read from the log before it is
announced, and one is handed over. -/
def overtaken : List Move :=
  [.advance 1, .advance 1, .advance 1, .store [100] none, .advance 1, .advance 1, .advance 1,
    .advance 1, .advance 1, .advance 1, .announce, .advance 1, .append [101] none, .advance 1]

/-- The third entry is forgotten before it is read, and then another one is written. -/
def punched : List Move :=
  [.advance 1, .advance 1, .purge 4, .advance 1, .append [100] none, .advance 1]

/-- The replica gets what it lacks, whether it is read from the log or handed over; and where an entry
is forgotten, the connection has nothing to go on with. -/
theorem in_order_paged :
    (paged overtaken).InOrder ∧ (paged overtaken).now.Fed 1 ∧
    (paged overtaken).frames = [⟨2, [98], none⟩, ⟨3, [99], none⟩, ⟨4, [100], none⟩] ∧
    (((paged overtaken).now.session? 1).map fun s => s.connection.queue) =
      some [⟨5, [101], none⟩] ∧
    (paged punched).InOrder ∧ (paged punched).frames = [⟨2, [98], none⟩] ∧
    (((paged punched).now.session? 1).bind Session.upcoming?) = some ⟨4, [100], none⟩ := by
  refine ⟨in_order _, ?_, by decide +kernel, by decide +kernel, in_order _, by decide +kernel,
    by decide +kernel⟩
  unfold Master.Fed
  decide +kernel

end Passage

end QuorumLog
