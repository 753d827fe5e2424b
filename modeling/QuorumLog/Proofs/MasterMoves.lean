import QuorumLog.Proofs.Purging
import QuorumLog.Proofs.ShippingSteps

/-! Runs of a master in which everything is taken apart: a handshake is a step of its own, and so is
each thing that a session does, with writes and purges between them. The entries that the log took in
a run are on record, whatever the log still retains of them. -/

namespace QuorumLog

/-- One thing that happens to a master. -/
inductive Move where
  | append (payload : Bytes) (metadata : Option Bytes)
  /-- A write is stored and not announced yet. -/
  | store (payload : Bytes) (metadata : Option Bytes)
  /-- The write that was stored is announced. -/
  | announce
  | purge (offset : Nat)
  /-- The first message of a connection arrives, or cannot be read. -/
  | greet (address : SocketAddress) (first : Except Fault Message)
  /-- A session takes a step. -/
  | advance (generation : Nat)
  /-- A session hears a message. -/
  | receive (generation : Nat) (message : Message)
  /-- A replica reports what it holds. -/
  | acknowledge (id : String) (offset : Nat)
  /-- The connection of a replica is given up. -/
  | disconnect (id : String)
  | endSession (generation : Nat) (fault : Option Fault)
  | start (bind : Except Nat SocketAddress)
  | stop

/-- Whether a move forgets old entries. -/
def Move.isPurge : Move → Bool
  | .purge _ => true
  | _ => false

/-- Whether a move is neither a part of a write nor a purge. -/
def Move.isPlain : Move → Bool
  | .append .. | .store .. | .announce | .purge _ => false
  | _ => true

namespace Master

variable {L : Type} [LocalLog L] {m : Master L} {generation first : Nat} {id : String}
variable {history : List Entry}

/-- The master after a move. -/
def move (m : Master L) : Move → Master L
  | .append payload metadata => (m.append payload metadata).1
  | .store payload metadata => (m.store payload metadata).1
  | .announce => m.announce.1
  | .purge offset => { m with log := (LocalLog.purge m.log offset).1 }
  | .greet address first => (m.greet address first).1
  | .advance generation => (m.advance generation).1
  | .receive generation message => m.receive generation message
  | .acknowledge id offset => m.acknowledge id offset
  | .disconnect id => m.closeLink id none
  | .endSession generation fault => m.endSession generation fault
  | .start bind => (m.start bind).1
  | .stop => m.stop

/-- The master after some moves. -/
def play (m : Master L) (moves : List Move) : Master L := moves.foldl move m

/-- The entry that the log takes in a move. -/
def taken? (m : Master L) : Move → Option Entry
  | .append payload metadata | .store payload metadata =>
    if m.stopped ∨ m.unannounced.isSome then none
    else match LocalLog.append m.log payload metadata with
      | (_, .ok offset) => some ⟨offset, payload, metadata⟩
      | (_, .error _) => none
  | _ => none

/-- The entries that the log takes in some moves. -/
def taken (m : Master L) : List Move → List Entry
  | [] => []
  | a :: later => (m.taken? a).toList ++ (m.move a).taken later

/-- The entry that a move writes on the connection of a generation. -/
def frame? (m : Master L) (generation : Nat) : Move → Option Entry
  | .advance other =>
    if other = generation then (m.advance generation).2.bind Message.entry? else none
  | _ => none

/-- The entries that some moves write on the connection of a generation. -/
def frames (m : Master L) (generation : Nat) : List Move → List Entry
  | [] => []
  | a :: later => (m.frame? generation a).toList ++ (m.move a).frames generation later

theorem taken_append (m : Master L) (before later : List Move) :
    m.taken (before ++ later) = m.taken before ++ (m.play before).taken later := by
  induction before generalizing m with
  | nil => rfl
  | cons a before ih => simp [taken, play, ih, List.append_assoc]

/-! ### Writes -/

/-- A write that is stored takes the log's next place; any other changes neither its entries nor what
waits to be announced. -/
theorem store_taken [LawfulLog L] (sound : LawfulLog.Sound m.log) (payload : Bytes)
    (metadata : Option Bytes) :
    (m.taken? (.store payload metadata) = none ∧
      LawfulLog.Sound (m.store payload metadata).1.log ∧
      LawfulLog.entries (m.store payload metadata).1.log = LawfulLog.entries m.log ∧
      LocalLog.highest (m.store payload metadata).1.log = LocalLog.highest m.log ∧
      (m.store payload metadata).1.unannounced = m.unannounced) ∨
    ∃ log offset, m.unannounced = none ∧
      LocalLog.append m.log payload metadata = (log, .ok offset) ∧
      m.taken? (.store payload metadata) = some ⟨offset, payload, metadata⟩ ∧
      (m.store payload metadata).1 =
        { m with log, unannounced := some ⟨offset, payload, metadata⟩ } := by
  by_cases stopped : m.stopped
  · refine .inl ⟨by simp [taken?, stopped], ?_⟩
    rw [store, if_pos stopped]
    exact ⟨sound, rfl, rfl, rfl⟩
  by_cases busy : m.unannounced.isSome
  · refine .inl ⟨by simp [taken?, busy], ?_⟩
    rw [store, if_neg stopped, if_pos busy]
    exact ⟨sound, rfl, rfl, rfl⟩
  have free : ¬(m.stopped ∨ m.unannounced.isSome) := by simp [stopped, busy]
  rw [store, if_neg stopped, if_neg busy, taken?, if_neg free]
  cases ran : LocalLog.append m.log payload metadata with
  | mk log result =>
    cases result with
    | ok offset => exact .inr ⟨log, offset, by simpa using busy, rfl, rfl, rfl⟩
    | error fault =>
      obtain ⟨sound', same⟩ := LawfulLog.append_fails sound ran
      exact .inl ⟨rfl, sound', same, NumberedLog.append_fails_in_place ran, rfl⟩

/-- A whole write is nothing, or it is stored, or stored and announced. -/
theorem move_append (m : Master L) (payload : Bytes) (metadata : Option Bytes) :
    (m.taken? (.append payload metadata) = none ∧ m.move (.append payload metadata) = m) ∨
    m.move (.append payload metadata) = m.move (.store payload metadata) ∨
    m.move (.append payload metadata) = (m.move (.store payload metadata)).move .announce := by
  rcases append_cases m payload metadata with ⟨busy, same⟩ | ⟨write, -, same⟩ | ⟨-, -, same⟩
  · exact .inl ⟨by simp [taken?, busy], congrArg Prod.fst same⟩
  · exact .inr (.inl (congrArg Prod.fst same))
  · exact .inr (.inr (congrArg Prod.fst same))

omit [LocalLog L] in
/-- An announcement touches the log and the links as little as the place of any session. -/
theorem announce_books (m : Master L) : m.announce.1.log = m.log ∧
    m.announce.1.links = m.links ∧ m.announce.1.generation = m.generation ∧
    m.announce.1.unannounced = none ∧
    m.announce.1.sessions.map (·.generation) = m.sessions.map (·.generation) := by
  unfold announce
  split
  · rename_i idle
    exact ⟨rfl, rfl, rfl, idle, rfl⟩
  · refine ⟨rfl, rfl, rfl, rfl, ?_⟩
    simp only [countResolved, forward, List.map_map]
    refine List.map_congr_left fun s _ => ?_
    simp only [Function.comp_apply]
    split <;> rfl

/-! ### Plain moves -/

theorem steady_move (numbered : m.Numbered) {a : Move} (plain : a.isPlain) :
    Steady m (m.move a) := by
  cases a with
  | append | store | announce | purge => cases plain
  | greet address first => exact steady_greet numbered address first
  | advance generation => exact steady_advance numbered generation
  | receive generation message => exact steady_receive numbered generation message
  | acknowledge id offset => exact steady_acknowledge numbered id offset
  | disconnect id => exact steady_of_quiet numbered (quiet_closeLink m id none : Silent m _)
  | endSession generation fault =>
    exact steady_of_quiet numbered (quiet_endSession m generation fault : Silent m _)
  | start bind => exact steady_of_quiet numbered (quiet_start m bind : Silent m _)
  | stop => exact steady_of_quiet numbered (quiet_stop m : Silent m _)

/-- A plain move that is no step of its own session leaves a connection as it is, or brings it
down. -/
theorem leaves_move (numbered : m.Numbered) (belongs : m.Belongs generation id) {a : Move}
    (plain : a.isPlain) (other : a ≠ .advance generation) : Leaves generation m (m.move a) := by
  cases a with
  | append | store | announce | purge => cases plain
  | greet address first => exact leaves_greet m belongs address first
  | advance number =>
    refine leaves_advance m numbered belongs fun same => ?_
    exact other (congrArg Move.advance same)
  | receive number message => exact leaves_receive m numbered belongs number message
  | acknowledge name offset => exact leaves_acknowledge m name offset
  | disconnect name => exact leaves_closeLink m belongs name none
  | endSession number fault => exact leaves_endSession m numbered belongs number fault
  | start bind => exact leaves_start m bind
  | stop => exact leaves_stop m

/-- No move forgets a session. -/
theorem sessions_move (numbered : m.Numbered) (a : Move) :
    m.sessions.map (·.generation) <+: (m.move a).sessions.map (·.generation) := by
  have stored (payload : Bytes) (metadata : Option Bytes) : m.sessions.map (·.generation) =
      (m.move (.store payload metadata)).sessions.map (·.generation) :=
    congrArg _ (store_same m payload metadata).2.1.symm
  have announced (m : Master L) : m.sessions.map (·.generation) =
      (m.move .announce).sessions.map (·.generation) := (announce_books m).2.2.2.2.symm
  cases a with
  | append payload metadata =>
    rcases move_append m payload metadata with ⟨-, same⟩ | same | same
    · rw [same]
    · rw [same, stored payload metadata]
    · rw [same, ← announced, stored payload metadata]
  | store payload metadata => rw [stored payload metadata]
  | announce => rw [announced m]
  | purge offset => exact List.prefix_refl _
  | _ => exact (steady_move numbered rfl).sessions

theorem Numbered.move (numbered : m.Numbered) (a : Move) : (m.move a).Numbered := by
  have stored (payload : Bytes) (metadata : Option Bytes) :
      (m.move (.store payload metadata)).Numbered := by
    obtain ⟨links, sessions, issued⟩ := store_same m payload metadata
    exact numbered.same links (congrArg _ sessions) issued
  have announced {m : Master L} (numbered : m.Numbered) : (m.move .announce).Numbered := by
    obtain ⟨-, links, issued, -, sessions⟩ := announce_books m
    exact numbered.same links sessions issued
  cases a with
  | append payload metadata =>
    rcases move_append m payload metadata with ⟨-, same⟩ | same | same
    · rw [same]; exact numbered
    · rw [same]; exact stored payload metadata
    · rw [same]; exact announced (stored payload metadata)
  | store payload metadata => exact stored payload metadata
  | announce => exact announced numbered
  | purge offset => exact numbered.same rfl rfl rfl
  | _ => exact (steady_move numbered rfl).numbered

omit [LocalLog L] in
theorem numbered_of_create {settings : Settings} {log : L} (created : create settings log = .ok m) :
    m.Numbered := by
  obtain ⟨-, rfl⟩ := create_of_ok created
  refine ⟨?_, ?_, ?_, ?_⟩ <;> simp

theorem Numbered.play (numbered : m.Numbered) (moves : List Move) : (m.play moves).Numbered := by
  induction moves generalizing m with
  | nil => exact numbered
  | cons a later ih => exact ih (numbered.move a)

/-! ### What the log took -/

/-- The entries that the log ever took, with those that it began with: numbered without a gap from the
first, and the log retains the end of them. -/
structure Ledger (first : Nat) (history : List Entry) (m : Master L) [LawfulLog L] : Prop where
  names : m.Numbered
  sound : LawfulLog.Sound m.log
  offsets : history.map Entry.offset = List.range' first history.length
  span : first + history.length = m.offset + 1
  retained : LawfulLog.entries m.log <:+ history
  stored : ∀ e, m.unannounced = some e → e ∈ history

variable [LawfulLog L]

theorem ledger_of_create {settings : Settings} {log : L} (sound : LawfulLog.Sound log)
    (created : create settings log = .ok m) :
    m.Ledger (LocalLog.oldest log) (LawfulLog.entries log) := by
  have numbered := numbered_of_create created
  obtain ⟨-, rfl⟩ := create_of_ok created
  exact ⟨numbered, sound, LawfulLog.entries_numbered sound, LawfulLog.entries_span sound,
    List.suffix_refl _, by simp⟩

theorem Ledger.steady (ledger : m.Ledger first history) {m' : Master L} (steady : Steady m m') :
    m'.Ledger first history where
  names := steady.numbered
  sound := steady.log ▸ ledger.sound
  offsets := ledger.offsets
  span := by rw [offset, steady.log]; exact ledger.span
  retained := steady.log ▸ ledger.retained
  stored := by rw [steady.unannounced]; exact ledger.stored

theorem Ledger.store (ledger : m.Ledger first history) (payload : Bytes)
    (metadata : Option Bytes)
    (admitted : ∀ e, m.taken? (.store payload metadata) = some e → LawfulLog.Admits L e) :
    (m.store payload metadata).1.Ledger first
      (history ++ (m.taken? (.store payload metadata)).toList) := by
  obtain ⟨links, sessions, issued⟩ := store_same m payload metadata
  have names := ledger.names.same links (congrArg _ sessions) issued
  rcases store_taken ledger.sound payload metadata with
    ⟨none, sound, same, ends, idle⟩ | ⟨log, offset, -, ran, taken, after⟩
  · rw [none, Option.toList_none, List.append_nil]
    exact ⟨names, sound, ledger.offsets, ledger.span.trans (congrArg (· + 1) ends.symm),
      same ▸ ledger.retained, idle ▸ ledger.stored⟩
  · obtain ⟨sound, entries⟩ := LawfulLog.append_stores ledger.sound ran (admitted _ taken)
    obtain ⟨next, ends⟩ := NumberedLog.append_takes_next ran
    have span := ledger.span
    rw [Master.offset] at span
    rw [after] at names ⊢
    rw [taken, Option.toList_some]
    refine ⟨names, sound, ?_, ?_, ?_, ?_⟩
    · rw [List.map_append, ledger.offsets, List.length_append, List.length_singleton,
        List.range'_1_concat, List.map_singleton]
      congr 2
      show offset = _
      omega
    · rw [List.length_append, List.length_singleton, Master.offset, ends]
      omega
    · obtain ⟨older, split⟩ := ledger.retained
      exact ⟨older, by rw [entries, ← List.append_assoc, split]⟩
    · rintro e ⟨⟩
      exact List.mem_append_right _ List.mem_cons_self

theorem Ledger.announce (ledger : m.Ledger first history) : m.announce.1.Ledger first history := by
  obtain ⟨log, links, issued, idle, sessions⟩ := announce_books m
  refine ⟨ledger.names.same links sessions issued, log ▸ ledger.sound, ledger.offsets, ?_,
    log ▸ ledger.retained, ?_⟩
  · rw [offset, log]
    exact ledger.span
  · rw [idle]
    rintro e ⟨⟩

theorem Ledger.purge [PurgeableLog L] (ledger : m.Ledger first history) (offset : Nat) :
    (m.move (.purge offset)).Ledger first history := by
  cases ran : LocalLog.purge m.log offset with
  | mk log result =>
    obtain ⟨sound, ends, gone, -, split, -⟩ := PurgeableLog.purge_forgets ledger.sound ran
    have log' : (m.move (.purge offset)).log = log := congrArg Prod.fst ran
    refine ⟨ledger.names.same rfl rfl rfl, log' ▸ sound, ledger.offsets, ?_, ?_, ledger.stored⟩
    · rw [Master.offset, log', ends]
      exact ledger.span
    · rw [log']
      exact List.IsSuffix.trans ⟨gone, split.symm⟩ ledger.retained

/-- In every move the log takes what is on record for it, in the next place. -/
theorem Ledger.move [PurgeableLog L] (ledger : m.Ledger first history) (a : Move)
    (admitted : ∀ e, m.taken? a = some e → LawfulLog.Admits L e) :
    (m.move a).Ledger first (history ++ (m.taken? a).toList) := by
  have kept (none : m.taken? a = none) (same : (m.move a).Ledger first history) :
      (m.move a).Ledger first (history ++ (m.taken? a).toList) := by
    rw [none, Option.toList_none, List.append_nil]
    exact same
  cases a with
  | append payload metadata =>
    have stored := ledger.store payload metadata admitted
    rcases move_append m payload metadata with ⟨none, same⟩ | same | same
    · rw [none, same, Option.toList_none, List.append_nil]
      exact ledger
    · rw [same]
      exact stored
    · rw [same]
      exact stored.announce
  | store payload metadata => exact ledger.store payload metadata admitted
  | announce => exact kept rfl ledger.announce
  | purge offset => exact kept rfl (ledger.purge offset)
  | _ => exact kept rfl (ledger.steady (steady_move ledger.names rfl))

theorem Ledger.play [PurgeableLog L] (ledger : m.Ledger first history) (moves : List Move)
    (admitted : ∀ e ∈ m.taken moves, LawfulLog.Admits L e) :
    (m.play moves).Ledger first (history ++ m.taken moves) := by
  induction moves generalizing m history with
  | nil => simpa [play, taken] using ledger
  | cons a later ih =>
    rw [taken, ← List.append_assoc]
    refine ih (ledger.move a fun e took => admitted e ?_) fun e took => admitted e ?_
    · rw [taken, took]
      exact List.mem_append_left _ List.mem_cons_self
    · exact List.mem_append_right _ took

theorem Ledger.sessions_play [PurgeableLog L] (ledger : m.Ledger first history) (moves : List Move)
    (admitted : ∀ e ∈ m.taken moves, LawfulLog.Admits L e) :
    m.sessions.map (·.generation) <+: (m.play moves).sessions.map (·.generation) := by
  induction moves generalizing m history with
  | nil => exact List.prefix_refl _
  | cons a later ih =>
    refine (sessions_move ledger.names a).trans (ih (ledger.move a fun e took => admitted e ?_)
      fun e took => admitted e (List.mem_append_right _ took))
    rw [taken, took]
    exact List.mem_append_left _ List.mem_cons_self

end Master

end QuorumLog
