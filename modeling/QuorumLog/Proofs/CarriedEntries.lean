import QuorumLog.Proofs.MasterMoves

/-! What one connection carries. The entries that were written on it are the first ones behind the
offset at which the replica resumed, and the next one that is due follows them. While nothing is
forgotten, what its session is about to write comes right behind that and reaches to the end of the
log as soon as new entries are handed over. -/

namespace QuorumLog

/-- The entries behind an offset. -/
def behind (resume : Nat) (history : List Entry) : List Entry :=
  history.filter (resume < ·.offset)

section Behind

variable {first resume : Nat} {history sent : List Entry} {e : Entry}

theorem behind_eq_drop (offsets : history.map Entry.offset = List.range' first history.length) :
    behind resume history = history.drop (resume + 1 - first) :=
  LawfulLog.filter_numbered (resume + 1) first history offsets

/-- The entries behind an offset are numbered from there on. -/
theorem behind_offsets (offsets : history.map Entry.offset = List.range' first history.length)
    (start : first ≤ resume + 1) : (behind resume history).map Entry.offset =
      List.range' (resume + 1) (behind resume history).length := by
  rw [behind_eq_drop offsets, List.map_drop, offsets, List.drop_range', List.length_drop]
  congr 1
  omega

/-- The first entries behind an offset are numbered from there on too. -/
theorem offsets_of_begins (offsets : history.map Entry.offset = List.range' first history.length)
    (start : first ≤ resume + 1) (begins : sent <+: behind resume history) :
    sent.map Entry.offset = List.range' (resume + 1) sent.length := by
  obtain ⟨rest, split⟩ := begins
  have numbers := behind_offsets offsets start
  rw [← split, List.map_append, List.length_append, ← List.range'_append_1] at numbers
  exact (List.append_inj numbers (by simp)).1

/-- The entry with the next offset comes next. -/
theorem behind_next (offsets : history.map Entry.offset = List.range' first history.length)
    (start : first ≤ resume + 1) (begins : sent <+: behind resume history) (held : e ∈ history)
    (due : e.offset = resume + 1 + sent.length) : sent ++ [e] <+: behind resume history := by
  have member : e ∈ behind resume history := List.mem_filter.mpr ⟨held, by
    rw [decide_eq_true_eq]
    omega⟩
  obtain ⟨i, place⟩ := List.getElem?_of_mem member
  have within := (List.getElem?_eq_some_iff.mp place).1
  have number := congrArg (·[i]?) (behind_offsets offsets start)
  simp only [List.getElem?_map, place, Option.map_some, List.getElem?_range' within,
    Option.some.injEq] at number
  have here : i = sent.length := by omega
  have next : (behind resume history).take (sent.length + 1) = sent ++ [e] := by
    rw [List.take_add_one, ← List.prefix_iff_eq_take.mp begins, ← here, place, Option.toList_some]
  exact next ▸ List.take_prefix _ _

/-- What was not written yet lies behind what was. -/
theorem behind_split (offsets : history.map Entry.offset = List.range' first history.length)
    (start : first ≤ resume + 1) (begins : sent <+: behind resume history) :
    sent ++ behind (resume + sent.length) history = behind resume history := by
  have rest : behind (resume + sent.length) history = (behind resume history).drop sent.length := by
    rw [behind_eq_drop offsets, behind_eq_drop offsets, List.drop_drop]
    congr 1
    omega
  rw [rest]
  exact List.prefix_iff_eq_append.mp begins

theorem behind_append {new : List Entry} (later : ∀ e ∈ new, resume < e.offset) :
    behind resume (history ++ new) = behind resume history ++ new := by
  have all : new.filter (resume < ·.offset) = new :=
    List.filter_eq_self.mpr fun e held => decide_eq_true (later e held)
  rw [behind, List.filter_append, all, behind]

end Behind

namespace Master

variable {L : Type} [LocalLog L] [LawfulLog L] {m m' : Master L} {first generation resume : Nat}
variable {id : String} {history sent new : List Entry} {s s' : Session} {frame : Option Entry}
variable {begun : Bool}

/-! ### Reading what is due -/

theorem Ledger.of_read (ledger : m.Ledger first history) {start limit : Nat} {found : List Entry}
    (read : LocalLog.read m.log start limit = .ok found) : ∀ e ∈ found, e ∈ history := by
  intro e held
  rw [LawfulLog.read_gives ledger.sound read] at held
  exact ledger.retained.mem (List.mem_filter.mp (List.mem_of_mem_take held)).1

/-- The end of the log is everything that lies behind an offset, if it is retained. -/
theorem Ledger.of_readTail (ledger : m.Ledger first history)
    (retained : LocalLog.oldest m.log ≤ resume + 1) {tail : List Entry}
    (read : LocalLog.readTail m.log (resume + 1) = .ok tail) : tail = behind resume history := by
  have span := ledger.span
  have span' := LawfulLog.entries_span ledger.sound
  rw [offset] at span
  have rest : behind resume (LawfulLog.entries m.log) = behind resume history := by
    have kept := List.suffix_iff_eq_drop.mp ledger.retained
    rw [behind_eq_drop (LawfulLog.entries_numbered ledger.sound), behind_eq_drop ledger.offsets, kept,
      List.drop_drop]
    congr 1
    have length := congrArg List.length kept
    rw [List.length_drop] at length
    omega
  rw [LawfulLog.read_gives ledger.sound read]
  refine (List.take_of_length_le ?_).trans rest
  refine (congrArg List.length rest).trans_le ?_
  rw [behind_eq_drop ledger.offsets, List.length_drop]
  omega

/-! ### What is written -/

/-- What a connection carried: the first entries behind its offset, and its session is at the next
one. -/
structure Conveys (first generation resume : Nat) (id : String) (history sent : List Entry)
    (m : Master L) : Prop extends Ledger first history m where
  belongs : m.Belongs generation id
  start : first ≤ resume + 1
  reached : resume ≤ m.offset
  begins : sent <+: behind resume history
  sessions : ∀ s ∈ m.sessions, s.generation = generation →
    s.next = resume + 1 + sent.length ∧ ∀ e ∈ s.waiting, e ∈ history

/-- The entries that a connection is for reach to the end of the log. -/
theorem Conveys.due_offsets (conveys : Conveys first generation resume id history sent m) :
    (behind resume history).map Entry.offset = List.range' (resume + 1) (m.offset - resume) := by
  have span := conveys.span
  have start := conveys.start
  rw [behind_offsets conveys.offsets start, behind_eq_drop conveys.offsets, List.length_drop]
  congr 1
  omega

/-- A step that leaves the connection as it is, while the log may take more. -/
theorem Conveys.leaves (conveys : Conveys first generation resume id history sent m)
    (leaves : Leaves generation m m') (ledger : m'.Ledger first (history ++ new)) :
    Conveys first generation resume id (history ++ new) sent m' where
  toLedger := ledger
  belongs := conveys.belongs.leaves leaves
  start := conveys.start
  reached := by
    have span := conveys.span
    have span' := ledger.span
    have reached := conveys.reached
    rw [List.length_append] at span'
    omega
  begins := by
    rw [behind, List.filter_append]
    exact conveys.begins.trans (List.prefix_append _ _)
  sessions s' held here := by
    obtain ⟨s, before, rests, -⟩ := leaves.sessions s' held here
    obtain ⟨next, waiting⟩ := conveys.sessions s before (rests.generation.symm.trans here)
    refine ⟨rests.next.trans next, fun e waits => ?_⟩
    exact List.mem_append_left _ (waiting e (rests.waiting e waits))

/-- A session that goes on writes nothing but the entry that is due. -/
theorem Conveys.session (conveys : Conveys first generation resume id history sent m)
    (held : s ∈ m.sessions) (here : s.generation = generation) (goes : m.Goes s s' frame begun) :
    sent ++ frame.toList <+: behind resume history ∧
      s'.next = resume + 1 + (sent ++ frame.toList).length ∧ ∀ e ∈ s'.waiting, e ∈ history := by
  obtain ⟨next, waiting⟩ := conveys.sessions s held here
  have quiet {stage : Stage} (rest : ∀ e ∈ stage.rest, e ∈ history) :
      sent ++ (none : Option Entry).toList <+: behind resume history ∧
      s.next = resume + 1 + (sent ++ (none : Option Entry).toList).length ∧
      ∀ e ∈ Session.waiting { s with stage }, e ∈ history := by
    rw [Option.toList_none, List.append_nil]
    refine ⟨conveys.begins, next, fun e waits => ?_⟩
    rcases List.mem_append.mp waits with written | queued
    · exact rest e written
    · exact waiting e (List.mem_append_right _ queued)
  have writes {e : Entry} (held : e ∈ history) (due : e.offset = s.next) :
      sent ++ (some e).toList <+: behind resume history ∧
      s.next + 1 = resume + 1 + (sent ++ (some e).toList).length := by
    rw [Option.toList_some]
    refine ⟨behind_next conveys.offsets conveys.start conveys.begins held (due.trans next), ?_⟩
    rw [List.length_append, List.length_singleton, next]
    rfl
  cases goes with
  | welcomed stage => exact quiet (by simp [Stage.rest])
  | exhausted stage => exact quiet (by simp [Stage.rest])
  | page stage read => exact quiet fun e member => conveys.of_read read e member
  | @wrote slice e rest count stage due =>
    have all : ∀ x ∈ e :: rest, x ∈ history := fun x member =>
      waiting x (List.mem_append_left _ (by rw [stage]; exact member))
    obtain ⟨begins, after⟩ := writes (all e List.mem_cons_self) due
    refine ⟨begins, after, fun x waits => ?_⟩
    rcases List.mem_append.mp waits with written | queued
    · refine all x (List.mem_cons_of_mem e ?_)
      cases rest with
      | nil => cases slice <;> cases written
      | cons => exact written
    · exact waiting x (List.mem_append_right _ queued)
  | @through slice count stage => exact quiet (by cases slice <;> simp [Slice.after, Stage.rest])
  | begins stage idle read =>
    refine quiet fun e member => conveys.of_read read e ?_
    unfold sendingStage at member
    split at member
    · cases member
    · exact member
  | completed stage => exact quiet (by simp [Stage.rest])
  | fresh stage queue due =>
    have all : ∀ x ∈ s.connection.queue, x ∈ history := fun x member =>
      waiting x (List.mem_append_right _ member)
    rw [queue] at all
    obtain ⟨begins, after⟩ := writes (all _ List.mem_cons_self) due
    exact ⟨begins, after, fun x waits => all x (List.mem_cons_of_mem _ waits)⟩

theorem Conveys.goes (conveys : Conveys first generation resume id history sent m)
    (held : s ∈ m.sessions) (here : s.generation = generation) (goes : m.Goes s s' frame begun)
    (becomes : Becomes generation s' begun m m') (belongs : m'.Belongs generation id)
    (ledger : m'.Ledger first history) (ends : m'.offset = m.offset) :
    Conveys first generation resume id history (sent ++ frame.toList) m' := by
  obtain ⟨begins, session⟩ := conveys.session held here goes
  refine ⟨ledger, belongs, conveys.start, ends ▸ conveys.reached, begins, ?_⟩
  intro t present newest
  rw [becomes.session t present newest]
  exact session

omit [LocalLog L] [LawfulLog L] in
/-- A session to which an entry is handed is about to write at most that one more. -/
theorem waiting_offer (s : Session) (e : Entry) :
    ∀ x ∈ Session.waiting { s with connection := s.connection.offer e },
      x ∈ s.waiting ∨ x = e := by
  intro x waits
  rcases List.mem_append.mp waits with written | queued
  · exact .inl (List.mem_append_left _ written)
  · unfold Connection.offer at queued
    split at queued
    · rcases List.mem_append.mp queued with earlier | new
      · exact .inl (List.mem_append_right _ earlier)
      · exact .inr (List.mem_singleton.mp new)
    · exact .inl (List.mem_append_right _ queued)

omit [LocalLog L] [LawfulLog L] in
theorem announce_sessions {e : Entry} (stored : m.unannounced = some e) :
    ∀ s' ∈ m.announce.1.sessions, ∃ s ∈ m.sessions,
      s' = if m.isFed s then { s with connection := s.connection.offer e } else s := by
  unfold announce
  rw [stored]
  intro s' member
  obtain ⟨s, before, rfl⟩ := List.mem_map.mp member
  exact ⟨s, before, rfl⟩

/-- An announcement gives a session at most the stored entry. -/
theorem Conveys.announce (conveys : Conveys first generation resume id history sent m) :
    Conveys first generation resume id history sent m.announce.1 := by
  obtain ⟨log, links, issued, -, -⟩ := announce_books m
  cases stored : m.unannounced with
  | none =>
    rw [Master.announce, stored]
    exact conveys
  | some e =>
    have known := conveys.stored e stored
    have each : ∀ s' ∈ m.announce.1.sessions, ∃ s ∈ m.sessions, s'.generation = s.generation ∧
        s'.replicaId = s.replicaId ∧ s'.next = s.next ∧
          ∀ x ∈ s'.waiting, x ∈ s.waiting ∨ x = e := by
      intro s' member
      obtain ⟨s, before, rfl⟩ := announce_sessions stored s' member
      refine ⟨s, before, ?_⟩
      split
      · exact ⟨rfl, rfl, rfl, waiting_offer s e⟩
      · exact ⟨rfl, rfl, rfl, fun _ => .inl⟩
    refine ⟨conveys.toLedger.announce, ⟨?_, ?_, ?_⟩, conveys.start, ?_, conveys.begins, ?_⟩
    · exact issued ▸ conveys.belongs.issued
    · exact links ▸ conveys.belongs.links
    · intro s' member here
      obtain ⟨s, before, same, name, -⟩ := each s' member
      exact name.trans (conveys.belongs.sessions s before (same.symm.trans here))
    · rw [Master.offset, log]
      exact conveys.reached
    · intro s' member here
      obtain ⟨s, before, same, -, next, waits⟩ := each s' member
      obtain ⟨due, waiting⟩ := conveys.sessions s before (same.symm.trans here)
      refine ⟨next.trans due, fun x member => ?_⟩
      rcases waits x member with old | rfl
      · exact waiting x old
      · exact known

omit [LawfulLog L] in
/-- What a move is to a connection, if it announces nothing: it leaves it as it is, or brings it down,
or it is a step of its session. -/
theorem move_cases (names : m.Numbered) (belongs : m.Belongs generation id) {a : Move}
    (whole : ∀ payload metadata, a ≠ .append payload metadata) (late : a ≠ .announce) :
    (Leaves generation m (m.move a) ∧ m.frame? generation a = none) ∨
    (a = .advance generation ∧ ∃ s ∈ m.sessions, s.generation = generation ∧ ∃ s' begun,
      m.Goes s s' (m.frame? generation a) begun ∧ Becomes generation s' begun m (m.move a)) := by
  cases a with
  | append payload metadata => exact absurd rfl (whole payload metadata)
  | announce => exact absurd rfl late
  | store payload metadata => exact .inl ⟨leaves_store m payload metadata, rfl⟩
  | purge offset => exact .inl ⟨leaves_of_same rfl rfl (Nat.le_refl _), rfl⟩
  | advance other =>
    by_cases own : other = generation
    · subst own
      rw [frame?, if_pos rfl]
      cases found : m.session? other with
      | none =>
        rw [Master.move, advance, found]
        exact .inl ⟨.refl m, rfl⟩
      | some s =>
        obtain ⟨held, here⟩ := session_of_find found
        rcases advance_yields names belongs found with left | goes
        · exact .inl left
        · exact .inr ⟨rfl, s, held, here, goes⟩
    · refine .inl ⟨leaves_advance m names belongs own, ?_⟩
      rw [frame?, if_neg own]
  | _ => exact .inl ⟨leaves_move names belongs rfl (by simp), rfl⟩

theorem Conveys.step [PurgeableLog L] (conveys : Conveys first generation resume id history sent m)
    {a : Move} (admitted : ∀ e, m.taken? a = some e → LawfulLog.Admits L e)
    (whole : ∀ payload metadata, a ≠ .append payload metadata) (late : a ≠ .announce) :
    Conveys first generation resume id (history ++ (m.taken? a).toList)
      (sent ++ (m.frame? generation a).toList) (m.move a) := by
  have ledger := conveys.toLedger.move a admitted
  rcases move_cases conveys.names conveys.belongs whole late with ⟨leaves, quiet⟩ |
    ⟨rfl, s, held, here, s', begun, goes, becomes⟩
  · rw [quiet, Option.toList_none, List.append_nil]
    exact conveys.leaves leaves ledger
  · have steady := steady_advance conveys.names generation
    have none : m.taken? (.advance generation) = none := rfl
    rw [none, Option.toList_none, List.append_nil] at ledger ⊢
    exact conveys.goes held here goes becomes (conveys.belongs.advance conveys.names generation)
      ledger (congrArg LocalLog.highest steady.log)

/-- In every move a connection carries what is on record for it. -/
theorem Conveys.move [PurgeableLog L] (conveys : Conveys first generation resume id history sent m)
    (a : Move) (admitted : ∀ e, m.taken? a = some e → LawfulLog.Admits L e) :
    Conveys first generation resume id (history ++ (m.taken? a).toList)
      (sent ++ (m.frame? generation a).toList) (m.move a) := by
  by_cases late : a = .announce
  · subst late
    simpa [taken?, frame?, Master.move] using conveys.announce
  by_cases write : ∃ payload metadata, a = .append payload metadata
  · obtain ⟨payload, metadata, rfl⟩ := write
    have stored := conveys.step (a := .store payload metadata) admitted (by simp) (by simp)
    rcases move_append m payload metadata with ⟨none, same⟩ | same | same
    · rw [none, same, Option.toList_none, List.append_nil]
      simpa [frame?] using conveys
    · rw [same]
      exact stored
    · rw [same]
      exact stored.announce
  · apply conveys.step admitted _ late
    intro payload metadata same
    exact write ⟨payload, metadata, same⟩

/-! ### What is about to be written -/

section Fed

omit [LocalLog L] [LawfulLog L]

/-- New entries are handed over to the connection of a generation. -/
def Fed (m : Master L) (generation : Nat) : Prop :=
  ∃ l ∈ m.links, l.generation = generation ∧ l.isStreaming

theorem Fed.connected (fed : m.Fed generation) : m.Connected generation := by
  obtain ⟨l, held, here, streaming⟩ := fed
  refine ⟨l, held, here, ?_⟩
  rw [Link.isConnected, of_decide_eq_true streaming]
  rfl

theorem Belongs.link_unique (belongs : m.Belongs generation id) (names : m.Numbered) {l l' : Link}
    (held : l ∈ m.links) (here : l.generation = generation) (held' : l' ∈ m.links)
    (here' : l'.generation = generation) : l = l' :=
  names.link_unique held held'
    ((belongs.links l held here).trans (belongs.links l' held' here').symm)

/-- A connection that its link keeps is fed if it was before. -/
theorem fed_iff (names : m.Numbered) (belongs : m.Belongs generation id)
    (links : ∀ l' ∈ m'.links, l'.generation = generation → ∃ l ∈ m.links,
      l.generation = generation ∧ (l'.isConnected → l'.phase = l.phase))
    (connected : m'.Connected generation) : m'.Fed generation ↔ m.Fed generation := by
  constructor
  · intro fed
    obtain ⟨l', held, here, streaming⟩ := fed
    obtain ⟨l, before, newest, same⟩ := links l' held here
    have phase : l'.phase = .streaming := of_decide_eq_true streaming
    refine ⟨l, before, newest, ?_⟩
    rw [Link.isStreaming, ← same (by rw [Link.isConnected, phase]; rfl)]
    exact streaming
  · rintro ⟨l₀, before₀, newest₀, streaming⟩
    obtain ⟨l', held, here, up⟩ := connected
    obtain ⟨l, before, newest, same⟩ := links l' held here
    refine ⟨l', held, here, ?_⟩
    rw [Link.isStreaming, same up, belongs.link_unique names before newest before₀ newest₀]
    exact streaming

theorem Leaves.fed_iff (leaves : Leaves generation m m') (names : m.Numbered)
    (belongs : m.Belongs generation id) (connected : m'.Connected generation) :
    m'.Fed generation ↔ m.Fed generation := by
  refine Master.fed_iff names belongs (fun l' held here => ?_) connected
  obtain ⟨l, before, newest, -, same⟩ := leaves.links l' held here
  exact ⟨l, before, newest, same⟩

/-- The connection that is fed is that of the sessions to which an entry is handed. -/
theorem isFed_iff (belongs : m.Belongs generation id) (held : s ∈ m.sessions)
    (here : s.generation = generation) : m.isFed s ↔ m.Fed generation := by
  simp only [isFed, List.any_eq_true, decide_eq_true_eq, Fed, here]
  refine exists_congr fun l => and_congr_right fun member => ?_
  constructor
  · rintro ⟨-, newest, streaming⟩
    exact ⟨newest, streaming⟩
  · rintro ⟨newest, streaming⟩
    refine ⟨?_, newest, streaming⟩
    rw [belongs.links l member newest, belongs.sessions s held here]

end Fed

/-- What a connection covers while nothing that it needs is forgotten: before it is fed, its session
reads the log; from then on what it wrote and is about to write reaches to the end of the log. -/
structure Covers (generation resume : Nat) (history sent : List Entry) (m : Master L) : Prop where
  retained : LocalLog.oldest m.log ≤ resume + 1
  takes : ∀ s ∈ m.sessions, s.generation = generation → m.Connected generation →
    s.connection.takes
  early : ∀ s ∈ m.sessions, s.generation = generation → m.Connected generation →
    ¬m.Fed generation → s.stage.isEarly ∧ s.connection.queue = []
  late : ∀ s ∈ m.sessions, s.generation = generation → m.Fed generation →
    s.stage.isEarly = false ∧
      sent ++ s.waiting ++ m.unannounced.toList = behind resume history

theorem Covers.leaves (covers : Covers generation resume history sent m)
    (conveys : Conveys first generation resume id history sent m) (leaves : Leaves generation m m')
    (retained : LocalLog.oldest m'.log ≤ resume + 1)
    (books : m'.unannounced.toList = m.unannounced.toList ++ new)
    (later : ∀ e ∈ new, resume < e.offset) :
    Covers generation resume (history ++ new) sent m' where
  retained := retained
  takes s' held here connected := by
    obtain ⟨s, before, rests, ready⟩ := leaves.sessions s' held here
    rw [(ready connected).takes]
    exact covers.takes s before (rests.generation.symm.trans here) (leaves.connected connected)
  early s' held here connected unfed := by
    obtain ⟨s, before, rests, ready⟩ := leaves.sessions s' held here
    rw [(ready connected).stage, (ready connected).queue]
    refine covers.early s before (rests.generation.symm.trans here) (leaves.connected connected) ?_
    exact fun fed => unfed ((leaves.fed_iff conveys.names conveys.belongs connected).mpr fed)
  late s' held here fed := by
    obtain ⟨s, before, rests, ready⟩ := leaves.sessions s' held here
    have same := ready fed.connected
    have fed' := (leaves.fed_iff conveys.names conveys.belongs fed.connected).mp fed
    obtain ⟨late, whole⟩ := covers.late s before (rests.generation.symm.trans here) fed'
    refine ⟨same.stage ▸ late, ?_⟩
    rw [Session.waiting, same.stage, same.queue, books, behind_append later, ← whole,
      Session.waiting, ← List.append_assoc]

/-- The session of a connection that stays as it is goes on. -/
theorem Covers.goesOn (covers : Covers generation resume history sent m)
    (conveys : Conveys first generation resume id history sent m) (held : s ∈ m.sessions)
    (here : s.generation = generation) (goes : m.Goes s s' frame false)
    (becomes : Becomes generation s' false m m') (steady : Steady m m') :
    Covers generation resume history (sent ++ frame.toList) m' := by
  have links : ∀ l' ∈ m'.links, l'.generation = generation → ∃ l ∈ m.links,
      l.generation = generation ∧ (l'.isConnected → l'.phase = l.phase) := by
    simpa using becomes.links
  have connected (up : m'.Connected generation) : m.Connected generation := by
    obtain ⟨l', member, newest, up⟩ := up
    obtain ⟨l, before, newest', same⟩ := links l' member newest
    refine ⟨l, before, newest', ?_⟩
    rw [Link.isConnected, ← same up]
    exact up
  have fed (up : m'.Connected generation) := fed_iff conveys.names conveys.belongs links up
  refine ⟨steady.log ▸ covers.retained, ?_, ?_, ?_⟩ <;> intro t present newest
  · intro up
    rw [becomes.session t present newest, goes.takes]
    exact covers.takes s held here (connected up)
  · intro up unfed
    rw [becomes.session t present newest]
    obtain ⟨early, queue⟩ :=
      covers.early s held here (connected up) fun old => unfed ((fed up).mpr old)
    obtain ⟨early', same⟩ := goes.early early
    exact ⟨early', same ▸ queue⟩
  · intro now
    rw [becomes.session t present newest, steady.unannounced]
    obtain ⟨late, whole⟩ := covers.late s held here ((fed now.connected).mp now)
    obtain ⟨late', waiting⟩ := goes.late late
    refine ⟨late', ?_⟩
    rw [List.append_assoc sent, waiting, whole]

/-- When a link becomes streaming, its session takes over all that the log has behind what was
written; from then on new entries are handed to it. -/
theorem Covers.begins (covers : Covers generation resume history sent m)
    (conveys : Conveys first generation resume id history sent m) (held : s ∈ m.sessions)
    (here : s.generation = generation) (goes : m.Goes s s' frame true)
    (becomes : Becomes generation s' true m m') (steady : Steady m m') :
    Covers generation resume history (sent ++ frame.toList) m' := by
  have turned (up : m'.Connected generation) :
      m.Connected generation ∧ ¬m.Fed generation ∧ m'.Fed generation := by
    obtain ⟨l', member, newest, up⟩ := up
    obtain ⟨l, before, newest', phases⟩ := becomes.links l' member newest
    obtain ⟨phase, phase'⟩ : l.phase = .catchingUp ∧ l'.phase = .streaming := by
      simpa using phases up
    refine ⟨⟨l, before, newest', by rw [Link.isConnected, phase]; rfl⟩, ?_,
      ⟨l', member, newest, by rw [Link.isStreaming, phase']; rfl⟩⟩
    rintro ⟨l₀, before₀, newest₀, streaming⟩
    rw [conveys.belongs.link_unique conveys.names before₀ newest₀ before newest',
      Link.isStreaming, phase] at streaming
    cases streaming
  refine ⟨steady.log ▸ covers.retained, ?_, ?_, ?_⟩ <;> intro t present newest
  · intro up
    rw [becomes.session t present newest, goes.takes]
    exact covers.takes s held here (turned up).1
  · intro up unfed
    exact absurd (turned up).2.2 unfed
  · intro now
    obtain ⟨up, unfed, -⟩ := turned now.connected
    obtain ⟨-, queue⟩ := covers.early s held here up unfed
    rw [becomes.session t present newest, steady.unannounced]
    cases goes with
    | @begins tail stage idle read =>
      have next : s.next = resume + sent.length + 1 := by
        have due := (conveys.sessions s held here).1
        omega
      have within : LocalLog.oldest m.log ≤ resume + sent.length + 1 :=
        covers.retained.trans (by omega)
      have rest := conveys.of_readTail within (next ▸ read)
      refine ⟨sendingStage_late tail, ?_⟩
      rw [Session.waiting, sendingStage_rest, queue, idle, rest, Option.toList_none, List.append_nil,
        List.append_nil, List.append_nil]
      exact behind_split conveys.offsets conveys.start conveys.begins

theorem Covers.announce (covers : Covers generation resume history sent m)
    (conveys : Conveys first generation resume id history sent m) :
    Covers generation resume history sent m.announce.1 := by
  obtain ⟨log, links, -, idle, -⟩ := announce_books m
  cases stored : m.unannounced with
  | none =>
    rw [Master.announce, stored]
    exact covers
  | some e =>
    have connected : m.announce.1.Connected generation ↔ m.Connected generation := by
      rw [Connected, links, Connected]
    have fed : m.announce.1.Fed generation ↔ m.Fed generation := by
      rw [Fed, links, Fed]
    have each : ∀ s' ∈ m.announce.1.sessions, s'.generation = generation → ∃ s ∈ m.sessions,
        s.generation = generation ∧ (¬m.Fed generation → s' = s) ∧
          (m.Fed generation → s' = { s with connection := s.connection.offer e }) := by
      intro s' member here
      obtain ⟨s, before, rfl⟩ := announce_sessions stored s' member
      have same : s.generation = generation := by
        rw [← here]
        split <;> rfl
      have handed := isFed_iff conveys.belongs before same
      exact ⟨s, before, same, fun unfed => if_neg (mt handed.mp unfed),
        fun fed => if_pos (handed.mpr fed)⟩
    refine ⟨log ▸ covers.retained, ?_, ?_, ?_⟩ <;> intro s' member here <;>
      obtain ⟨s, before, same, others, handed⟩ := each s' member here
    · intro up
      have takes := covers.takes s before same (connected.mp up)
      by_cases now : m.Fed generation
      · rw [handed now, Connection.offer, if_pos takes]
        exact takes
      · rw [others now]
        exact takes
    · intro up unfed
      have unfed' := mt fed.mpr unfed
      rw [others unfed']
      exact covers.early s before same (connected.mp up) unfed'
    · intro now
      have takes := covers.takes s before same (fed.mp now).connected
      obtain ⟨late, whole⟩ := covers.late s before same (fed.mp now)
      rw [handed (fed.mp now), idle]
      refine ⟨late, ?_⟩
      rw [stored] at whole
      rw [← whole, Session.waiting, Connection.offer, if_pos takes]
      simp [Session.waiting]

/-- In a store the oldest entry stays. -/
theorem Conveys.store_books (conveys : Conveys first generation resume id history sent m)
    {payload : Bytes} {metadata : Option Bytes}
    (admitted : ∀ e, m.taken? (.store payload metadata) = some e → LawfulLog.Admits L e) :
    LocalLog.oldest (m.store payload metadata).1.log = LocalLog.oldest m.log ∧
    (m.store payload metadata).1.unannounced.toList =
      m.unannounced.toList ++ (m.taken? (.store payload metadata)).toList ∧
    ∀ e ∈ (m.taken? (.store payload metadata)).toList, resume < e.offset := by
  have span := LawfulLog.entries_span conveys.sound
  rcases store_taken conveys.sound payload metadata with
    ⟨none, sound, same, ends, idle⟩ | ⟨log, offset, free, ran, taken, after⟩
  · have span' := LawfulLog.entries_span sound
    rw [same, ends] at span'
    refine ⟨by omega, ?_, ?_⟩
    · rw [none, idle, Option.toList_none, List.append_nil]
    · rw [none]
      simp
  · obtain ⟨sound, entries⟩ := LawfulLog.append_stores conveys.sound ran (admitted _ taken)
    obtain ⟨next, ends⟩ := NumberedLog.append_takes_next ran
    have span' := LawfulLog.entries_span sound
    rw [entries, List.length_append, List.length_singleton] at span'
    have reached := conveys.reached
    rw [Master.offset] at reached
    rw [after]
    refine ⟨by dsimp only; omega, ?_, ?_⟩
    · rw [free, taken]
      rfl
    · rw [taken]
      intro e held
      rw [Option.toList_some, List.mem_singleton] at held
      rw [held]
      show resume < offset
      omega

theorem Covers.store (covers : Covers generation resume history sent m)
    (conveys : Conveys first generation resume id history sent m) (payload : Bytes)
    (metadata : Option Bytes)
    (admitted : ∀ e, m.taken? (.store payload metadata) = some e → LawfulLog.Admits L e) :
    Covers generation resume (history ++ (m.taken? (.store payload metadata)).toList) sent
      (m.store payload metadata).1 := by
  obtain ⟨oldest, books, later⟩ := conveys.store_books admitted
  apply covers.leaves conveys (leaves_store m payload metadata) _ books later
  rw [oldest]
  exact covers.retained

theorem Covers.plain (covers : Covers generation resume history sent m)
    (conveys : Conveys first generation resume id history sent m) {a : Move} (plain : a.isPlain) :
    Covers generation resume history (sent ++ (m.frame? generation a).toList) (m.move a) := by
  have steady := steady_move conveys.names plain
  have whole : ∀ payload metadata, a ≠ .append payload metadata := by
    rintro payload metadata rfl
    cases plain
  have late : a ≠ .announce := by
    rintro rfl
    cases plain
  rcases move_cases conveys.names conveys.belongs whole late with ⟨leaves, quiet⟩ |
    ⟨rfl, s, held, here, s', begun, goes, becomes⟩
  · rw [quiet, Option.toList_none, List.append_nil, ← List.append_nil history]
    apply covers.leaves conveys leaves (steady.log ▸ covers.retained)
    · rw [steady.unannounced, List.append_nil]
    · simp
  · cases begun with
    | false => exact covers.goesOn conveys held here goes becomes steady
    | true => exact covers.begins conveys held here goes becomes steady

/-- While nothing is forgotten, a connection covers what is on record for it. -/
theorem Covers.move [PurgeableLog L] (covers : Covers generation resume history sent m)
    (conveys : Conveys first generation resume id history sent m) (a : Move)
    (admitted : ∀ e, m.taken? a = some e → LawfulLog.Admits L e) (keeps : a.isPurge = false) :
    Covers generation resume (history ++ (m.taken? a).toList)
      (sent ++ (m.frame? generation a).toList) (m.move a) := by
  -- Only a step of the session writes anything.
  have silent (quiet : m.frame? generation a = none)
      (same : Covers generation resume (history ++ (m.taken? a).toList) sent (m.move a)) :
      Covers generation resume (history ++ (m.taken? a).toList)
        (sent ++ (m.frame? generation a).toList) (m.move a) := by
    rw [quiet, Option.toList_none, List.append_nil]
    exact same
  have kept (none : m.taken? a = none)
      (same : Covers generation resume history (sent ++ (m.frame? generation a).toList) (m.move a)) :
      Covers generation resume (history ++ (m.taken? a).toList)
        (sent ++ (m.frame? generation a).toList) (m.move a) := by
    rw [none, Option.toList_none, List.append_nil]
    exact same
  cases a with
  | append payload metadata =>
    have stored := covers.store conveys payload metadata admitted
    have conveys' := conveys.leaves (leaves_store m payload metadata)
      (conveys.toLedger.store payload metadata admitted)
    apply silent rfl
    rcases move_append m payload metadata with ⟨none, same⟩ | same | same
    · rw [none, same, Option.toList_none, List.append_nil]
      exact covers
    · rw [same]
      exact stored
    · rw [same]
      exact stored.announce conveys'
  | store payload metadata => exact silent rfl (covers.store conveys payload metadata admitted)
  | announce =>
    apply silent rfl
    rw [show m.taken? .announce = none from rfl, Option.toList_none, List.append_nil]
    exact covers.announce conveys
  | purge offset => cases keeps
  | _ => exact kept rfl (covers.plain conveys rfl)

end Master

end QuorumLog
