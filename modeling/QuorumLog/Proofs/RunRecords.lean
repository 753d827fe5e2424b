import QuorumLog.Proofs.Turns

/-! What the records of a run say about the count of copies. Whoever is counted has reported, and a
replica with a connected link is counted for what it reported on that connection, unless the write was
announced only after the report. -/

namespace QuorumLog.Master

variable {L : Type} [LocalLog L] {m m' : Master L} {a : Action L} {e : Entry}
variable {vouches : Source → Nat → Prop} {races : List (Nat × String × Nat)}

/-! ### Writes keep their place -/

omit [LocalLog L] in
theorem keeps_announced (announced : Announced e m m') : m.quorum.Keeps m'.quorum := by
  rw [announced.quiet.quorum]
  exact (Quorum.keeps_track ..).trans Quorum.credit_grants.toKeeps

omit [LocalLog L] in
theorem vouched_of_create {settings : Settings} {log : L} (created : create settings log = .ok m)
    (vouches : Source → Nat → Prop) : m.quorum.Vouched vouches := by
  obtain ⟨-, rfl⟩ := create_of_ok created
  exact Quorum.vouched_ofCopies _ vouches

private theorem vouched_announced (inStep : m.InStep) (announced : Announced e m m')
    (vouched : m.quorum.Vouched vouches) (own : ∀ o, vouches .master o) :
    m'.quorum.Vouched vouches := by
  have below := (inStep.next announced.entry).2.2
  rw [announced.quiet.quorum]
  exact Quorum.vouched_credit (Quorum.consistent_track inStep.consistent below)
    (Quorum.vouched_track vouched below) fun o _ => own o

variable [NumberedLog L]

/-- A write keeps its cell and its offset, and one that is durable stays so. -/
theorem keeps_act (inStep : m.InStep) (a : Action L) : m.quorum.Keeps (m.act a).quorum := by
  cases turn inStep a with
  | plain plain => exact plain.keeps
  | reported reported =>
    obtain ⟨known, -, grants, -⟩ := reported.granted
    exact grants.toKeeps
  | stored stored =>
    obtain ⟨-, -, log, -, state⟩ := stored
    rw [state]
    exact .refl _
  | announced announced => exact keeps_announced announced
  | appended stored announced =>
    have inStep' := inStep.stored stored
    obtain ⟨-, -, log, -, rfl⟩ := stored
    have kept := keeps_announced announced
    exact kept

theorem keeps_run (inStep : m.InStep) (actions : List (Action L)) :
    m.quorum.Keeps (m.run actions).quorum := by
  induction actions generalizing m with
  | nil => exact .refl _
  | cons a later ih => exact (keeps_act inStep a).trans (ih (inStep.act a))

/-- A write that an action brings into the log has a cell with its offset. -/
theorem cell_of_written (inStep : m.InStep) {write : Nat}
    (written : m.written? a = some (write, e)) :
    ∃ c, (m.act a).quorum.board.cells[write]? = some c ∧ c.offset = some e.offset := by
  cases turn inStep a with
  | plain _ _ unwritten => rw [unwritten] at written; cases written
  | reported _ _ unwritten => rw [unwritten] at written; cases written
  | stored => cases written
  | announced announced this =>
    rw [this] at written
    cases written
    rw [announced.quiet.quorum]
    exact announcedQuorum_cell (inStep.next announced.entry).2.2
  | appended stored announced this =>
    rw [this] at written
    cases written
    have below := ((inStep.stored stored).next announced.entry).2.2
    obtain ⟨-, -, log, -, rfl⟩ := stored
    rw [announced.quiet.quorum]
    exact announcedQuorum_cell below

/-- Every write of a run has a cell with its offset. -/
theorem cell_of_run (inStep : m.InStep) (actions : List (Action L)) {write : Nat}
    (written : (write, e) ∈ m.written actions) :
    ∃ c, (m.run actions).quorum.board.cells[write]? = some c ∧ c.offset = some e.offset := by
  induction actions generalizing m with
  | nil => cases written
  | cons a later ih =>
    rcases List.mem_append.mp written with now | afterwards
    · obtain ⟨c, cell, offset⟩ := cell_of_written inStep (Option.mem_toList.mp now)
      obtain ⟨c', cell', same, -⟩ := (keeps_run (inStep.act a) later).cells write c cell
      exact ⟨c', cell', same.trans offset⟩
    · exact ih (inStep.act a) afterwards

/-! ### Nobody is counted who did not report -/

/-- The master attests what it announced, and a replica what it reported. -/
def Attests (reports : List (String × Nat)) : Source → Nat → Prop
  | .master, _ => True
  | .replica id, offset => ∃ reported, (id, reported) ∈ reports ∧ offset ≤ reported

/-- An action counts the replica that reports in it, and no other. -/
theorem vouched_act (inStep : m.InStep) (a : Action L) (vouched : m.quorum.Vouched vouches)
    (own : ∀ o, vouches .master o) (heard : ∀ id offset, m.report? a = some (id, offset) →
      ∀ o ≤ offset, vouches (.replica id) o) : (m.act a).quorum.Vouched vouches := by
  cases turn inStep a with
  | plain plain =>
    rcases plain.quorum with same | ⟨reason, refused⟩
    · exact same ▸ vouched
    · exact refused ▸ Quorum.vouched_refuse vouched reason
  | reported reported _ _ report => exact reported.vouched vouches vouched (heard _ _ report)
  | stored stored =>
    obtain ⟨-, -, log, -, state⟩ := stored
    rw [state]
    exact vouched
  | announced announced => exact vouched_announced inStep announced vouched own
  | appended stored announced =>
    have inStep' := inStep.stored stored
    obtain ⟨-, -, log, -, rfl⟩ := stored
    exact vouched_announced inStep' announced vouched own

theorem vouched_run (inStep : m.InStep) (actions : List (Action L))
    {past : List (String × Nat)} (vouched : m.quorum.Vouched (Attests past)) :
    (m.run actions).quorum.Vouched (Attests (past ++ m.reports actions)) := by
  induction actions generalizing m past with
  | nil => simpa [run, reports] using vouched
  | cons a later ih =>
    have more : ∀ s o, Attests past s o → Attests (past ++ (m.report? a).toList) s o := by
      intro s o attested
      cases s with
      | master => exact trivial
      | replica id =>
        obtain ⟨reported, member, reached⟩ := attested
        exact ⟨reported, List.mem_append_left _ member, reached⟩
    have now := vouched_act inStep a (vouched.mono more) (fun _ => trivial)
      fun id offset report o reached =>
        ⟨offset, List.mem_append_right _ (Option.mem_toList.mpr report), reached⟩
    simpa [run, reports] using ih (inStep.act a) now

/-! ### A report is missed only by a write that was announced later -/

/-- A replica with a connected link that reported a waiting write is counted for it, unless the report
came on the same connection and before the announcement. -/
structure Tallied (races : List (Nat × String × Nat)) (m : Master L) : Prop where
  counted : ∀ w ∈ m.quorum.pending, ∀ l ∈ m.links, l.isConnected → w.offset ≤ l.lastAck →
    (.replica l.peer.id ∈ w.sources ↔ (w.cell, l.peer.id, l.generation) ∉ races)
  ahead : ∀ w ∈ m.quorum.pending, ∀ l ∈ m.links,
    (w.cell, l.peer.id, l.generation) ∈ races → w.offset ≤ l.lastAck
  past : ∀ race ∈ races, race.1 < m.quorum.board.size ∧ race.2.2 ≤ m.generation

omit [LocalLog L] [NumberedLog L] in
theorem tallied_of_create {settings : Settings} {log : L} (created : create settings log = .ok m) :
    m.Tallied [] := by
  obtain ⟨-, rfl⟩ := create_of_ok created
  exact ⟨by simp [Quorum.ofCopies], by simp [Quorum.ofCopies], by simp⟩

omit [NumberedLog L] in
private theorem Tallied.plain (tallied : m.Tallied races) (plain : Plain m m') :
    m'.Tallied races := by
  refine ⟨?_, ?_, fun race member => ?_⟩
  · rw [plain.pending]
    intro w waited l' member connected reached
    rcases plain.links l' member with ⟨l, before, continues⟩ | ⟨gone, -⟩
    · rw [continues.lastAck] at reached
      rw [continues.id, continues.generation]
      exact tallied.counted w waited l before (continues.connected connected) reached
    · rw [gone] at connected
      cases connected
  · rw [plain.pending]
    intro w waited l' member raced
    rcases plain.links l' member with ⟨l, before, continues⟩ | ⟨-, -, newer⟩
    · rw [continues.id, continues.generation] at raced
      rw [continues.lastAck]
      exact tallied.ahead w waited l before raced
    · have old := (tallied.past _ raced).2
      exact absurd newer (Nat.not_lt.mpr old)
  · obtain ⟨cell, generation⟩ := tallied.past race member
    exact ⟨plain.keeps.inside cell, Nat.le_trans generation plain.generation⟩

omit [LocalLog L] [NumberedLog L] in
/-- No race is about a connection that is newer than all that were open so far. -/
private theorem Tallied.unraced (tallied : m.Tallied races) {cell : Nat} {l : Link}
    (newer : m.generation < l.generation) : (cell, l.peer.id, l.generation) ∉ races := fun raced =>
  absurd newer (Nat.not_lt.mpr (tallied.past _ raced).2)

omit [NumberedLog L] in
/-- A report counts its replica for every write up to its offset: those that the link knew of already
were counted before or raced, and the others are credited now. -/
private theorem counted_reported {id : String} {offset : Nat} (inStep : m.InStep)
    (tallied : m.Tallied races) (reported : Reported id offset m m') {v : PendingWrite}
    (held : v ∈ m'.quorum.pending) {l' : Link} (member : l' ∈ m'.links) (connected : l'.isConnected)
    (reached : v.offset ≤ l'.lastAck) :
    .replica l'.peer.id ∈ v.sources ↔ (v.cell, l'.peer.id, l'.generation) ∉ races := by
  obtain ⟨known, low, grants, links⟩ := reported.granted
  obtain ⟨w, waited, offsets, cells, sources⟩ := grants.waited v held
  rw [sources, ← cells]
  by_cases here : l'.peer.id = id
  · rcases links with ⟨rfl, new⟩ | ⟨l, before, name, open_, rfl, same⟩
    · obtain ⟨resume, newer⟩ := new l' member here
      have positive := (inStep.pending w waited).1
      have granted : 0 < v.offset ∧ v.offset ≤ offset := by omega
      have unraced : (w.cell, id, l'.generation) ∉ races := here ▸ tallied.unraced newer
      simp [here, granted, unraced]
    · obtain ⟨resume, generation⟩ := same l' member here
      rw [here, generation]
      have count := tallied.counted w waited l before open_
      have ahead := tallied.ahead w waited l before
      rw [name] at count ahead
      by_cases old : v.offset ≤ l.lastAck
      · have not : ¬(l.lastAck < v.offset ∧ v.offset ≤ offset) := by omega
        simpa [not] using count (by omega)
      · have granted : l.lastAck < v.offset ∧ v.offset ≤ offset := by omega
        have unraced : (w.cell, id, l.generation) ∉ races := fun raced => by
          have := ahead raced
          omega
        simp [granted, unraced]
  · obtain ⟨l, before, continues⟩ := reported.others l' member here
    rw [continues.lastAck] at reached
    have count := tallied.counted w waited l before (continues.connected connected) (by omega)
    rw [← continues.id, ← continues.generation] at count
    simpa [here] using count

omit [NumberedLog L] in
private theorem ahead_reported {id : String} {offset : Nat} (tallied : m.Tallied races)
    (reported : Reported id offset m m') {v : PendingWrite} (held : v ∈ m'.quorum.pending)
    {l' : Link} (member : l' ∈ m'.links) (raced : (v.cell, l'.peer.id, l'.generation) ∈ races) :
    v.offset ≤ l'.lastAck := by
  obtain ⟨known, low, grants, links⟩ := reported.granted
  obtain ⟨w, waited, offsets, cells, -⟩ := grants.waited v held
  rw [← cells] at raced
  by_cases here : l'.peer.id = id
  · rcases links with ⟨rfl, new⟩ | ⟨l, before, name, -, rfl, same⟩
    · exact absurd raced (tallied.unraced (new l' member here).2)
    · obtain ⟨resume, generation⟩ := same l' member here
      have ahead := tallied.ahead w waited l before
      rw [name, ← here, ← generation] at ahead
      have := ahead raced
      omega
  · obtain ⟨l, before, continues⟩ := reported.others l' member here
    rw [continues.id, continues.generation] at raced
    have ahead := tallied.ahead w waited l before raced
    rw [continues.lastAck]
    omega

omit [NumberedLog L] in
private theorem Tallied.reported {id : String} {offset : Nat} (inStep : m.InStep)
    (tallied : m.Tallied races) (reported : Reported id offset m m') : m'.Tallied races where
  counted _ held _ member connected reached :=
    counted_reported inStep tallied reported held member connected reached
  ahead _ held _ member raced := ahead_reported tallied reported held member raced
  past race member := by
    obtain ⟨known, -, grants, -⟩ := reported.granted
    obtain ⟨cell, generation⟩ := tallied.past race member
    exact ⟨grants.inside cell, Nat.le_trans generation reported.generation⟩

omit [LocalLog L] [NumberedLog L] in
private theorem mem_overtaking {l : Link} (numbered : m.Numbered) (held : l ∈ m.links) :
    (l.peer.id, l.generation) ∈ m.overtaking e ↔ l.isConnected ∧ e.offset ≤ l.lastAck := by
  simp only [overtaking, List.mem_map, List.mem_filter, Bool.decide_and, Bool.and_eq_true,
    decide_eq_true_eq]
  constructor
  · rintro ⟨l', ⟨held', facts⟩, same⟩
    have name : l'.peer.id = l.peer.id := congrArg Prod.fst same
    exact numbered.link_unique held' held name ▸ facts
  · exact fun facts => ⟨l, ⟨held, facts⟩, rfl⟩

omit [LocalLog L] [NumberedLog L] in
/-- A write that waited has a cell of its own, so an announcement makes no race for it. -/
private theorem raced_before {w : PendingWrite} (inside : w.cell < m.quorum.board.size)
    {connection : String × Nat} :
    (w.cell, connection) ∈ races ++ (m.overtaking e).map (m.quorum.board.size, ·) ↔
      (w.cell, connection) ∈ races := by
  have other := Nat.ne_of_gt inside
  simp [other]

omit [LocalLog L] [NumberedLog L] in
/-- A new write raced on the connections on which its entry was reported before. -/
private theorem raced_now (tallied : m.Tallied races) (numbered : m.Numbered) {l l' : Link}
    (before : l ∈ m.links) (continues : l.Continues l') :
    (m.quorum.board.size, l'.peer.id, l'.generation) ∈
        races ++ (m.overtaking e).map (m.quorum.board.size, ·) ↔
      l.isConnected ∧ e.offset ≤ l.lastAck := by
  have new (connection : String × Nat) : (m.quorum.board.size, connection) ∉ races := fun raced =>
    absurd (tallied.past _ raced).1 (Nat.lt_irrefl _)
  rw [continues.id, continues.generation, ← mem_overtaking numbered before]
  simp [new]

omit [NumberedLog L] in
private theorem Tallied.announced (inStep : m.InStep) (tallied : m.Tallied races)
    (announced : Announced e m m') :
    m'.Tallied (races ++ (m.overtaking e).map (m.quorum.board.size, ·)) := by
  have keeps := keeps_announced announced
  obtain ⟨entry, quiet⟩ := announced
  have quorum : m'.quorum = m.announcedQuorum e := quiet.quorum
  refine ⟨?_, ?_, fun race member => ?_⟩
  · intro v held l' member connected reached
    obtain ⟨l, before, continues⟩ := quiet.links l' member
    rw [continues.lastAck] at reached
    have open_ := continues.connected connected
    rw [quorum] at held
    rcases inStep.waited_of_announced entry held with
      ⟨w, waited, offsets, cells, -, sources⟩ | ⟨offset, cell, sources⟩
    · rw [sources, ← cells, raced_before (inStep.consistent.inside waited), continues.id,
        continues.generation]
      exact tallied.counted w waited l before open_ (by omega)
    · rw [cell, raced_now tallied inStep.numbered before continues, sources]
      simp [open_, offset ▸ reached]
  · intro v held l' member raced
    obtain ⟨l, before, continues⟩ := quiet.links l' member
    rw [quorum] at held
    rcases inStep.waited_of_announced entry held with
      ⟨w, waited, offsets, cells, -⟩ | ⟨offset, cell, -⟩
    · rw [← cells, raced_before (inStep.consistent.inside waited), continues.id,
        continues.generation] at raced
      rw [continues.lastAck, ← offsets]
      exact tallied.ahead w waited l before raced
    · rw [cell, raced_now tallied inStep.numbered before continues] at raced
      rw [continues.lastAck, offset]
      exact raced.2
  · rcases List.mem_append.mp member with old | new
    · obtain ⟨cell, generation⟩ := tallied.past race old
      exact ⟨keeps.inside cell, Nat.le_trans generation quiet.generation⟩
    · obtain ⟨connection, overtaking, rfl⟩ := List.mem_map.mp new
      obtain ⟨l, filtered, rfl⟩ := List.mem_map.mp overtaking
      have held := (List.mem_filter.mp filtered).1
      refine ⟨?_, Nat.le_trans (inStep.numbered.links l held) quiet.generation⟩
      obtain ⟨c, cell, -⟩ := announcedQuorum_cell (inStep.next entry).2.2
      rw [quorum]
      exact (List.getElem?_eq_some_iff.mp cell).1

theorem tallied_act (inStep : m.InStep) (a : Action L) (tallied : m.Tallied races) :
    (m.act a).Tallied (races ++ m.overtaken a) := by
  cases turn inStep a with
  | plain plain silent =>
    rw [silent, List.append_nil]
    exact tallied.plain plain
  | reported reported silent =>
    rw [silent, List.append_nil]
    exact tallied.reported inStep reported
  | stored stored =>
    obtain ⟨-, -, log, -, state⟩ := stored
    rw [state]
    simp only [overtaken, List.append_nil]
    exact ⟨tallied.counted, tallied.ahead, tallied.past⟩
  | announced announced =>
    have now := tallied.announced inStep announced
    simpa [overtaken, announced.entry] using now
  | @appended _ _ e _ stored announced =>
    have inStep' := inStep.stored stored
    obtain ⟨-, next, log, -, rfl⟩ := stored
    -- No link can know of the entry yet, so the announcement comes in time.
    have none : overtaking { m with log, unannounced := some e } e = [] := by
      simp only [overtaking, List.map_eq_nil_iff, List.filter_eq_nil_iff]
      intro l held
      have within := inStep.within l held
      simp only [decide_eq_true_eq]
      omega
    have stays : Tallied races { m with log, unannounced := some e } :=
      ⟨tallied.counted, tallied.ahead, tallied.past⟩
    have now := stays.announced inStep' announced
    rw [none] at now
    exact now

theorem tallied_run (inStep : m.InStep) (actions : List (Action L)) (tallied : m.Tallied races) :
    (m.run actions).Tallied (races ++ m.races actions) := by
  induction actions generalizing m races with
  | nil => simpa [run, Master.races] using tallied
  | cons a later ih =>
    simpa [run, Master.races] using ih (inStep.act a) (tallied_act inStep a tallied)

end QuorumLog.Master
