import QuorumLog.Proofs.RunRecords

/-! A write that is stored and announced in two steps can be read, shipped and reported in between. Such
a report comes too early: there is no write yet to credit it to, and on the same connection no later
report covers the offset again. The replica is then not counted for the write, although it holds the
entry and the master knows. Here it is proved that this is the only way to lose a report. -/

namespace QuorumLog.Master

variable {L : Type} [LocalLog L] {m m' : Master L} {a : Action L}

/-! ### Whoever is counted stays counted -/

private theorem sources_announced {e : Entry} {v : PendingWrite} (inStep : m.InStep)
    (announced : Announced e m m') (held : v ∈ m'.quorum.pending)
    (old : v.cell < m.quorum.board.size) :
    ∃ w ∈ m.quorum.pending, w.cell = v.cell ∧ ∀ s ∈ w.sources, s ∈ v.sources := by
  rw [announced.quiet.quorum] at held
  rcases inStep.waited_of_announced announced.entry held with
    ⟨w, waited, -, cells, sources, -⟩ | ⟨-, new, -⟩
  · exact ⟨w, waited, cells, sources⟩
  · exact absurd old (new ▸ Nat.lt_irrefl _)

variable [NumberedLog L]

/-- A write that waits after an action, and is not new, waited before with no more sources. -/
theorem sources_act (inStep : m.InStep) (a : Action L) {v : PendingWrite}
    (held : v ∈ (m.act a).quorum.pending) (old : v.cell < m.quorum.board.size) :
    ∃ w ∈ m.quorum.pending, w.cell = v.cell ∧ ∀ s ∈ w.sources, s ∈ v.sources := by
  cases turn inStep a with
  | plain plain =>
    exact ⟨v, plain.pending ▸ held, rfl, fun _ => id⟩
  | reported reported =>
    obtain ⟨known, -, grants, -⟩ := reported.granted
    obtain ⟨w, waited, -, cells, sources⟩ := grants.waited v held
    exact ⟨w, waited, cells, fun s counted => (sources s).mpr (.inl counted)⟩
  | stored stored =>
    obtain ⟨-, -, log, -, state⟩ := stored
    rw [state] at held
    exact ⟨v, held, rfl, fun _ => id⟩
  | announced announced => exact sources_announced inStep announced held old
  | appended stored announced =>
    have inStep' := inStep.stored stored
    obtain ⟨-, -, log, -, rfl⟩ := stored
    have grown := sources_announced inStep' announced held old
    exact grown

theorem sources_run (inStep : m.InStep) (actions : List (Action L)) {v : PendingWrite}
    (held : v ∈ (m.run actions).quorum.pending) (old : v.cell < m.quorum.board.size) :
    ∃ w ∈ m.quorum.pending, w.cell = v.cell ∧ ∀ s ∈ w.sources, s ∈ v.sources := by
  induction actions generalizing m with
  | nil => exact ⟨v, held, rfl, fun _ => id⟩
  | cons a later ih =>
    obtain ⟨u, between, cells, more⟩ := ih (inStep.act a) held ((keeps_act inStep a).inside old)
    obtain ⟨w, waited, cells', less⟩ := sources_act inStep a between (cells ▸ old)
    exact ⟨w, waited, cells'.trans cells, fun s counted => more s (less s counted)⟩

/-! ### Early reports -/

/-- The links of which the replica has reported the whole log. -/
def upToDate (m : Master L) : List Link :=
  m.links.filter fun l => l.isConnected ∧ l.lastAck = m.offset

omit [NumberedLog L] in
theorem mem_upToDate {l : Link} :
    l ∈ m.upToDate ↔ l ∈ m.links ∧ l.isConnected ∧ l.lastAck = m.offset := by
  simp [upToDate]

omit [NumberedLog L] in
/-- A write for which every replica that has reported the whole log is counted has as many sources as
there are such replicas, and the master. -/
theorem upToDate_lt_sources (inStep : m.InStep) {w : PendingWrite} (waiting : w ∈ m.quorum.pending)
    (counted : ∀ l ∈ m.upToDate, .replica l.peer.id ∈ w.sources) :
    m.upToDate.length < w.sources.length := by
  have distinct : (m.upToDate.map (·.peer.id)).Nodup :=
    inStep.numbered.ids.sublist (List.filter_sublist.map _)
  have count : (m.upToDate.map (·.peer.id)).toFinset.card < w.sources.length := by
    refine card_lt_of_sources (inStep.pending w waiting).2.2 fun id named => ?_
    obtain ⟨l, held, rfl⟩ := List.mem_map.mp (List.mem_toFinset.mp named)
    exact counted l held
  rwa [List.toFinset_card_of_nodup distinct, List.length_map] at count

/-- In every run in which handshakes are single steps, and writes need not be: a replica that reported a
waiting write on the connection that it has is counted for it exactly when the write was not announced
after the report, whoever is counted stays counted, and once enough replicas have reported the whole
log, each write that still waits was announced after the report of one of them. -/
theorem counted_unless_overtaken {settings : Settings} {log : L}
    (created : create settings log = .ok m) (actions : List (Action L)) :
    (∀ w ∈ (m.run actions).quorum.pending, ∀ l ∈ (m.run actions).links, l.isConnected →
      w.offset ≤ l.lastAck →
        (.replica l.peer.id ∈ w.sources ↔
          (w.cell, l.peer.id, l.generation) ∉ m.races actions)) ∧
    (∀ later, ∀ w ∈ (m.run actions).quorum.pending,
      ∀ v ∈ (m.run (actions ++ later)).quorum.pending, v.cell = w.cell →
        ∀ s ∈ w.sources, s ∈ v.sources) ∧
    (settings.copies.toNat - 1 ≤ (m.run actions).upToDate.length →
      ∀ w ∈ (m.run actions).quorum.pending, ∃ l ∈ (m.run actions).upToDate,
        (w.cell, l.peer.id, l.generation) ∈ m.races actions) := by
  have inStep₀ := inStep_of_create created
  have inStep := inStep₀.run actions
  have required := (keeps_run inStep₀ actions).required.trans (required_of_create created)
  have tallied : (m.run actions).Tallied (m.races actions) := by
    simpa using tallied_run inStep₀ actions (tallied_of_create created)
  refine ⟨tallied.counted, ?_, ?_⟩
  · intro later w waiting v held same s counted
    have again : m.run (actions ++ later) = (m.run actions).run later := List.foldl_append
    rw [again] at held
    obtain ⟨u, waited, cells, more⟩ :=
      sources_run inStep later held (same ▸ inStep.consistent.inside waiting)
    exact more s (inStep.consistent.cell_unique waited waiting (cells.trans same) ▸ counted)
  · -- Without a race every replica that is up to date would be counted, which is enough.
    intro enough w waiting
    by_contra unraced
    have counted : ∀ l ∈ (m.run actions).upToDate, .replica l.peer.id ∈ w.sources := by
      intro l current
      obtain ⟨held, connected, whole⟩ := mem_upToDate.mp current
      have low := (inStep.pending w waiting).2.1
      have reached : w.offset ≤ l.lastAck := by
        rw [whole]
        exact Nat.le_trans low (tracked_le _)
      exact (tallied.counted w waiting l held connected reached).mpr fun raced =>
        unraced ⟨l, current, raced⟩
    have few := (inStep.consistent.sources w waiting).2
    have more := upToDate_lt_sources inStep waiting counted
    omega

/-- A run in which a replica reports a write after its announcement. -/
def prompt : List (Action VolatileLog) :=
  [.accept Settings.defaultBind (introduction "first" 0) true, .store [7] none, .announce,
    .acknowledge "first" 1]

/-- A replica that reports after the announcement is counted. -/
theorem counted_after_announcement :
    ∃ w ∈ ((small 3).run prompt).quorum.pending, .replica "first" ∈ w.sources := by
  have created : create (smallSettings 3) ({} : VolatileLog) = .ok (small 3) := rfl
  have waiting : ∃ w ∈ ((small 3).run prompt).quorum.pending, w.offset = 1 ∧ w.cell = 0 := by
    decide +kernel
  have linked : ∃ l ∈ ((small 3).run prompt).links, l.peer.id = "first" ∧ l.isConnected ∧
      l.lastAck = 1 := by decide +kernel
  have none : (small 3).races prompt = [] := by decide +kernel
  obtain ⟨w, held, offset, -⟩ := waiting
  obtain ⟨l, present, here, connected, reported⟩ := linked
  have reached : w.offset ≤ l.lastAck := by omega
  have counted := (counted_unless_overtaken created prompt).1 w held l present connected reached
  rw [none, here] at counted
  exact ⟨w, held, counted.mpr List.not_mem_nil⟩

/-- A run in which a replica reads the stored entry from the log and reports it before its
announcement. -/
def hasty : List (Action VolatileLog) :=
  [.accept Settings.defaultBind (introduction "first" 0) true, .store [7] none, .advance 1,
    .advance 1, .receive 1 (.ack 1), .announce]

/-- After that run the only replica that is asked for has reported the whole log and is connected, and
still it is not counted: the write waits. -/
theorem early_report_is_lost : ((small 2).run hasty).unannounced = none ∧
    ((small 2).run hasty).offset = 1 ∧
    ((small 2).run hasty).upToDate.map (·.peer.id) = ["first"] ∧
    ((small 2).run hasty).quorum.pending = [⟨1, [.master], 0⟩] := by
  decide +kernel

end QuorumLog.Master
