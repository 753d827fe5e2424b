import QuorumLog.Proofs.RunRecords

/-! When every write is one step, a write is durable exactly when enough replicas have reported it.
Reports are never forgotten: a replica that goes, or comes back and holds less, still counts for what
it once reported. -/

namespace QuorumLog.Master

variable {L : Type} [LocalLog L] {m m' : Master L} {a : Action L} {e : Entry}
variable {reports : List (String × Nat)} {actions : List (Action L)}

/-- The replicas that reported an offset or a higher one. -/
def reporters (reports : List (String × Nat)) (offset : Nat) : Finset String :=
  ((reports.filter (offset ≤ ·.2)).map (·.1)).toFinset

theorem mem_reporters {id : String} {offset : Nat} :
    id ∈ reporters reports offset ↔ ∃ reported, (id, reported) ∈ reports ∧ offset ≤ reported := by
  simp [reporters]

/-! ### Runs without a part of a write -/

/-- Between whole actions no entry is stored and not announced, and every report so far is counted for
the writes that it covers. -/
structure Remembered (reports : List (String × Nat)) (m : Master L) : Prop where
  free : m.unannounced = none
  within : ∀ report ∈ reports, report.2 ≤ m.offset
  counted : ∀ report ∈ reports, ∀ w ∈ m.quorum.pending, w.offset ≤ report.2 →
    .replica report.1 ∈ w.sources

theorem remembered_of_create {settings : Settings} {log : L}
    (created : create settings log = .ok m) : m.Remembered [] := by
  obtain ⟨-, rfl⟩ := create_of_ok created
  exact ⟨rfl, by simp, by simp⟩

omit [LocalLog L] in
/-- A whole action announces nothing late. -/
theorem overtaken_of_whole (whole : a.isPart = false) : m.overtaken a = [] := by
  cases a <;> first | rfl | cases whole

private theorem Remembered.plain (remembered : m.Remembered reports) (plain : Plain m m') :
    m'.Remembered reports := by
  refine ⟨plain.unannounced.trans remembered.free, ?_, ?_⟩
  · rw [plain.offset]
    exact remembered.within
  · rw [plain.pending]
    exact remembered.counted

/-- A report that the link knew of already is counted already. -/
private theorem Remembered.known {id : String} {offset : Nat} {l : Link}
    (remembered : m.Remembered reports) (inStep : m.InStep) (tallied : m.Tallied [])
    (held : l ∈ m.links) (here : l.peer.id = id) (connected : l.isConnected)
    (known : offset ≤ l.lastAck) : m.Remembered (reports ++ [(id, offset)]) where
  free := remembered.free
  within report member := by
    rcases List.mem_append.mp member with before | new
    · exact remembered.within report before
    · rw [List.mem_singleton.mp new]
      exact Nat.le_trans known (inStep.within l held)
  counted report member w waited reached := by
    rcases List.mem_append.mp member with before | new
    · exact remembered.counted report before w waited reached
    · rw [List.mem_singleton.mp new] at reached ⊢
      have count := tallied.counted w waited l held connected (Nat.le_trans reached known)
      rw [← here]
      exact count.mpr List.not_mem_nil

private theorem Remembered.reported {id : String} {offset : Nat}
    (remembered : m.Remembered reports) (inStep : m.InStep) (tallied : m.Tallied [])
    (reported : Reported id offset m m') : m'.Remembered (reports ++ [(id, offset)]) where
  free := reported.unannounced.trans remembered.free
  within report member := by
    rw [reported.ends]
    rcases List.mem_append.mp member with before | new
    · exact remembered.within report before
    · rw [List.mem_singleton.mp new]
      exact reported.within
  counted report member v held reached := by
    obtain ⟨known, -, grants, links⟩ := reported.granted
    obtain ⟨w, waited, offsets, -, sources⟩ := grants.waited v held
    rw [sources]
    rcases List.mem_append.mp member with before | new
    · exact .inl (remembered.counted report before w waited (by omega))
    rw [List.mem_singleton.mp new] at reached ⊢
    by_cases news : known < v.offset
    · exact .inr ⟨rfl, news, reached⟩
    -- The link knew as much, so the replica was counted when it reported that.
    · have positive := (inStep.pending w waited).1
      rcases links with ⟨rfl, -⟩ | ⟨l, before, here, connected, rfl, -⟩
      · omega
      · have count := tallied.counted w waited l before connected (by omega)
        rw [here] at count
        exact .inl (count.mpr List.not_mem_nil)

private theorem Remembered.announced (remembered : m.Remembered reports) (inStep : m.InStep)
    {mid : Master L} (stored : Stored e m mid) (announced : Announced e mid m') :
    m'.Remembered reports := by
  have inStep' := inStep.stored stored
  obtain ⟨-, next, log, ends, rfl⟩ := stored
  obtain ⟨entry, quiet⟩ := announced
  have offset : m'.offset = e.offset := (congrArg LocalLog.highest quiet.log).trans ends
  refine ⟨quiet.unannounced, fun report member => ?_, fun report member v held reached => ?_⟩
  · have within := remembered.within report member
    omega
  · rw [quiet.quorum] at held
    rcases inStep'.waited_of_announced entry held with
      ⟨w, waited, offsets, -, sources, -⟩ | ⟨new, -⟩
    · exact sources _ (remembered.counted report member w waited (by omega))
    · have within := remembered.within report member
      omega

variable [NumberedLog L]

theorem remembered_act (inStep : m.InStep) (tallied : m.Tallied []) (whole : a.isPart = false)
    (remembered : m.Remembered reports) :
    (m.act a).Remembered (reports ++ (m.report? a).toList) := by
  cases turn inStep a with
  | plain plain _ _ known =>
    cases report : m.report? a with
    | none => simpa using remembered.plain plain
    | some heard =>
      obtain ⟨l, held, here, connected, reached⟩ := known heard.1 heard.2 report
      exact (remembered.known inStep tallied held here connected reached).plain plain
  | reported reported _ _ report =>
    rw [report]
    exact remembered.reported inStep tallied reported
  | stored => cases whole
  | announced => cases whole
  | appended stored announced =>
    simpa [report?] using remembered.announced inStep stored announced

theorem remembered_run (inStep : m.InStep) (tallied : m.Tallied [])
    (whole : ∀ a ∈ actions, a.isPart = false) (remembered : m.Remembered reports) :
    (m.run actions).Remembered (reports ++ m.reports actions) := by
  induction actions generalizing m reports with
  | nil => simpa [run, Master.reports] using remembered
  | cons a later ih =>
    obtain ⟨first, rest⟩ := List.forall_mem_cons.mp whole
    have now := remembered_act inStep tallied first remembered
    have tallied' := tallied_act inStep a tallied
    rw [overtaken_of_whole first] at tallied'
    simpa [run, Master.reports] using ih (inStep.act a) tallied' rest now

/-- A whole action leaves the end of the log in place, or it brings one write into the log, behind the
last one. -/
theorem written_act (inStep : m.InStep) (whole : a.isPart = false) :
    (m.written? a = none ∧ (m.act a).offset = m.offset) ∨
      ∃ write e, m.written? a = some (write, e) ∧ e.offset = m.offset + 1 ∧
        (m.act a).offset = e.offset := by
  cases turn inStep a with
  | plain plain _ unwritten => exact .inl ⟨unwritten, plain.offset⟩
  | reported reported _ unwritten => exact .inl ⟨unwritten, reported.ends⟩
  | stored => cases whole
  | announced => cases whole
  | appended stored announced written =>
    obtain ⟨-, next, log, ends, rfl⟩ := stored
    exact .inr ⟨_, _, written, next, (congrArg LocalLog.highest announced.quiet.log).trans ends⟩

/-- The record of a run has one write for each offset that the log gained, in order. -/
theorem written_numbered (inStep : m.InStep) (whole : ∀ a ∈ actions, a.isPart = false) :
    (m.written actions).map (·.2.offset) =
        List.range' (m.offset + 1) (m.written actions).length ∧
      (m.run actions).offset = m.offset + (m.written actions).length := by
  induction actions generalizing m with
  | nil => exact ⟨rfl, rfl⟩
  | cons a later ih =>
    obtain ⟨first, rest⟩ := List.forall_mem_cons.mp whole
    obtain ⟨offsets, ends⟩ := ih (inStep.act a) rest
    have split : m.run (a :: later) = (m.act a).run later := rfl
    rw [split, ends]
    rcases written_act inStep first with ⟨none, same⟩ | ⟨write, e, one, next, last⟩
    · simpa [written, none, same] using offsets
    · simp only [written, one, Option.toList_some, List.singleton_append, List.map_cons,
        List.length_cons, List.range'_succ, offsets, last, next]
      exact ⟨trivial, by omega⟩

/-- In runs without a part of a write, whoever reported a waiting write is counted for it, and nobody
else. -/
theorem counted_iff_reported {settings : Settings} {log : L} (created : create settings log = .ok m)
    (whole : ∀ a ∈ actions, a.isPart = false) {w : PendingWrite}
    (waiting : w ∈ (m.run actions).quorum.pending) (id : String) :
    .replica id ∈ w.sources ↔ id ∈ reporters (m.reports actions) w.offset := by
  have inStep := inStep_of_create created
  have remembered := remembered_run inStep (tallied_of_create created) whole
    (remembered_of_create created)
  have vouched := vouched_run inStep actions (vouched_of_create created (Attests []))
  rw [mem_reporters]
  constructor
  · exact vouched.pending w waiting (.replica id)
  · rintro ⟨reported, member, reached⟩
    exact remembered.counted (id, reported) member w waiting reached

/-- A write with a cell is durable once enough replicas reported its offset, and waits before that. -/
theorem state_of_reporters {settings : Settings} {log : L}
    (created : create settings log = .ok m) (whole : ∀ a ∈ actions, a.isPart = false) {write : Nat}
    {c : Cell} (cell : (m.run actions).quorum.board.cells[write]? = some c)
    (offset : c.offset = some e.offset) :
    c.state = if settings.copies.toNat - 1 ≤ (reporters (m.reports actions) e.offset).card
      then .durable else .pending := by
  have inStep₀ := inStep_of_create created
  have inStep := inStep₀.run actions
  have required := (keeps_run inStep₀ actions).required.trans (required_of_create created)
  rcases inStep.consistent.settled write c e.offset cell offset with durable | ⟨w, held, here, same⟩
  · have vouched := vouched_run inStep₀ actions (vouched_of_create created (Attests []))
    obtain ⟨sources, distinct, enough, all⟩ := vouched.durable write c e.offset cell offset durable
    have count : sources.length ≤ (reporters (m.reports actions) e.offset).card + 1 :=
      length_le_of_sources distinct fun id member => mem_reporters.mpr (all _ member)
    rw [durable, if_pos]
    omega
  · have opened := inStep.consistent.opened w held
    rw [here, cell] at opened
    cases opened
    have own := (inStep.pending w held).2.2
    have few := (inStep.consistent.sources w held).2
    have count : (reporters (m.reports actions) e.offset).card < w.sources.length :=
      card_lt_of_sources own fun id reported =>
        (counted_iff_reported created whole held id).mpr (same ▸ reported)
    rw [if_neg]
    · rfl
    · omega

/-- A write that the master stored is durable exactly when so many distinct replicas reported its
offset that with the master they are as many as the settings ask for, and pending otherwise. Every one
of them counts while it is pending, and once it is durable it stays so, whatever happens later. -/
theorem durable_iff_reported {settings : Settings} {log : L} (created : create settings log = .ok m)
    (whole : ∀ a ∈ actions, a.isPart = false) {write : Nat} (stored : (write, e) ∈ m.written actions) :
    ∃ c, (m.run actions).quorum.board.cells[write]? = some c ∧ c.offset = some e.offset ∧
      c.state = (if settings.copies.toNat - 1 ≤ (reporters (m.reports actions) e.offset).card
        then .durable else .pending) ∧
      (∀ w ∈ (m.run actions).quorum.pending, w.cell = write → ∀ id,
        .replica id ∈ w.sources ↔ id ∈ reporters (m.reports actions) e.offset) ∧
      (c.state = .durable → ∀ later, (m.run (actions ++ later)).quorum.board.state write =
        .durable) := by
  have inStep₀ := inStep_of_create created
  have inStep := inStep₀.run actions
  obtain ⟨c, cell, offset⟩ := cell_of_run inStep₀ actions stored
  refine ⟨c, cell, offset, state_of_reporters created whole cell offset, ?_, ?_⟩
  · intro w held here id
    have opened := inStep.consistent.opened w held
    rw [here, cell] at opened
    cases opened
    rw [counted_iff_reported created whole held id, Option.some.inj offset]
  · intro durable later
    obtain ⟨c', cell', -, stays⟩ := (keeps_run inStep later).cells write c cell
    have again : m.run (actions ++ later) = (m.run actions).run later := List.foldl_append
    rw [again, Board.state, cell']
    exact stays durable

/-- The run of a master that asks for three copies: its first replica reports a write, goes, and comes
back with nothing before the second one reports the write. -/
def returning : List (Action VolatileLog) :=
  [.accept Settings.defaultBind (introduction "first" 0) true, .append [7] none,
    .acknowledge "first" 1, .disconnect "first",
    .accept Settings.defaultBind (introduction "first" 0) true,
    .accept Settings.defaultBind (introduction "second" 0) true, .acknowledge "second" 1]

/-- A replica that comes back and holds less than it reported still counts. -/
theorem durable_after_return : (0, (⟨1, [7], none⟩ : Entry)) ∈ (small 3).written returning ∧
    ((small 3).run returning).quorum.board.state 0 = .durable := by
  have stored : (0, (⟨1, [7], none⟩ : Entry)) ∈ (small 3).written returning := by decide +kernel
  have created : create (smallSettings 3) ({} : VolatileLog) = .ok (small 3) := rfl
  obtain ⟨c, cell, -, state, -⟩ := durable_iff_reported created (by decide) stored
  have enough : 2 ≤ (reporters ((small 3).reports returning) 1).card := by decide +kernel
  refine ⟨stored, ?_⟩
  rw [Board.state, cell, Option.map_some, Option.getD_some, state]
  exact if_pos enough

end QuorumLog.Master
