import Mathlib.Data.List.Sort
import QuorumLog.Proofs.ReportedDurability

/-! When every write is one step, whoever learns that a write is durable knows it of all writes before.
A report that reaches a write reaches the earlier ones too, so the writes of a run fall into a durable
part and, behind it, the part that waits. -/

namespace QuorumLog

/-- A test that passes on everything behind a place where it passes cuts a list in two. -/
theorem exists_drop_of_upward {α : Type} {p : α → Bool} {l : List α}
    (upward : l.Pairwise fun x y => p x → p y) :
    ∃ count, l.filter p = l.drop count ∧ ∀ x ∈ l.take count, p x = false := by
  induction l with
  | nil => exact ⟨0, rfl, by simp⟩
  | cons x rest ih =>
    obtain ⟨behind, upward⟩ := List.pairwise_cons.mp upward
    cases here : p x with
    | true =>
      refine ⟨0, List.filter_eq_self.mpr fun y member => ?_, by simp⟩
      rcases List.mem_cons.mp member with rfl | later
      · exact here
      · exact behind y later here
    | false =>
      obtain ⟨count, passed, failed⟩ := ih upward
      refine ⟨count + 1, by simpa [here] using passed, fun y member => ?_⟩
      rcases List.mem_cons.mp member with rfl | later
      · exact here
      · exact failed y later

/-- So many of the first writes are durable, and those that wait are exactly the others. -/
structure Quorum.Divided (q : Quorum) (written : List (Nat × Entry)) (count : Nat) : Prop where
  durable : ∀ w ∈ written.take count, q.board.state w.1 = .durable
  pending : ∀ w ∈ written.drop count, q.board.state w.1 = .pending
  waiting : q.pendingOffsets = (written.drop count).map (·.2.offset)

namespace Master

variable {L : Type} [LocalLog L] {m m' : Master L} {a : Action L} {e : Entry}
variable {actions : List (Action L)}

/-- Fewer replicas reported a higher offset. -/
theorem reporters_antitone (reports : List (String × Nat)) : Antitone (reporters reports) := by
  intro low high below id member
  obtain ⟨reported, heard, reached⟩ := mem_reporters.mp member
  exact mem_reporters.mpr ⟨reported, heard, Nat.le_trans below reached⟩

/-! ### What waits was written -/

private theorem waited_announced (inStep : m.InStep) (announced : Announced e m m')
    {v : PendingWrite} (waiting : v ∈ m'.quorum.pending) :
    (∃ w ∈ m.quorum.pending, w.offset = v.offset ∧ w.cell = v.cell) ∨
      (v.offset = e.offset ∧ v.cell = m.quorum.board.size) := by
  rw [announced.quiet.quorum] at waiting
  rcases inStep.waited_of_announced announced.entry waiting with
    ⟨w, waited, offsets, cells, -⟩ | ⟨offset, cell, -⟩
  · exact .inl ⟨w, waited, offsets, cells⟩
  · exact .inr ⟨offset, cell⟩

variable [NumberedLog L]

/-- A write that waits after an action waited before, or the action brought it into the log. -/
theorem waited_act (inStep : m.InStep) {v : PendingWrite}
    (waiting : v ∈ (m.act a).quorum.pending) :
    (∃ w ∈ m.quorum.pending, w.offset = v.offset ∧ w.cell = v.cell) ∨
      ∃ e, m.written? a = some (v.cell, e) ∧ e.offset = v.offset := by
  cases turn inStep a with
  | plain plain =>
    rw [plain.pending] at waiting
    exact .inl ⟨v, waiting, rfl, rfl⟩
  | reported reported =>
    obtain ⟨known, -, grants, -⟩ := reported.granted
    obtain ⟨w, waited, offsets, cells, -⟩ := grants.waited v waiting
    exact .inl ⟨w, waited, offsets, cells⟩
  | stored stored =>
    obtain ⟨-, -, log, -, state⟩ := stored
    rw [state] at waiting
    exact .inl ⟨v, waiting, rfl, rfl⟩
  | announced announced written =>
    rcases waited_announced inStep announced waiting with before | ⟨offset, cell⟩
    · exact .inl before
    · exact .inr ⟨_, cell ▸ written, offset.symm⟩
  | appended stored announced written =>
    have inStep' := inStep.stored stored
    obtain ⟨-, -, log, -, rfl⟩ := stored
    rcases waited_announced inStep' announced waiting with before | ⟨offset, cell⟩
    · exact .inl before
    · exact .inr ⟨_, cell ▸ written, offset.symm⟩

theorem waited_run (inStep : m.InStep) (actions : List (Action L)) {v : PendingWrite}
    (waiting : v ∈ (m.run actions).quorum.pending) :
    (∃ w ∈ m.quorum.pending, w.offset = v.offset ∧ w.cell = v.cell) ∨
      ∃ e, (v.cell, e) ∈ m.written actions ∧ e.offset = v.offset := by
  induction actions generalizing m with
  | nil => exact .inl ⟨v, waiting, rfl, rfl⟩
  | cons a later ih =>
    rcases ih (inStep.act a) waiting with ⟨w, held, offsets, cells⟩ | ⟨e, written, offset⟩
    · rcases waited_act inStep held with ⟨u, before, offsets', cells'⟩ | ⟨e, written, offset⟩
      · exact .inl ⟨u, before, offsets'.trans offsets, cells'.trans cells⟩
      · refine .inr ⟨e, List.mem_append_left _ ?_, offset.trans offsets⟩
        exact Option.mem_toList.mpr (cells ▸ written)
    · exact .inr ⟨e, List.mem_append_right _ written, offset⟩

/-- A write of a run is durable or it waits, and then it is among those that wait. -/
theorem settled_run (inStep : m.InStep) (actions : List (Action L)) {write : Nat}
    (written : (write, e) ∈ m.written actions) :
    (m.run actions).quorum.board.state write = .durable ∨
      ((m.run actions).quorum.board.state write = .pending ∧
        ∃ w ∈ (m.run actions).quorum.pending, w.cell = write ∧ w.offset = e.offset) := by
  have consistent := (inStep.run actions).consistent
  obtain ⟨c, cell, offset⟩ := cell_of_run inStep actions written
  rcases consistent.settled write c e.offset cell offset with durable | ⟨w, waiting, here, same⟩
  · exact .inl (by simp [Board.state, cell, durable])
  · have opened := consistent.opened w waiting
    rw [here] at opened
    exact .inr ⟨by simp [Board.state, opened, Cell.opened], w, waiting, here, same⟩

/-- The offsets that wait after a run of a new master are those of its pending writes. -/
theorem mem_pendingOffsets {settings : Settings} {log : L} (created : create settings log = .ok m)
    (actions : List (Action L)) (offset : Nat) :
    offset ∈ (m.run actions).quorum.pendingOffsets ↔ ∃ w ∈ m.written actions,
      (m.run actions).quorum.board.state w.1 = .pending ∧ w.2.offset = offset := by
  have inStep := inStep_of_create created
  have none : m.quorum.pending = [] := by
    obtain ⟨-, rfl⟩ := create_of_ok created
    rfl
  constructor
  · intro member
    obtain ⟨v, waiting, rfl⟩ := List.mem_map.mp member
    rcases waited_run inStep actions waiting with ⟨w, before, -⟩ | ⟨e, written, same⟩
    · simp [none] at before
    · have opened := (inStep.run actions).consistent.opened v waiting
      exact ⟨_, written, by simp [Board.state, opened, Cell.opened], same⟩
  · rintro ⟨⟨write, e⟩, written, pending, rfl⟩
    rcases settled_run inStep actions written with durable | ⟨-, w, waiting, -, same⟩
    · rw [pending] at durable
      cases durable
    · exact List.mem_map.mpr ⟨w, waiting, same⟩

/-! ### Durability is closed under what came before -/

/-- Whoever made a write durable made every earlier write durable. -/
theorem durable_before {settings : Settings} {log : L} (created : create settings log = .ok m)
    (whole : ∀ a ∈ actions, a.isPart = false) {earlier later : Nat × Entry}
    (first : earlier ∈ m.written actions) (second : later ∈ m.written actions)
    (before : earlier.2.offset < later.2.offset)
    (durable : (m.run actions).quorum.board.state later.1 = .durable) :
    (m.run actions).quorum.board.state earlier.1 = .durable := by
  have inStep := inStep_of_create created
  obtain ⟨c, cell, offset⟩ := cell_of_run inStep actions first
  obtain ⟨c', cell', offset'⟩ := cell_of_run inStep actions second
  have state := state_of_reporters created whole cell offset
  have state' := state_of_reporters created whole cell' offset'
  rw [Board.state, cell', Option.map_some, Option.getD_some, state'] at durable
  rw [Board.state, cell, Option.map_some, Option.getD_some, state]
  split at durable
  · rename_i enough
    have more := Finset.card_le_card (reporters_antitone (m.reports actions) (Nat.le_of_lt before))
    exact if_pos (Nat.le_trans enough more)
  · cases durable

private theorem ascending_written (inStep : m.InStep) (whole : ∀ a ∈ actions, a.isPart = false) :
    (m.written actions).Pairwise fun w v => w.2.offset < v.2.offset := by
  refine List.pairwise_map.mp ?_
  rw [(written_numbered inStep whole).1]
  exact List.pairwise_lt_range'

/-- The writes of a run are durable up to one of them, and the others wait. -/
theorem divided_run {settings : Settings} {log : L} (created : create settings log = .ok m)
    (whole : ∀ a ∈ actions, a.isPart = false) :
    ∃ count, (m.run actions).quorum.Divided (m.written actions) count := by
  have inStep := inStep_of_create created
  have ascending := ascending_written inStep whole
  let waits (w : Nat × Entry) : Bool := (m.run actions).quorum.board.isPending w.1
  have waits_iff (w : Nat × Entry) :
      waits w ↔ (m.run actions).quorum.board.state w.1 = .pending := by
    simp [waits, Board.isPending, Durability.isPending]
  have upward : (m.written actions).Pairwise fun w v => waits w → waits v := by
    refine ascending.imp_of_mem fun {w v} first second before pending => ?_
    rw [waits_iff] at pending ⊢
    rcases settled_run inStep actions second with durable | ⟨still, -⟩
    · have both := durable_before created whole first second before durable
      rw [pending] at both
      cases both
    · exact still
  obtain ⟨count, behind, front⟩ := exists_drop_of_upward upward
  refine ⟨count, fun w member => ?_, fun w member => ?_, ?_⟩
  · rcases settled_run inStep actions (List.mem_of_mem_take member) with durable | ⟨still, -⟩
    · exact durable
    · have waiting := (waits_iff w).mpr still
      rw [front w member] at waiting
      cases waiting
  · rw [← behind] at member
    exact (waits_iff w).mp (List.mem_filter.mp member).2
  -- Both lists ascend, so it is enough that they have the same offsets.
  · refine List.Pairwise.eq_of_mem_iff (r := (· < ·)) ?_ ?_ fun offset => ?_
    · exact List.pairwise_map.mpr (inStep.run actions).consistent.ascending
    · exact List.pairwise_map.mpr (ascending.sublist (List.drop_sublist count _))
    · rw [mem_pendingOffsets created actions offset, ← behind]
      simp [waits_iff, and_assoc]

/-- In every run of whole actions durability is closed under what came before: if a write is durable,
so is every write with a lower offset. The writes have the offsets behind the log that the master began
with, one after the other, and those that wait are exactly the last of them. -/
theorem durable_prefix {settings : Settings} {log : L} (created : create settings log = .ok m)
    (whole : ∀ a ∈ actions, a.isPart = false) :
    (∀ earlier ∈ m.written actions, ∀ later ∈ m.written actions,
      earlier.2.offset < later.2.offset →
      (m.run actions).quorum.board.state later.1 = .durable →
      (m.run actions).quorum.board.state earlier.1 = .durable) ∧
    (m.written actions).map (·.2.offset) =
      List.range' (m.offset + 1) (m.written actions).length ∧
    ∃ count, (m.run actions).quorum.Divided (m.written actions) count :=
  ⟨fun _ first _ second => durable_before created whole first second,
    (written_numbered (inStep_of_create created) whole).1, divided_run created whole⟩

/-- The run of a master that asks for two copies: its replica reports the second of three writes, and
comes back on another connection with only the first. -/
def lagging : List (Action VolatileLog) :=
  [.append [1] none, .accept Settings.defaultBind (introduction "first" 0) true, .append [2] none,
    .append [3] none, .acknowledge "first" 2,
    .accept Settings.defaultBind (introduction "first" 1) true]

/-- The second write is durable, so the first one is, and the third waits. -/
theorem durable_behind_lagging : ((small 2).run lagging).quorum.pendingOffsets = [3] ∧
    ((small 2).run lagging).quorum.board.state 0 = .durable := by
  have created : create (smallSettings 2) ({} : VolatileLog) = .ok (small 2) := rfl
  have whole : ∀ a ∈ lagging, a.isPart = false := by decide
  obtain ⟨closed, -⟩ := durable_prefix created whole
  have written : (small 2).written lagging =
      [(0, ⟨1, [1], none⟩), (1, ⟨2, [2], none⟩), (2, ⟨3, [3], none⟩)] := by decide +kernel
  have second : ((small 2).run lagging).quorum.board.state 1 = .durable := by decide +kernel
  refine ⟨by decide +kernel, ?_⟩
  exact closed (0, ⟨1, [1], none⟩) (by simp [written]) (1, ⟨2, [2], none⟩) (by simp [written])
    (by decide) second

end Master

end QuorumLog
