import QuorumLog.Proofs.ReportedDurability

/-! A master keeps the progress of a replica twice: its link knows the offset that the replica holds,
and the count of copies knows the offset up to which the replica is credited. The two are set by
different steps of the handshake and go on by different checks when the replica reports. When every
write is one step they are equal on every connected link, and each waiting write shows what they say. -/

namespace QuorumLog.Master

variable {L : Type} [LocalLog L] {m : Master L} {actions : List (Action L)}

/-! ### The count of copies on a connected link -/

/-- The count of copies reflects a link: it knows of the replica what the link knows, which is within
the log, and it counts the replica for every waiting write up to there. -/
structure Reflects (m : Master L) (l : Link) : Prop where
  equal : l.lastAck = m.quorum.watermark (.replica l.peer.id)
  within : l.lastAck ≤ m.offset
  credited : ∀ w ∈ m.quorum.pending, w.offset ≤ m.quorum.watermark (.replica l.peer.id) →
    .replica l.peer.id ∈ w.sources

/-- The count of copies reflects every connected link, and the master's own writes up to the last one.
What waits has the master's own credit, and fewer sources than are required. -/
structure Matched (last : Nat) (m : Master L) : Prop where
  connected : ∀ l ∈ m.links, l.isConnected → m.Reflects l
  own : m.quorum.watermark .master = last
  credited : ∀ w ∈ m.quorum.pending, .master ∈ w.sources
  few : ∀ w ∈ m.quorum.pending, w.sources.Nodup ∧ w.sources.length < m.quorum.required

/-- Where links and credits are in step and no report came too early, the count of copies reflects the
links. -/
theorem InStep.matched (inStep : m.InStep) (tallied : m.Tallied []) :
    m.Matched (m.quorum.watermark .master) where
  connected l held connected := by
    have agree := inStep.agree l held connected
    refine ⟨agree.symm, inStep.within l held, fun w waiting reached => ?_⟩
    have counted := tallied.counted w waiting l held connected (agree ▸ reached)
    exact counted.mpr List.not_mem_nil
  own := rfl
  credited w waiting := (inStep.pending w waiting).2.2
  few := inStep.consistent.sources

variable [NumberedLog L]

/-- Whole actions leave no report behind that came too early. -/
theorem tallied_of_whole (inStep : m.InStep) (tallied : m.Tallied [])
    (whole : ∀ a ∈ actions, a.isPart = false) : (m.run actions).Tallied [] := by
  induction actions generalizing m with
  | nil => exact tallied
  | cons a later ih =>
    obtain ⟨first, rest⟩ := List.forall_mem_cons.mp whole
    have now := tallied_act inStep a tallied
    rw [overtaken_of_whole first] at now
    exact ih (inStep.act a) now rest

/-! ### The master's own log -/

/-- The offset of the last write of a run. -/
def lastWritten? (m : Master L) (actions : List (Action L)) : Option Nat :=
  (m.written actions).getLast?.map (·.2.offset)

/-- The master credits itself with a write when it announces it, and with nothing else. -/
theorem own_act (inStep : m.InStep) (a : Action L) :
    (m.act a).quorum.watermark .master =
      ((m.written? a).map (·.2.offset)).getD (m.quorum.watermark .master) := by
  cases turn inStep a with
  | plain plain _ unwritten =>
    rw [unwritten]
    rcases plain.quorum with same | ⟨reason, refused⟩
    · rw [same]; rfl
    · rw [refused]; rfl
  | reported reported _ unwritten =>
    rw [unwritten, reported.watermark, if_neg (by simp)]
    rfl
  | stored stored =>
    obtain ⟨-, -, log, -, state⟩ := stored
    rw [state]
    rfl
  | announced announced written =>
    obtain ⟨last, tracked, -⟩ := inStep.next announced.entry
    have known := inStep.master
    rw [written, announced.quiet.quorum, announcedQuorum_watermark, if_pos rfl]
    exact Nat.max_eq_right (by omega)
  | appended stored announced written =>
    have known := inStep.master
    have tracked := m.tracked_le
    obtain ⟨-, next, log, -, rfl⟩ := stored
    rw [written, announced.quiet.quorum, announcedQuorum_watermark, if_pos rfl]
    exact Nat.max_eq_right (by simp only; omega)

theorem own_run (inStep : m.InStep) (actions : List (Action L)) :
    (m.run actions).quorum.watermark .master =
      (m.lastWritten? actions).getD (m.quorum.watermark .master) := by
  induction actions generalizing m with
  | nil => rfl
  | cons a later ih =>
    have split : m.run (a :: later) = (m.act a).run later := rfl
    rw [split, ih (inStep.act a), own_act inStep a]
    cases now : m.written? a with
    | none => simp [lastWritten?, written, now]
    -- The last write of the rest is the last of all, and without one it is the write of this action.
    | some write =>
      cases last : ((m.act a).written later).getLast? <;>
        simp [lastWritten?, written, now, last, List.getLast?_cons]

/-! ### Whole runs -/

/-- After every run in which each operation is one step, the link of a replica that is connected and
the count of copies agree on what the replica holds: both name the same offset, which is within the
log, and the replica is counted for every waiting write up to there. The master is credited with just
its own writes, up to the last one, and with each that waits; and what waits has fewer copies than the
settings ask for. -/
theorem matched_run {settings : Settings} {log : L} (created : create settings log = .ok m)
    (whole : ∀ a ∈ actions, a.isPart = false) :
    (m.run actions).Matched ((m.lastWritten? actions).getD 0) ∧
      (m.run actions).quorum.required = settings.copies.toNat := by
  have inStep := inStep_of_create created
  have tallied := tallied_of_whole inStep (tallied_of_create created) whole
  have matched := (inStep.run actions).matched tallied
  have fresh : m.quorum.watermark .master = 0 := by
    obtain ⟨-, rfl⟩ := create_of_ok created
    rfl
  rw [own_run inStep actions, fresh] at matched
  exact ⟨matched, (keeps_run inStep actions).required.trans (required_of_create created)⟩

/-- The run of a master that asks for three copies: its replica reports a write, comes back with
nothing, holds two writes again, and then reports the older one of them. -/
def relapsing : List (Action VolatileLog) :=
  [.accept Settings.defaultBind (introduction "first" 0) true, .append [7] none,
    .acknowledge "first" 1, .disconnect "first", .append [8] none,
    .accept Settings.defaultBind (introduction "first" 0) true, .acknowledge "first" 2,
    .acknowledge "first" 1, .append [9] none]

/-- A replica that fell back and caught up is counted for what its link knows, and no further. -/
theorem matched_after_relapse : ((small 3).run relapsing).Matched 3 ∧
    ((small 3).run relapsing).links.map (fun l => (l.isConnected, l.lastAck)) = [(true, 2)] ∧
    ((small 3).run relapsing).quorum.pending.map (fun w => (w.offset, w.sources.length)) =
      [(1, 2), (2, 2), (3, 1)] := by
  have created : create (smallSettings 3) ({} : VolatileLog) = .ok (small 3) := rfl
  have whole : ∀ a ∈ relapsing, a.isPart = false := by decide
  have last : (small 3).lastWritten? relapsing = some 3 := by decide +kernel
  have matched := (matched_run created whole).1
  rw [last] at matched
  exact ⟨matched, by decide +kernel, by decide +kernel⟩

end QuorumLog.Master
