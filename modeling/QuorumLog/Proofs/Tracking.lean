import QuorumLog.Proofs.MasterMoves

/-! The count of copies while everything that a master does is taken apart. A step adds to it in three
ways: a stored write is announced, a report that is news is credited, and a welcome takes the replica's
word. Between the steps every write that waits has the master's own copy and lies behind none that is
still to be announced. -/

namespace QuorumLog

/-- A log that ends where it ended when old entries are forgotten, whatever becomes of the call. -/
class SteadyEnd (L : Type) [LocalLog L] : Prop where
  purge_in_place (log : L) (offset : Nat) :
    LocalLog.highest (LocalLog.purge log offset).1 = LocalLog.highest log

theorem SegmentLog.dropSegments_highest (medium : Medium) (log : SegmentLog) (count : Nat)
    (segments : List Segment) : (log.dropSegments medium count segments).1.highest = log.highest := by
  induction segments generalizing log count with
  | nil => rfl
  | cons s later ih =>
    rw [dropSegments]
    split
    · rfl
    · rename_i after deleted
      rw [ih]
      unfold deleteFile at deleted
      split at deleted
      · cases deleted
      · simp only [Except.map] at deleted
        split at deleted <;> cases deleted
        rfl

instance : SteadyEnd VolatileLog where
  purge_in_place _ _ := rfl

instance : SteadyEnd SegmentLog where
  purge_in_place log offset := SegmentLog.dropSegments_highest .sound log 0 (log.expired offset)

instance : SteadyEnd Store where
  purge_in_place
    | .volatile _, _ => rfl
    | .segmented log, offset => SteadyEnd.purge_in_place log offset

namespace Master

variable {L : Type} [LocalLog L] {m m' : Master L} {a : Move} {e : Entry}

/-! ### What a step adds to the count of copies -/

/-- The replica whose handshake comes to something in a move: its hello is accepted, or the welcome is
written on its connection. -/
def admitted? (m : Master L) : Move → Option String
  | .greet address (.ok (.hello h)) =>
    match (m.greet address (.ok (.hello h))).2 with
    | .ok _ => some h.replicaId
    | .error _ => none
  | .advance generation =>
    match m.session? generation, (m.advance generation).2 with
    | some s, some (.welcome _) => some s.replicaId
    | _, _ => none
  | _ => none

/-- The replicas whose handshakes come to something in some moves. -/
def admitted (m : Master L) : List Move → List String
  | [] => []
  | a :: later => (m.admitted? a).toList ++ (m.move a).admitted later

/-- What a move that is no part of a write does to the count of copies. -/
inductive Credited (m : Master L) (a : Move) (q : Quorum) : Prop
  | same (same : q = m.quorum)
  | reported {l : Link} {offset : Nat} (held : l ∈ m.links)
      (credit : q = (m.quorum.credit offset (.replica l.peer.id)).1)
  | welcomed {id : String} {offset : Nat} (admitted : m.admitted? a = some id)
      (rebase : q = (m.quorum.rebase (.replica id) offset).1)

private theorem credited_acknowledge (numbered : m.Numbered) (id : String) (offset : Nat) :
    Credited m a (m.acknowledge id offset).quorum := by
  rcases acknowledge_cases m numbered id offset with ⟨quiet, -⟩ | ⟨l, held, rfl, -, -, -, quiet⟩
  · exact .same quiet.quorum
  · exact .reported held quiet.quorum

private theorem credited_advance (numbered : m.Numbered) (generation : Nat) :
    Credited m (.advance generation) (m.advance generation).1.quorum := by
  rcases numbered.listens_or_welcomes generation with listens | ⟨s, found, welcoming⟩
  · exact .same (quiet_advance m listens).1.quorum
  · rcases advance_welcome m found welcoming with ⟨fault, failed⟩ | ⟨welcome, wrote⟩
    · rw [failed]
      exact .same (quiet_endSession m generation fault : Silent m _).quorum
    · have admitted : m.admitted? (.advance generation) = some s.replicaId := by
        simp [admitted?, found, wrote]
      rw [wrote]
      exact .welcomed admitted (quiet_welcomed m s : Silent _ _).quorum

theorem credited_move (numbered : m.Numbered) (plain : a.isPlain) :
    Credited m a (m.move a).quorum := by
  cases a with
  | append | store | announce | purge => cases plain
  | greet address first =>
    rcases greet_cases m address first with ⟨rejection, -, quiet⟩ | ⟨h, report, -, -, -, seated⟩
    · exact .same quiet.quorum
    · exact .same seated.quorum
  | advance generation => exact credited_advance numbered generation
  | receive generation message =>
    rcases receive_cases m generation message with ⟨s, -, offset, -, -, -, same⟩ | ⟨-, quiet⟩
    · rw [move, same]
      exact credited_acknowledge numbered s.replicaId offset
    · exact .same quiet.quorum
  | acknowledge id offset => exact credited_acknowledge numbered id offset
  | disconnect id => exact .same (quiet_closeLink m id none : Silent m _).quorum
  | endSession generation fault =>
    exact .same (quiet_endSession m generation fault : Silent m _).quorum
  | start bind => exact .same (quiet_start m bind : Silent m _).quorum
  | stop => exact .same (quiet_stop m : Silent m _).quorum

/-! ### Tracked writes -/

/-- What is true of the writes between all steps. Those that wait have the master's own copy, and an
entry that is not announced is the last one, behind all that wait and above what the master has credit
for. -/
structure Tracked (m : Master L) : Prop where
  numbered : m.Numbered
  consistent : m.quorum.Consistent
  own : ∀ w ∈ m.quorum.pending, .master ∈ w.sources
  within : ∀ w ∈ m.quorum.pending, w.offset ≤ m.offset
  credit : m.quorum.watermark .master ≤ m.offset
  stored : ∀ e, m.unannounced = some e → e.offset = m.offset ∧
    m.quorum.watermark .master < e.offset ∧ ∀ w ∈ m.quorum.pending, w.offset < e.offset

theorem tracked_of_create {settings : Settings} {log : L} (created : create settings log = .ok m) :
    m.Tracked := by
  obtain ⟨-, rfl⟩ := create_of_ok created
  refine ⟨⟨?_, ?_, ?_, ?_⟩, Quorum.consistent_ofCopies _, ?_, ?_, ?_, ?_⟩ <;>
    simp [Quorum.ofCopies, Quorum.watermark]

/-- A credit for a replica neither adds a write nor takes the master's copy away. -/
private theorem Tracked.granted (tracked : m.Tracked) {id : String} {range : Nat → Prop}
    (numbered : m'.Numbered) (ends : m'.offset = m.offset)
    (idle : m'.unannounced = m.unannounced) (consistent : m'.quorum.Consistent)
    (grants : Quorum.Grants (.replica id) range m.quorum m'.quorum)
    (credit : m'.quorum.watermark .master = m.quorum.watermark .master) : m'.Tracked := by
  refine ⟨numbered, consistent, fun v held => ?_, fun v held => ?_, ?_, fun e entry => ?_⟩
  · obtain ⟨w, waited, -, -, sources⟩ := grants.waited v held
    exact (sources .master).mpr (.inl (tracked.own w waited))
  · obtain ⟨w, waited, offsets, -⟩ := grants.waited v held
    rw [ends, ← offsets]
    exact tracked.within w waited
  · rw [credit, ends]
    exact tracked.credit
  · rw [idle] at entry
    rw [credit, ends]
    obtain ⟨last, above, behind⟩ := tracked.stored e entry
    refine ⟨last, above, fun v held => ?_⟩
    obtain ⟨w, waited, offsets, -⟩ := grants.waited v held
    exact offsets ▸ behind w waited

theorem Tracked.steady (tracked : m.Tracked) (steady : Steady m m')
    (credited : Credited m a m'.quorum) : m'.Tracked := by
  have ends : m'.offset = m.offset := congrArg LocalLog.highest steady.log
  cases credited with
  | same same =>
    refine ⟨steady.numbered, ?_, ?_, ?_, ?_, ?_⟩
    · exact same ▸ tracked.consistent
    · exact same ▸ tracked.own
    · rw [same, ends]
      exact tracked.within
    · rw [same, ends]
      exact tracked.credit
    · rw [same, ends, steady.unannounced]
      exact tracked.stored
  | reported held credit =>
    refine tracked.granted steady.numbered ends steady.unannounced ?_ (credit ▸ Quorum.credit_grants) ?_
    · rw [credit]
      exact Quorum.consistent_credit tracked.consistent
    · rw [credit, Quorum.watermark_credit, if_neg (by simp)]
  | welcomed admitted rebase =>
    refine tracked.granted steady.numbered ends steady.unannounced ?_ (rebase ▸ Quorum.rebase_grants) ?_
    · rw [rebase]
      exact Quorum.consistent_rebase tracked.consistent
    · rw [rebase, Quorum.watermark_rebase, if_neg (by simp)]

theorem Tracked.refused (tracked : m.Tracked) (reason : String) {log : L}
    (ends : LocalLog.highest log = m.offset)
    (quiet : Silent { m with log, quorum := (m.quorum.refuse reason).1 } m') : m'.Tracked := by
  have numbered := tracked.numbered
  have quorum : m'.quorum = (m.quorum.refuse reason).1 := quiet.quorum
  have ends' : m'.offset = m.offset := (congrArg LocalLog.highest quiet.log).trans ends
  have idle : m'.unannounced = m.unannounced := quiet.unannounced
  refine ⟨?_, ?_, ?_, ?_, ?_, ?_⟩
  · exact Numbered.kept (m := { m with log, quorum := (m.quorum.refuse reason).1 })
      (numbered.same rfl rfl rfl) quiet.toKept
  · rw [quorum]
    exact Quorum.consistent_refuse tracked.consistent reason
  · rw [quorum]
    exact tracked.own
  · rw [quorum, ends']
    exact tracked.within
  · rw [quorum, ends']
    exact tracked.credit
  · rw [quorum, ends', idle]
    exact tracked.stored

theorem Tracked.announce (tracked : m.Tracked) : m.announce.1.Tracked := by
  rcases announce_cases m with ⟨-, same⟩ | ⟨e, entry, -, quiet⟩
  · rw [same]
    exact tracked
  obtain ⟨last, above, behind⟩ := tracked.stored e entry
  have numbered := tracked.numbered
  have quorum : m.announce.1.quorum = m.announcedQuorum e := quiet.quorum
  have ends : m.announce.1.offset = m.offset := congrArg LocalLog.highest quiet.log
  -- What waits now waited before, or it is the new write with the credit that goes with it.
  have waited : ∀ v ∈ (m.announcedQuorum e).pending, .master ∈ v.sources ∧ v.offset ≤ e.offset := by
    intro v held
    obtain ⟨w, waited, offsets, -, sources⟩ := Quorum.credit_grants.waited v held
    rw [Quorum.track_of_last behind] at waited sources
    rcases List.mem_append.mp waited with before | new
    · have low := behind w before
      exact ⟨(sources .master).mpr (.inl (tracked.own w before)), by omega⟩
    · rw [List.mem_singleton.mp new] at offsets
      have reached : v.offset ≤ e.offset := Nat.le_of_eq offsets.symm
      have news : m.quorum.watermark .master < v.offset := Nat.lt_of_lt_of_le above (Nat.le_of_eq offsets)
      exact ⟨(sources .master).mpr (.inr ⟨rfl, news, reached⟩), reached⟩
  refine ⟨?_, ?_, fun v held => ?_, fun v held => ?_, ?_, ?_⟩
  · exact Numbered.kept (m := { m with quorum := m.announcedQuorum e, unannounced := none })
      (numbered.same rfl rfl rfl) quiet.toKept
  · rw [quorum]
    exact Quorum.consistent_credit (Quorum.consistent_track tracked.consistent behind)
  · exact (waited v (quorum ▸ held)).1
  · rw [ends, ← last]
    exact (waited v (quorum ▸ held)).2
  · rw [quorum, announcedQuorum_watermark, if_pos rfl, ends]
    exact Nat.max_le.mpr ⟨tracked.credit, Nat.le_of_eq last⟩
  · rw [show m.announce.1.unannounced = none from quiet.unannounced]
    simp

/-! ### Writes keep their place -/

private theorem Credited.keeps (credited : Credited m a m'.quorum) :
    m.quorum.Keeps m'.quorum := by
  cases credited with
  | same same => exact same ▸ .refl _
  | reported held credit =>
    rw [credit]
    exact Quorum.credit_grants.toKeeps
  | welcomed admitted rebase =>
    rw [rebase]
    exact Quorum.rebase_grants.toKeeps

private theorem keeps_store (m : Master L) (payload : Bytes) (metadata : Option Bytes) :
    m.quorum.Keeps (m.store payload metadata).1.quorum := by
  rcases store_cases m payload metadata with ⟨-, same⟩ | ⟨reason, log, -, -, quiet⟩ |
    ⟨log, offset, -, -, same⟩
  · rw [same]
    exact .refl _
  · rw [show (m.store payload metadata).1.quorum = _ from quiet.quorum]
    exact Quorum.keeps_refuse reason
  · rw [same]
    exact .refl _

omit [LocalLog L] in
private theorem keeps_announce (m : Master L) : m.quorum.Keeps m.announce.1.quorum := by
  rcases announce_cases m with ⟨-, same⟩ | ⟨e, entry, -, quiet⟩
  · rw [same]
    exact .refl _
  · rw [show m.announce.1.quorum = _ from quiet.quorum]
    exact (Quorum.keeps_track ..).trans Quorum.credit_grants.toKeeps

variable [NumberedLog L]

theorem Tracked.store (tracked : m.Tracked) (payload : Bytes) (metadata : Option Bytes) :
    (m.store payload metadata).1.Tracked := by
  rcases store_cases m payload metadata with ⟨-, same⟩ | ⟨reason, log, kept, -, quiet⟩ |
    ⟨log, offset, -, taken, same⟩
  · rw [same]
    exact tracked
  · refine tracked.refused reason ?_ quiet
    rcases kept with rfl | ⟨fault, failed⟩
    · rfl
    · exact NumberedLog.append_fails_in_place failed
  · obtain ⟨next, ends⟩ := NumberedLog.append_takes_next taken
    have longer : m.offset < offset := by
      unfold Master.offset
      omega
    rw [same]
    refine ⟨tracked.numbered.same rfl rfl rfl, tracked.consistent, tracked.own, fun w held => ?_, ?_,
      ?_⟩
    · show w.offset ≤ LocalLog.highest log
      have low := tracked.within w held
      omega
    · show m.quorum.watermark .master ≤ LocalLog.highest log
      have low := tracked.credit
      omega
    · rintro e ⟨⟩
      refine ⟨ends.symm, Nat.lt_of_le_of_lt tracked.credit longer, fun w held => ?_⟩
      exact Nat.lt_of_le_of_lt (tracked.within w held) longer

omit [NumberedLog L] in
/-- A move keeps the cells of all writes, and a write that is durable stays so. -/
theorem Tracked.keeps (tracked : m.Tracked) (a : Move) : m.quorum.Keeps (m.move a).quorum := by
  cases a with
  | append payload metadata =>
    have stored := keeps_store m payload metadata
    rcases move_append m payload metadata with ⟨-, same⟩ | same | same
    · rw [same]
      exact .refl _
    · rwa [same]
    · rw [same]
      exact stored.trans (keeps_announce _)
  | store payload metadata => exact keeps_store m payload metadata
  | announce => exact keeps_announce m
  | purge offset => exact .refl _
  | _ => exact (credited_move tracked.numbered rfl).keeps

variable [SteadyEnd L]

theorem Tracked.move (tracked : m.Tracked) (a : Move) : (m.move a).Tracked := by
  cases a with
  | append payload metadata =>
    have stored := tracked.store payload metadata
    rcases move_append m payload metadata with ⟨-, same⟩ | same | same
    · rwa [same]
    · rwa [same]
    · rw [same]
      exact stored.announce
  | store payload metadata => exact tracked.store payload metadata
  | announce => exact tracked.announce
  | purge offset =>
    have ends : (m.move (.purge offset)).offset = m.offset := SteadyEnd.purge_in_place m.log offset
    refine ⟨tracked.numbered.same rfl rfl rfl, tracked.consistent, tracked.own, ?_, ?_, ?_⟩
    · rw [ends]
      exact tracked.within
    · rw [ends]
      exact tracked.credit
    · rw [ends]
      exact tracked.stored
  | _ => exact tracked.steady (steady_move tracked.numbered rfl) (credited_move tracked.numbered rfl)

theorem Tracked.play (tracked : m.Tracked) (moves : List Move) : (m.play moves).Tracked := by
  induction moves generalizing m with
  | nil => exact tracked
  | cons a later ih => exact ih (tracked.move a)

theorem Tracked.keeps_play (tracked : m.Tracked) (moves : List Move) :
    m.quorum.Keeps (m.play moves).quorum := by
  induction moves generalizing m with
  | nil => exact .refl _
  | cons a later ih => exact (tracked.keeps a).trans (ih (tracked.move a))

end Master

end QuorumLog
