import QuorumLog.Proofs.EntryShipment

/-! How a catch-up ends. When its link becomes streaming, a session takes over what the log then
retains behind the entries that were written, and it tells its replica that it caught up as soon as
the last of these is written. An empty page or an empty tail counts as the end of the log, and it is,
as long as the log retains anything at all. A log that forgot everything meanwhile gives an empty tail
too: then the replica is told that it caught up with entries that it never got. -/

namespace QuorumLog

/-- What a session still writes before it tells its replica that it caught up, if that is settled. -/
def Stage.owed? : Stage → Option (List Entry)
  | .sending .tail rest _ => some rest
  | .completing => some []
  | _ => none

theorem sendingStage_owed (tail : List Entry) :
    (Master.sendingStage .tail tail).owed? = some tail := by
  cases tail <;> rfl

namespace Master

variable {L : Type} [LocalLog L] {m m' : Master L} {first generation resume offset : Nat}
variable {id : String} {history sent tail : List Entry} {s s' : Session} {frame : Option Entry}
variable {begun : Bool}

/-! ### What is owed -/

/-- A session that is past the catch-up stays so, and what it writes is what it owed. -/
theorem Goes.owes (goes : m.Goes s s' frame begun) (late : s.stage.isEarly = false) :
    s'.stage.isEarly = false ∧
      ∀ rest, s'.stage.owed? = some rest → s.stage.owed? = some (frame.toList ++ rest) := by
  cases goes with
  | welcomed stage | exhausted stage | page stage | begins stage => rw [stage] at late; cases late
  | @wrote slice e rest count stage due =>
    rw [stage] at late ⊢
    cases slice with
    | page => cases late
    | tail =>
      cases rest with
      | nil => exact ⟨rfl, fun _ owed => by cases owed; rfl⟩
      | cons => exact ⟨rfl, fun _ owed => by cases owed; rfl⟩
    | fresh => cases rest <;> exact ⟨rfl, fun _ owed => by cases owed⟩
  | @through slice count stage =>
    rw [stage] at late ⊢
    cases slice with
    | page => cases late
    | tail => exact ⟨rfl, fun _ owed => by cases owed; rfl⟩
    | fresh => exact ⟨rfl, fun _ owed => by cases owed⟩
  | completed stage => exact ⟨rfl, fun _ owed => by cases owed⟩
  | fresh stage => exact ⟨rfl, fun _ owed => by cases owed⟩

/-- The catch-up of a connection is over: what was written on it and what its session still owes make
up `target`. -/
def Settled (generation : Nat) (target sent : List Entry) (m : Master L) : Prop :=
  ∀ s ∈ m.sessions, s.generation = generation →
    s.stage.isEarly = false ∧ ∀ rest, s.stage.owed? = some rest → sent ++ rest = target

variable {target : List Entry}

omit [LocalLog L] in
theorem Settled.leaves (settled : Settled generation target sent m)
    (leaves : Leaves generation m m') : Settled generation target sent m' := by
  intro s' held here
  obtain ⟨s, before, rests, -⟩ := leaves.sessions s' held here
  rcases rests.stage with same | ⟨fault, ended⟩
  · rw [same]
    exact settled s before (rests.generation.symm.trans here)
  · rw [ended]
    exact ⟨rfl, fun _ owed => by cases owed⟩

theorem Settled.goes (settled : Settled generation target sent m) (held : s ∈ m.sessions)
    (here : s.generation = generation) (goes : m.Goes s s' frame begun)
    (becomes : Becomes generation s' begun m m') :
    Settled generation target (sent ++ frame.toList) m' := by
  obtain ⟨late, owed⟩ := settled s held here
  obtain ⟨late', owes⟩ := goes.owes late
  intro t present newest
  rw [becomes.session t present newest]
  refine ⟨late', fun rest owed' => ?_⟩
  rw [List.append_assoc]
  exact owed _ (owes rest owed')

omit [LocalLog L] in
theorem Settled.announce (settled : Settled generation target sent m) :
    Settled generation target sent m.announce.1 := by
  cases stored : m.unannounced with
  | none =>
    rw [Master.announce, stored]
    exact settled
  | some e =>
    intro s' held here
    obtain ⟨s, before, rfl⟩ := announce_sessions stored s' held
    split at here
    · rw [if_pos ‹_›]
      exact settled s before here
    · rw [if_neg ‹_›]
      exact settled s before here

theorem Settled.store (settled : Settled generation target sent m) (payload : Bytes)
    (metadata : Option Bytes) :
    Settled generation target sent (m.store payload metadata).1 := by
  intro s held
  rw [(store_same m payload metadata).2.1] at held
  exact settled s held

/-- What is owed does not change with what the log takes or forgets: it only gets written. -/
theorem Settled.move (settled : Settled generation target sent m) (names : m.Numbered)
    (belongs : m.Belongs generation id) (a : Move) :
    Settled generation target (sent ++ (m.frame? generation a).toList) (m.move a) := by
  have silent (quiet : m.frame? generation a = none)
      (same : Settled generation target sent (m.move a)) :
      Settled generation target (sent ++ (m.frame? generation a).toList) (m.move a) := by
    rw [quiet, Option.toList_none, List.append_nil]
    exact same
  by_cases late : a = .announce
  · subst late
    exact silent rfl settled.announce
  by_cases write : ∃ payload metadata, a = .append payload metadata
  · obtain ⟨payload, metadata, rfl⟩ := write
    have stored := settled.store payload metadata
    apply silent rfl
    rcases move_append m payload metadata with ⟨-, same⟩ | same | same
    · rw [same]
      exact settled
    · rw [same]
      exact stored
    · rw [same]
      exact stored.announce
  · have whole : ∀ payload metadata, a ≠ .append payload metadata :=
      fun payload metadata same => write ⟨payload, metadata, same⟩
    rcases move_cases names belongs whole late with ⟨leaves, quiet⟩ |
      ⟨rfl, s, held, here, s', begun, goes, becomes⟩
    · exact silent quiet (settled.leaves leaves)
    · exact settled.goes held here goes becomes

theorem Settled.play [LawfulLog L] [PurgeableLog L] (settled : Settled generation target sent m)
    (conveys : Conveys first generation resume id history sent m) (moves : List Move)
    (admitted : ∀ e ∈ m.taken moves, LawfulLog.Admits L e) :
    Settled generation target (sent ++ m.frames generation moves) (m.play moves) := by
  induction moves generalizing m history sent with
  | nil => simpa [Master.play, frames] using settled
  | cons a later ih =>
    rw [frames, ← List.append_assoc]
    refine ih (settled.move conveys.names conveys.belongs a) (conveys.move a fun e took => ?_)
      fun e took => admitted e (List.mem_append_right _ took)
    refine admitted e ?_
    rw [taken, took]
    exact List.mem_append_left _ List.mem_cons_self

/-! ### The turn -/

/-- The step with which a link becomes streaming reads the end of the log and writes nothing. From
then on the session owes what was read. -/
theorem settled_of_turn [LawfulLog L]
    (conveys : Conveys first generation resume id history sent m)
    (unfed : ¬m.Fed generation) (fed : (m.advance generation).1.Fed generation) :
    ∃ tail, LocalLog.readTail m.log (resume + sent.length + 1) = .ok tail ∧
      m.frame? generation (.advance generation) = none ∧
      Settled generation (sent ++ tail) sent (m.advance generation).1 := by
  cases found : m.session? generation with
  | none =>
    rw [advance, found] at fed
    exact absurd fed unfed
  | some s =>
  obtain ⟨held, here⟩ := session_of_find found
  rw [frame?, if_pos rfl]
  rcases advance_yields conveys.names conveys.belongs found with ⟨leaves, -⟩ |
    ⟨s', begun, goes, becomes⟩
  · exact absurd ((leaves.fed_iff conveys.names conveys.belongs fed.connected).mp fed) unfed
  cases begun with
  | false =>
    refine absurd ((fed_iff conveys.names conveys.belongs ?_ fed.connected).mp fed) unfed
    simpa using becomes.links
  | true =>
    generalize (m.advance generation).2.bind Message.entry? = frame at goes ⊢
    cases goes with
    | @begins tail stage idle read =>
      have next : s.next = resume + sent.length + 1 := by
        have due := (conveys.sessions s held here).1
        omega
      refine ⟨tail, next ▸ read, rfl, fun t present newest => ?_⟩
      rw [becomes.session t present newest]
      refine ⟨sendingStage_late tail, fun rest owed => ?_⟩
      rw [sendingStage_owed] at owed
      rw [Option.some.inj owed]

/-- A replica is told that it caught up by a session that owes nothing, and it is told the offset of
the last entry that was written. -/
theorem completing_of_told (told : (m.advance generation).2 = some (.catchUpComplete offset)) :
    ∃ s ∈ m.sessions, s.generation = generation ∧ s.stage = .completing ∧ offset = s.next - 1 := by
  cases found : m.session? generation with
  | none =>
    rw [advance, found] at told
    cases told
  | some s =>
  obtain ⟨held, here⟩ := session_of_find found
  unfold advance at told
  rw [found] at told
  dsimp only at told
  split at told
  · split at told
    · cases told
    · rename_i ran
      cases (write_of_ok ran).2
      cases told
  · cases told
  · cases (sendNext_writes told).1
  · cases told
  · cases told
  · rename_i stage
    cases told
    exact ⟨s, held, here, stage, rfl⟩
  · unfold takeFresh at told
    split at told
    · cases (sendNext_writes told).1
    · split at told <;> cases told
  · cases told

/-! ### The end of the log -/

section Tail

variable [LawfulLog L]

/-- A log that retains anything retains its last entry. -/
theorem highest_retained (sound : LawfulLog.Sound m.log) (some : LawfulLog.entries m.log ≠ []) :
    ∃ e ∈ LawfulLog.entries m.log, e.offset = m.offset := by
  have span := LawfulLog.entries_span sound
  have positive := List.length_pos_iff.mpr some
  have last : LocalLog.highest m.log ∈ (LawfulLog.entries m.log).map Entry.offset := by
    rw [LawfulLog.entries_numbered sound, List.mem_range'_1]
    omega
  exact List.mem_map.mp last

/-- The end of the log that is read is what the log retains there. -/
theorem mem_readTail (sound : LawfulLog.Sound m.log) {before : Nat}
    (read : LocalLog.readTail m.log (before + 1) = .ok tail) {e : Entry} :
    e ∈ tail ↔ e ∈ LawfulLog.entries m.log ∧ before < e.offset := by
  have few : ((LawfulLog.entries m.log).filter (before + 1 ≤ ·.offset)).length ≤
      LocalLog.highest m.log := by
    have span := LawfulLog.entries_span sound
    rw [LawfulLog.filter_numbered _ _ _ (LawfulLog.entries_numbered sound), List.length_drop]
    omega
  rw [LawfulLog.read_gives sound read, List.take_of_length_le few, List.mem_filter,
    decide_eq_true_eq, Nat.succ_le_iff]

theorem Ledger.offset_le (ledger : m.Ledger first history) {e : Entry} (held : e ∈ history) :
    e.offset ≤ m.offset := by
  have span := ledger.span
  have number := List.mem_map_of_mem (f := Entry.offset) held
  rw [ledger.offsets, List.mem_range'_1] at number
  omega

end Tail

end Master

namespace Passage

variable {L : Type} [LocalLog L] [LawfulLog L]

/-! ### What a replica is told -/

/-- The master after the next step of the connection. -/
def turned (p : Passage L) : Master L := (p.now.advance p.generation).1

/-- The entries that were written on the connection when that step and some more moves were made. -/
def carried (p : Passage L) (since : List Move) : List Entry :=
  p.frames ++ p.turned.frames p.generation since

/-- The next step of the connection makes its link streaming, and after some more moves the replica
is told that it has caught up at an offset. -/
structure Ends (p : Passage L) (since : List Move) (offset : Nat) : Prop where
  unfed : ¬p.now.Fed p.generation
  fed : p.turned.Fed p.generation
  admitted : ∀ e ∈ p.turned.taken since, LawfulLog.Admits L e
  told : ((p.turned.play since).advance p.generation).2 = some (.catchUpComplete offset)

/-- The log retains nothing any more, and forgot entries that the replica did not get. -/
structure Emptied (p : Passage L) : Prop where
  nothing : LawfulLog.entries p.now.log = []
  missing : p.resume + p.frames.length < p.now.offset

/-- What it means that the replica is told that it has caught up at an offset. -/
structure CaughtUp (p : Passage L) (since : List Move) (offset : Nat) : Prop where
  /-- The entries that the connection is for are all from its offset up to the end of the log. -/
  due : p.due.map Entry.offset = List.range' (p.resume + 1) (p.now.offset - p.resume)
  /-- The replica was sent the first of them, the last one at the offset that it is told. -/
  carried : p.carried since <+: p.due
  last : offset = p.resume + (p.carried since).length
  /-- It was sent all of them, and is told the end of the log, unless the log was emptied. -/
  whole : ¬p.Emptied → p.carried since = p.due ∧ offset = p.now.offset
  /-- If it was, the replica was sent nothing more, and some of them are missing. -/
  short : p.Emptied → p.carried since = p.frames ∧ offset < p.now.offset
  /-- The log was not emptied if it retains what is still missing, as it does if nothing was
  forgotten since the replica was accepted. -/
  retained : LocalLog.oldest p.now.log ≤ p.resume + p.frames.length + 1 → ¬p.Emptied
  kept : (∀ a ∈ p.later, a.isPurge = false) → ¬p.Emptied

theorem not_emptied [PurgeableLog L] (p : Passage L)
    (retained : LocalLog.oldest p.now.log ≤ p.resume + p.frames.length + 1) : ¬p.Emptied := by
  rintro ⟨nothing, missing⟩
  have span := LawfulLog.entries_span p.conveys.sound
  rw [nothing, List.length_nil] at span
  rw [Master.offset] at missing
  omega

/-- The connection goes on carrying what is on record for it. -/
theorem conveys_since [PurgeableLog L] (p : Passage L) {since : List Move} {offset : Nat}
    (ends : p.Ends since offset) :
    Master.Conveys (LocalLog.oldest p.log) p.generation p.resume p.hello.replicaId
        p.history p.frames p.turned ∧
      Master.Conveys (LocalLog.oldest p.log) p.generation p.resume p.hello.replicaId
        (p.history ++ p.turned.taken since) (p.carried since) (p.turned.play since) := by
  have turned := p.conveys.move (.advance p.generation) fun e took => by cases took
  obtain ⟨-, -, quiet, -⟩ := Master.settled_of_turn p.conveys ends.unfed ends.fed
  rw [quiet] at turned
  simp only [Master.taken?, Option.toList_none, List.append_nil] at turned
  exact ⟨turned, turned.play since ends.admitted⟩

/-- When the replica is told that it has caught up, it was sent what the log retained behind the
entries that were written when its link became streaming. -/
theorem carried_of_ends [PurgeableLog L] (p : Passage L) {since : List Move} {offset : Nat}
    (ends : p.Ends since offset) : ∃ tail, p.carried since = p.frames ++ tail ∧
      (∀ e, e ∈ tail ↔ e ∈ LawfulLog.entries p.now.log ∧ p.resume + p.frames.length < e.offset) ∧
      offset = p.resume + (p.carried since).length := by
  obtain ⟨tail, read, -, settled⟩ := Master.settled_of_turn p.conveys ends.unfed ends.fed
  obtain ⟨turned, now⟩ := p.conveys_since ends
  obtain ⟨s, held, here, stage, told⟩ := Master.completing_of_told ends.told
  refine ⟨tail, ?_, fun e => Master.mem_readTail p.conveys.sound read, ?_⟩
  · have owed := (settled.play turned since ends.admitted s held here).2 [] (by rw [stage]; rfl)
    rwa [List.append_nil] at owed
  · have next := (now.sessions s held here).1
    omega

/-- A replica that is told that it has caught up got everything up to the end of the log at the moment
when its link became streaming, whatever was written and purged meanwhile, or the log had forgotten
everything at that moment. -/
theorem caught_up [PurgeableLog L] (p : Passage L) {since : List Move} {offset : Nat}
    (ends : p.Ends since offset) : p.CaughtUp since offset := by
  have conveys := p.conveys
  have now := (p.conveys_since ends).2
  obtain ⟨tail, written, rest, last⟩ := p.carried_of_ends ends
  have due := conveys.due_offsets
  have count : p.due.length = p.now.offset - p.resume := by
    have lengths := congrArg List.length due
    rwa [List.length_map, List.length_range'] at lengths
  have places := offsets_of_begins now.offsets now.start now.begins
  have old : ∀ e ∈ p.carried since, e.offset ≤ p.now.offset := by
    intro e member
    apply conveys.offset_le
    rw [written] at member
    rcases List.mem_append.mp member with before | read
    · exact List.mem_of_mem_filter (conveys.begins.mem before)
    · exact conveys.retained.mem ((rest e).mp read).1
  have within : p.resume + (p.carried since).length ≤ p.now.offset := by
    by_contra beyond
    have final : p.resume + (p.carried since).length ∈ (p.carried since).map Entry.offset := by
      have reached := conveys.reached
      rw [places, List.mem_range'_1]
      omega
    obtain ⟨e, member, number⟩ := List.mem_map.mp final
    have := old e member
    omega
  have begins : p.carried since <+: p.due := by
    have due_begins : p.due <+: behind p.resume (p.history ++ p.turned.taken since) := by
      rw [behind, List.filter_append]
      exact List.prefix_append _ _
    apply List.prefix_of_prefix_length_le now.begins due_begins
    omega
  refine ⟨due, begins, last, fun kept => ?_, ?_, p.not_emptied, fun keeps => ?_⟩
  · have full : p.now.offset ≤ p.resume + (p.carried since).length := by
      by_cases nothing : LawfulLog.entries p.now.log = []
      · have reached : ¬p.resume + p.frames.length < p.now.offset :=
          fun missing => kept ⟨nothing, missing⟩
        rw [written, List.length_append]
        omega
      · obtain ⟨e, held, number⟩ := Master.highest_retained conveys.sound nothing
        by_cases behind : p.resume + p.frames.length < e.offset
        · have member : e ∈ p.carried since := by
            rw [written]
            exact List.mem_append_right _ ((rest e).mpr ⟨held, behind⟩)
          have number' := List.mem_map_of_mem (f := Entry.offset) member
          rw [places, List.mem_range'_1] at number'
          omega
        · rw [written, List.length_append]
          omega
    exact ⟨begins.eq_of_length (by omega), by omega⟩
  · rintro ⟨nothing, missing⟩
    have none : tail = [] := by
      refine List.eq_nil_iff_forall_not_mem.mpr fun e member => ?_
      have held := ((rest e).mp member).1
      rw [nothing] at held
      cases held
    rw [last, written, none, List.append_nil]
    exact ⟨rfl, missing⟩
  · have retained := (p.covers keeps).retained
    exact p.not_emptied (by omega)

/-- The replica of a master that reads single entries has got the second and the third one, the first
two are forgotten, and a fourth one was written since the log was read for the last time. -/
def refilled : Passage VolatileLog :=
  paged [.advance 1, .advance 1, .advance 1, .advance 1, .purge 3, .advance 1, .advance 1,
    .append [100] none]

/-- While the rest is written, a fifth entry comes; it is handed over. -/
theorem caught_up_refilled :
    refilled.Ends [.append [101] none, .advance 1] 4 ∧
    refilled.CaughtUp [.append [101] none, .advance 1] 4 ∧
    refilled.carried [.append [101] none, .advance 1] =
      [⟨2, [98], none⟩, ⟨3, [99], none⟩, ⟨4, [100], none⟩] := by
  have ends : refilled.Ends [.append [101] none, .advance 1] 4 := by
    refine ⟨?_, ?_, fun _ _ => trivial, by decide +kernel⟩
    · unfold Master.Fed
      decide +kernel
    · unfold Master.Fed
      decide +kernel
  exact ⟨ends, caught_up refilled ends, by decide +kernel⟩

/-- The log is emptied after the replica was accepted and before anything is read for it. -/
def emptied : Passage VolatileLog := paged [.advance 1, .purge 4, .advance 1]

/-- A replica that holds the first of three entries is told that it has caught up at offset 1, and was
sent nothing: an empty page and an empty tail do not tell that the log has forgotten the rest. -/
theorem caught_up_with_nothing :
    emptied.Ends [] 1 ∧ emptied.Emptied ∧ emptied.carried [] = [] ∧
    emptied.due = [⟨2, [98], none⟩, ⟨3, [99], none⟩] ∧ emptied.now.offset = 3 := by
  refine ⟨⟨?_, ?_, fun _ _ => trivial, by decide +kernel⟩, ⟨by decide +kernel, by decide +kernel⟩,
    by decide +kernel, by decide +kernel, by decide +kernel⟩
  · unfold Master.Fed
    decide +kernel
  · unfold Master.Fed
    decide +kernel

end Passage

end QuorumLog
