import QuorumLog.Master.Basic
import QuorumLog.Proofs.TidySegments

/-! Appends that fail. The medium may refuse to make the next segment, take any part of a record, or not
confirm what it took: the log answers with the error, reads as before, and the next append that succeeds
comes to what it would have come to without the failure. So the log keeps telling, also when it is opened
again, exactly what was stored. A master reports the failure to the writer and does nothing else. -/

namespace QuorumLog

/-! ### Calls on a medium that may fail -/

/-- A call, and what the medium does during it. -/
structure Trial where
  call : Call
  medium : Medium := .sound

namespace Trial

def perform (t : Trial) (log : SegmentLog) : SegmentLog × Answer :=
  match t.call with
  | .append payload metadata =>
    let (after, result) := log.append t.medium payload metadata
    (after, .appended result)
  | .appendEntry e =>
    let (after, result) := log.appendEntry t.medium e
    (after, .taken result)
  | .purge offset =>
    let (after, result) := log.purge t.medium offset
    (after, .purged result)
  | call => call.perform SegmentLog.reopen log

/-- Trials one after the other. -/
def performAll : List Trial → SegmentLog → SegmentLog × List Answer
  | [], log => (log, [])
  | t :: later, log =>
    let (log, answer) := t.perform log
    let (log, answers) := performAll later log
    (log, answer :: answers)

/-- All entries that trials stored, by the answers to them. -/
def history (trials : List Trial) (answers : List Answer) : List Entry :=
  Call.history (trials.map call) answers

/-- The medium deletes every file that is to be deleted. -/
def Deletes (t : Trial) : Prop := ∀ base, t.medium.delete base = none

end Trial

namespace SegmentLog

variable {d : Directory} {parts : List Part} {log next after fresh : SegmentLog} {medium : Medium}
variable {e : Entry} {history : List Entry} {trials : List Trial} {answer : Answer}
variable {answers : List Answer} {settings : StoreSettings}

/-! ### One failure -/

/-- What a failed append leaves. -/
structure Unharmed (log after : SegmentLog) : Prop where
  highest : LocalLog.highest after = LocalLog.highest log
  oldest : LocalLog.oldest after = LocalLog.oldest log
  reads : ∀ start limit, LocalLog.read after start limit = LocalLog.read log start limit
  /-- The next append that succeeds, on whatever medium, gives the same offset and leaves the same log as
  if nothing had failed, and the entry can be read. -/
  append : ∀ medium payload metadata, after.failure medium = none → ∃ later,
    after.append medium payload metadata = (later, .ok (LocalLog.highest log + 1)) ∧
    LocalLog.append log payload metadata = (later, .ok (LocalLog.highest log + 1)) ∧
    ((Record.body ⟨0, payload, metadata⟩).length < UInt32.size →
      LocalLog.read later (LocalLog.highest log + 1) 1 =
        .ok [⟨LocalLog.highest log + 1, payload, metadata⟩])
  appendEntry : ∀ medium e, after.failure medium = none → e.offset = LocalLog.highest log + 1 →
    ∃ later, after.appendEntry medium e = (later, .ok ()) ∧
    LocalLog.appendEntry log e = (later, .ok ()) ∧
    ((Record.body e).length < UInt32.size → LocalLog.read later e.offset 1 = .ok [e])

/-- Whenever the medium fails at what an append has to do, the append says so and does no harm. -/
structure Withstands (log : SegmentLog) : Prop where
  append : ∀ medium number payload metadata, log.failure medium = some number → ∃ after,
    log.append medium payload metadata = (after, .error (.io (.system number))) ∧ log.Unharmed after
  appendEntry : ∀ medium number e, log.failure medium = some number →
    e.offset = LocalLog.highest log + 1 → ∃ after,
      log.appendEntry medium e = (after, .error (.io (.system number))) ∧ log.Unharmed after

theorem ready_of_not_needed (done : log.needsSegment = false) : log.ready = log :=
  if_neg (by rw [done]; exact Bool.false_ne_true)

/-- What a failed store leaves has the same entries, and is as ready for the next one. -/
theorem Backed.left (backed : log.Backed parts) (room : log.highest + 1 < UInt64.size)
    (left : after = log ∨ after = log.ready) : ∃ parts', after.Backed parts' ∧
      parts'.flatMap (·.2) = parts.flatMap (·.2) ∧ after.highest = log.highest ∧
      after.ready = log.ready := by
  rcases left with rfl | rfl
  · exact ⟨parts, backed, rfl, rfl, rfl⟩
  · obtain ⟨init, s, es, backed', same, done⟩ := backed.ready room
    exact ⟨_, backed', same, highest_ready, ready_of_not_needed done⟩

/-- The entry that was stored last is read at its offset. -/
theorem Backed.read_last (backed : next.Backed parts) (es : List Entry)
    (entries : parts.flatMap (·.2) = es ++ [e]) (ends : next.highest = e.offset) :
    LocalLog.read next e.offset 1 = .ok [e] := by
  obtain ⟨numbered, span⟩ := backed.retained
  rw [entries] at numbered span
  have before : es.filter (e.offset ≤ ·.offset) = [] := by
    refine List.filter_eq_nil_iff.mpr fun x held => ?_
    rw [List.map_append, List.length_append, ← List.range'_append_1] at numbered
    have within := List.mem_map_of_mem (f := Entry.offset) held
    rw [(List.append_inj numbered (by simp)).1, List.mem_range'_1] at within
    rw [List.length_append, List.length_singleton] at span
    simp only [decide_eq_true_eq]
    omega
  rw [backed.read, entries, List.filter_append, before, List.nil_append]
  simp

theorem appendEntry_of_next (comes : e.offset = log.highest + 1) (medium : Medium) :
    log.appendEntry medium e = log.store medium e := if_neg (not_not_intro comes)

theorem failure_sound (log : SegmentLog) : log.failure .sound = none := by
  simp [failure, writeFailure, Medium.sound]

/-- Behind a failed store, a store on a medium that does not fail is what it would have been on a sound
medium without the failure. -/
theorem Backed.store_next (backed : log.Backed parts) (room : log.highest + 1 < UInt64.size)
    (left : after = log ∨ after = log.ready) (comes : e.offset = log.highest + 1)
    (works : after.failure medium = none) : ∃ later, after.store medium e = (later, .ok ()) ∧
      log.store .sound e = (later, .ok ()) ∧
      ((Record.body e).length < UInt32.size → LocalLog.read later e.offset 1 = .ok [e]) := by
  obtain ⟨parts', backed', -, ends, ready⟩ := backed.left room left
  have stored := backed'.store (ends ▸ room) (ends ▸ comes) medium
  have stored' := backed.store room comes .sound
  rw [works, ready] at stored
  rw [failure_sound] at stored'
  obtain ⟨init, s, es, front, -, same⟩ := stored
  obtain ⟨init', s', es', front', -, same'⟩ := stored'
  obtain rfl : s = s' := by
    have segments := front.segments.symm.trans front'.segments
    rw [List.map_append, List.map_append] at segments
    simpa using (List.append_inj' segments rfl).2
  refine ⟨_, same, same', fun short => ?_⟩
  have comes' : e.offset = log.ready.highest + 1 := by rw [highest_ready, comes]
  have extended := front.extend comes' ⟨comes ▸ room, short⟩
  refine extended.read_last (init.flatMap (·.2) ++ es) ?_ rfl
  simp

theorem Backed.unharmed (backed : log.Backed parts) (room : log.highest + 1 < UInt64.size)
    (left : after = log ∨ after = log.ready) : log.Unharmed after := by
  obtain ⟨parts', backed', same, ends, -⟩ := backed.left room left
  refine ⟨ends, ?_, fun start limit => ?_, fun medium payload metadata works => ?_,
    fun medium e works comes => ?_⟩
  · obtain ⟨-, span⟩ := backed.retained
    obtain ⟨-, span'⟩ := backed'.retained
    rw [same, ends] at span'
    show after.oldest = log.oldest
    omega
  · rw [backed'.read, backed.read, same]
  · obtain ⟨later, stored, stored', readable⟩ := backed.store_next room left
      (e := ⟨log.highest + 1, payload, metadata⟩) rfl works
    refine ⟨later, ?_, ?_, readable⟩
    · rw [SegmentLog.append, ends, stored]
      rfl
    · show log.append .sound payload metadata = _
      rw [SegmentLog.append, stored']
      rfl
  · obtain ⟨later, stored, stored', readable⟩ := backed.store_next room left comes works
    refine ⟨later, ?_, ?_, readable⟩
    · have comes' : e.offset = after.highest + 1 := by rw [ends]; exact comes
      exact (appendEntry_of_next comes' medium).trans stored
    · exact (appendEntry_of_next comes .sound).trans stored'

theorem Backed.withstands (backed : log.Backed parts) (room : log.highest + 1 < UInt64.size) :
    log.Withstands := by
  have fails {e : Entry} {medium : Medium} {number : Nat} (comes : e.offset = log.highest + 1)
      (failed : log.failure medium = some number) : ∃ after,
        log.store medium e = (after, .error (.io (.system number))) ∧ log.Unharmed after := by
    have stored := backed.store room comes medium
    rw [failed] at stored
    obtain ⟨after, same, left⟩ := stored
    exact ⟨after, same, backed.unharmed room left⟩
  refine ⟨fun medium number payload metadata failed => ?_, fun medium number e failed comes => ?_⟩
  · obtain ⟨after, stored, unharmed⟩ := fails (e := ⟨log.highest + 1, payload, metadata⟩) rfl failed
    refine ⟨after, ?_, unharmed⟩
    rw [SegmentLog.append, stored]
    rfl
  · obtain ⟨after, stored, unharmed⟩ := fails comes failed
    exact ⟨after, (appendEntry_of_next comes medium).trans stored, unharmed⟩

/-! ### Runs with failures -/

/-- What one trial keeps, and what it adds. If every file can be deleted, the log stays one that knows
all files, and its entries go on as before but for old ones that are purged. -/
structure Advances (log next : SegmentLog) (added : List Entry) (deletes : Prop) : Prop where
  backed : ∃ parts, next.Backed parts
  highest : next.highest = log.highest + added.length
  tidy : deletes → log.Tidy → next.Tidy ∧ next.entries <:+ log.entries ++ added

theorem Advances.refl (backed : log.Backed parts) (deletes : Prop) : log.Advances log [] deletes :=
  ⟨⟨parts, backed⟩, rfl, fun _ tidy => ⟨tidy, by simp⟩⟩

/-- A store adds the entry or nothing. -/
theorem Backed.stores {result : Except Fault Unit} (backed : log.Backed parts)
    (room : log.highest + 1 < UInt64.size) (comes : e.offset = log.highest + 1)
    (short : (Record.body e).length < UInt32.size) (ran : log.store medium e = (next, result))
    (deletes : Prop) : (∃ fault, result = .error fault ∧ log.Advances next [] deletes) ∨
      (result = .ok () ∧ log.Advances next [e] deletes) := by
  rcases backed.stored room comes ran with
    ⟨fault, failed, left⟩ | ⟨done, ends, init, s, es, last, rfl, entries, extended⟩
  · obtain ⟨parts', backed', entries, ends, -⟩ := backed.left room left
    refine .inl ⟨fault, failed, ⟨parts', backed'⟩, ends, fun _ tidy => ⟨?_, ?_⟩⟩
    · rcases left with rfl | rfl
      · exact tidy
      · exact tidy.ready room
    · refine ⟨[], ?_⟩
      rw [backed'.entries, backed.entries, entries, List.nil_append, List.append_nil]
  · have backed' := extended ⟨comes ▸ room, short⟩
    refine .inr ⟨done, ⟨_, backed'⟩, ends.trans comes, fun _ tidy => ⟨?_, ?_⟩⟩
    · exact (tidy.ready room).extended last e
    · rw [backed'.entries, backed.entries, ← entries]
      simp

theorem Backed.purges {result : Except Fault Nat} (backed : log.Backed parts) {offset : Nat}
    (ran : log.purge medium offset = (next, result)) :
    log.Advances next [] (∀ base, medium.delete base = none) := by
  obtain ⟨gone, kept, rfl, more, expired, -⟩ := backed.expired offset
  cases found : gone.find? fun p => (medium.delete p.1.base).isSome with
  | none =>
    have deletes : ∀ p ∈ gone, medium.delete p.1.base = none := by
      simpa using List.find?_eq_none.mp found
    obtain ⟨rfl, -⟩ := Prod.mk.inj (ran.symm.trans (backed.purge more expired deletes))
    have backed' := backed.without more
    refine ⟨⟨kept, backed'⟩, rfl, fun _ tidy => ⟨tidy.without backed more, ?_⟩⟩
    rw [backed'.entries, backed.entries, List.append_nil, List.flatMap_append]
    exact List.suffix_append _ _
  | some stuck =>
    obtain ⟨refused, front, back, rfl, free⟩ := List.find?_eq_some_iff_append.mp found
    obtain ⟨number, refusal⟩ := Option.isSome_iff_exists.mp refused
    have deletes : ∀ p ∈ front, medium.delete p.1.base = none := by simpa using free
    have some : back ++ kept ≠ [] := by simp [more (by simp)]
    rw [List.append_assoc] at backed
    obtain ⟨rfl, -⟩ :=
      Prod.mk.inj (ran.symm.trans (backed.purge_stuck some expired deletes refusal))
    refine ⟨⟨_, backed.without_stuck some⟩, rfl, fun all => ?_⟩
    rw [all] at refusal
    cases refusal

theorem Advances.trans {added more : List Entry} {first second : Prop}
    (one : log.Advances next added first) (other : next.Advances after more second) :
    log.Advances after (added ++ more) (first ∧ second) where
  backed := other.backed
  highest := by rw [other.highest, one.highest, List.length_append, Nat.add_assoc]
  tidy := by
    rintro ⟨deletes, deletes'⟩ tidy
    obtain ⟨tidy', front, before⟩ := one.tidy deletes tidy
    obtain ⟨tidy'', behind⟩ := other.tidy deletes' tidy'
    refine ⟨tidy'', behind.trans ⟨front, ?_⟩⟩
    rw [← List.append_assoc, before, List.append_assoc]

theorem Backed.reopened (backed : log.Backed parts) {segmentSize : Nat} (sized : 1 ≤ segmentSize)
    (ran : log.reopen segmentSize = .ok next) (deletes : Prop) : log.Advances next [] deletes := by
  obtain ⟨parts', backed', ends⟩ := backed.reopen ran
  refine ⟨⟨parts', backed'⟩, ends, fun _ tidy => ?_⟩
  obtain rfl := Except.ok.inj (ran.symm.trans (backed.reopens tidy (Nat.ne_of_gt sized)))
  refine ⟨tidy.resettle _, [], ?_⟩
  rw [(backed.resettle _).entries, backed.entries, List.nil_append, List.append_nil]

/-- One trial adds the entry that it stores by its answer, and nothing if it fails. -/
theorem Backed.perform {t : Trial} (backed : log.Backed parts) (modest : t.call.Modest)
    (room : log.highest + 1 < UInt64.size) (ran : t.perform log = (next, answer)) :
    log.Advances next (t.call.stored? answer).toList t.Deletes := by
  obtain ⟨call, medium⟩ := t
  cases call with
  | append payload metadata =>
    cases stored : log.store medium ⟨log.highest + 1, payload, metadata⟩ with
    | mk after result =>
    simp only [Trial.perform, SegmentLog.append, stored] at ran
    obtain ⟨rfl, rfl⟩ := Prod.mk.inj ran
    rcases backed.stores (e := ⟨log.highest + 1, payload, metadata⟩) room rfl modest stored
      (Trial.Deletes ⟨.append payload metadata, medium⟩) with ⟨fault, rfl, kept⟩ | ⟨rfl, added⟩
    · exact kept
    · exact added
  | appendEntry e =>
    by_cases comes : e.offset = log.highest + 1
    · cases stored : log.store medium e with
      | mk after result =>
      simp only [Trial.perform, appendEntry_of_next comes, stored] at ran
      obtain ⟨rfl, rfl⟩ := Prod.mk.inj ran
      rcases backed.stores room comes modest stored (Trial.Deletes ⟨.appendEntry e, medium⟩)
        with ⟨fault, rfl, kept⟩ | ⟨rfl, added⟩
      · exact kept
      · exact added
    · have refused : log.appendEntry medium e =
          (log, .error (.log (.notContiguous (log.highest + 1) e.offset))) := if_pos comes
      simp only [Trial.perform, refused] at ran
      obtain ⟨rfl, rfl⟩ := Prod.mk.inj ran
      exact .refl backed _
  | purge offset =>
    obtain ⟨rfl, rfl⟩ := Prod.mk.inj ran
    exact backed.purges rfl
  | reopen segmentSize =>
    cases opened : log.reopen segmentSize with
    | error fault =>
      simp only [Trial.perform, Call.perform, opened] at ran
      obtain ⟨rfl, rfl⟩ := Prod.mk.inj ran
      exact .refl backed _
    | ok after =>
      simp only [Trial.perform, Call.perform, opened] at ran
      obtain ⟨rfl, rfl⟩ := Prod.mk.inj ran
      exact backed.reopened modest opened _
  | read start limit => cases ran; exact .refl backed _
  | highest => cases ran; exact .refl backed _
  | oldest => cases ran; exact .refl backed _

/-- Trials add what they store by their answers. -/
theorem Backed.performAll (backed : log.Backed parts) (modest : ∀ t ∈ trials, t.call.Modest)
    (ran : Trial.performAll trials log = (next, answers))
    (room : log.highest + (Trial.history trials answers).length + 1 < UInt64.size) :
    log.Advances next (Trial.history trials answers) (∀ t ∈ trials, t.Deletes) := by
  induction trials generalizing log parts answers with
  | nil =>
    obtain ⟨rfl, rfl⟩ := Prod.mk.inj ran
    exact .refl backed _
  | cons t later ih =>
    obtain ⟨now, rest⟩ := List.forall_mem_cons.mp modest
    cases first : t.perform log with
    | mk middle answer =>
    cases others : Trial.performAll later middle with
    | mk last further =>
    simp only [Trial.performAll, first, others] at ran
    obtain ⟨rfl, rfl⟩ := Prod.mk.inj ran
    rw [Trial.history, List.map_cons, Call.history_cons] at room ⊢
    rw [List.length_append, ← Nat.add_assoc] at room
    have step := backed.perform now (by omega) first
    obtain ⟨parts', backed'⟩ := step.backed
    have run := ih backed' rest others (by rw [step.highest]; exact room)
    rw [List.forall_mem_cons]
    exact step.trans run

/-- What a log tells after a run: what it had at first, and what was stored since. -/
structure Continues (fresh : SegmentLog) (history : List Entry) (log : SegmentLog) : Prop where
  highest : LocalLog.highest log = LocalLog.highest fresh + history.length
  /-- Nothing is retained that was not stored, and nothing is missing at the end. -/
  entries : log.entries <:+ fresh.entries ++ history
  numbered : log.entries.map Entry.offset =
    List.range' (LocalLog.oldest log) log.entries.length
  span : LocalLog.oldest log + log.entries.length = LocalLog.highest log + 1
  reads : ∀ start limit, LocalLog.read log start limit =
    .ok ((log.entries.filter (start ≤ ·.offset)).take limit)
  /-- Opening the log again shows the same. -/
  reopens : ∀ later : StoreSettings, 1 ≤ later.segmentSize →
    ∃ again, recover later log.directory = .ok again ∧ Settled log again

theorem Advances.continues {deletes : Prop} (run : fresh.Advances log history deletes)
    (all : deletes) (tidy : fresh.Tidy) : Continues fresh history log := by
  obtain ⟨parts, backed⟩ := run.backed
  obtain ⟨tidy', retains⟩ := run.tidy all tidy
  have entries := backed.entries
  refine ⟨run.highest, retains, ?_, ?_, fun start limit => ?_, fun later sized => ?_⟩
  · rw [entries]
    exact backed.retained.1
  · rw [entries]
    exact backed.retained.2
  · rw [entries]
    exact backed.read start limit
  · refine ⟨_, backed.reopens tidy' (Nat.ne_of_gt sized), rfl, rfl, rfl, rfl, fun start limit => ?_⟩
    exact ((backed.resettle later).read start limit).trans (backed.read start limit).symm

/-- A log that was opened from any files withstands failures, whatever was called before and whatever
failed. If every file could be deleted, it tells what was stored by the answers. -/
theorem withstands_runs (regular : Regular d) (opened : recover settings d = .ok fresh)
    (modest : ∀ t ∈ trials, t.call.Modest)
    (ran : Trial.performAll trials fresh = (log, answers))
    (room : LocalLog.highest fresh + (Trial.history trials answers).length + 1 < UInt64.size) :
    log.Withstands ∧ (WellNamed d → (∀ t ∈ trials, t.Deletes) →
      Continues fresh (Trial.history trials answers) log) := by
  obtain ⟨parts, backed, -⟩ := backed_of_recover regular opened
  have run := backed.performAll modest ran room
  obtain ⟨parts', backed'⟩ := run.backed
  refine ⟨backed'.withstands (by rw [run.highest]; exact room), fun named deletes => ?_⟩
  exact run.continues deletes (tidy_of_recover regular named opened)

end SegmentLog

/-! ### The master -/

namespace Master

variable {L : Type} {m : Master L} {payload : Bytes} {metadata : Option Bytes}

/-- What a master makes of a write that its log did not take. -/
structure Declined (m after : Master L) (log : L) (fault : Fault) (write : Nat) : Prop where
  /-- Pending writes, credits, links and what was handed to them are as they were. -/
  same : after = { m with
    log
    quorum := { m.quorum with board := after.quorum.board }
    tally := { m.tally with appendFailures := m.tally.appendFailures + 1 } }
  /-- The write is a new one, has no offset, and has failed. -/
  new : write = m.quorum.board.size
  failed : after.quorum.board.cells[write]? =
    some (.closed none (.failed ("local append failed: " ++ fault.message)))
  /-- No other write hears of it. -/
  others : ∀ other < write, after.quorum.board.cells[other]? = m.quorum.board.cells[other]?

theorem declined_of_failed [LocalLog L] {log : L} {fault : Fault} (running : m.stopped = false)
    (free : m.unannounced = none)
    (failed : LocalLog.append m.log payload metadata = (log, .error fault)) :
    ∃ after write, m.append payload metadata = (after, some write) ∧
      Declined m after log fault write := by
  refine ⟨{ m with
    log
    quorum := (m.quorum.refuse ("local append failed: " ++ fault.message)).1
    tally := { m.tally with appendFailures := m.tally.appendFailures + 1 } },
    m.quorum.board.size, ?_, rfl, rfl, ?_, fun other below => ?_⟩
  · simp [append, store, running, free, failed, refuse, Quorum.refuse]
  · exact List.getElem?_concat_length
  · exact List.getElem?_append_left below

end Master

/-! ### The rule -/

/-- A failed append leaves a stored log as it was to everyone who reads it, appends to it or opens it
again, and a master as it was to all but the writer. -/
theorem failed_appends_do_no_harm :
    (∀ settings d fresh, SegmentLog.Regular d → SegmentLog.recover settings d = .ok fresh →
      ∀ trials log answers, (∀ t ∈ trials, t.call.Modest) →
        Trial.performAll trials fresh = (log, answers) →
        LocalLog.highest fresh + (Trial.history trials answers).length + 1 < UInt64.size →
        log.Withstands ∧ (SegmentLog.WellNamed d → (∀ t ∈ trials, t.Deletes) →
          SegmentLog.Continues fresh (Trial.history trials answers) log)) ∧
    ∀ {L : Type} [LocalLog L] (m : Master L) payload metadata log fault, m.stopped = false →
      m.unannounced = none → LocalLog.append m.log payload metadata = (log, .error fault) →
      ∃ after write, m.append payload metadata = (after, some write) ∧
        m.Declined after log fault write :=
  ⟨fun _ _ _ regular opened _ _ _ => SegmentLog.withstands_runs regular opened,
    fun _ _ _ _ _ => Master.declined_of_failed⟩

/-- Three appends, each to a segment of its own. Of the second record five bytes reach the file. -/
def interrupted : List Trial :=
  [⟨.append [97] none, .sound⟩, ⟨.append [98] none, { write := some (5, noSpace) }⟩,
    ⟨.append [99] none, .sound⟩]

/-- A master over a log that takes nothing. -/
def overRefusing : Master VolatileLog where
  settings := .ofName "master"
  log := { refusing := true }
  quorum := .ofCopies 2

/-- The third entry has the offset that the second one would have had. -/
theorem no_harm_of_interrupted : ∃ fresh log answers,
    SegmentLog.recover SegmentLog.narrow {} = .ok fresh ∧
    Trial.performAll interrupted fresh = (log, answers) ∧ log.Withstands ∧
    SegmentLog.Continues fresh [⟨1, [97], none⟩, ⟨2, [99], none⟩] log ∧
    ∃ after write, overRefusing.append [7] none = (after, some write) ∧
      overRefusing.Declined after { refusing := true } (.io .appendRefused) write := by
  have regular : SegmentLog.Regular {} := SegmentLog.regular_of_files (by simp)
  have named : SegmentLog.WellNamed {} := ⟨List.nodup_nil, by simp [Directory.names]⟩
  have opened : SegmentLog.recover SegmentLog.narrow {} = .ok ⟨SegmentLog.narrow, {}, [], none, 0⟩ :=
    SegmentLog.recover_empty (by decide) rfl
  cases ran : Trial.performAll interrupted ⟨SegmentLog.narrow, {}, [], none, 0⟩ with
  | mk log answers =>
  have stored : Trial.history interrupted answers = [⟨1, [97], none⟩, ⟨2, [99], none⟩] := by
    rw [show answers = _ from (congrArg Prod.snd ran).symm]
    decide +kernel
  obtain ⟨withstands, continues⟩ := failed_appends_do_no_harm.1 _ _ _ regular opened interrupted _ _
    (by decide) ran (by rw [stored]; decide)
  rw [stored] at continues
  exact ⟨_, log, answers, opened, ran, withstands,
    continues named (by simp [interrupted, Trial.Deletes, Medium.sound]),
    failed_appends_do_no_harm.2 overRefusing [7] none _ _ rfl rfl rfl⟩

end QuorumLog
