import QuorumLog.Proofs.Purging

/-! A stored log as its user sees it: calls and the answers to them, the log being closed and opened
again any number of times. The answers are told by the list of all entries that were ever stored, and
they are those of a log in memory as long as nothing is purged. -/

namespace QuorumLog

/-- What a user does with a log. -/
inductive Call where
  | append (payload : Bytes) (metadata : Option Bytes)
  | appendEntry (e : Entry)
  | purge (offset : Nat)
  | read (start limit : Nat)
  | highest
  | oldest
  /-- Closes the log and opens it again, with segments of another size. -/
  | reopen (segmentSize : Nat)
deriving DecidableEq, Repr

/-- What a log answers. -/
inductive Answer where
  | appended (result : Except Fault Nat)
  | taken (result : Except Fault Unit)
  | purged (result : Except Fault Nat)
  | found (result : Except Fault (List Entry))
  | offset (value : Nat)
  | reopened (result : Except Fault Unit)

namespace Call

section Run

variable {L : Type} [LocalLog L] (reopen : L → Nat → Except Fault L)

/-- One call on a log that can be opened again. -/
def perform : Call → L → L × Answer
  | .append payload metadata, log =>
    let (after, result) := LocalLog.append log payload metadata
    (after, .appended result)
  | .appendEntry e, log =>
    let (after, result) := LocalLog.appendEntry log e
    (after, .taken result)
  | .purge offset, log =>
    let (after, result) := LocalLog.purge log offset
    (after, .purged result)
  | .read start limit, log => (log, .found (LocalLog.read log start limit))
  | .highest, log => (log, .offset (LocalLog.highest log))
  | .oldest, log => (log, .offset (LocalLog.oldest log))
  | .reopen segmentSize, log =>
    match reopen log segmentSize with
    | .ok after => (after, .reopened (.ok ()))
    | .error fault => (log, .reopened (.error fault))

/-- Calls one after the other. -/
def performAll : List Call → L → L × List Answer
  | [], log => (log, [])
  | call :: later, log =>
    let (log, answer) := call.perform reopen log
    let (log, answers) := performAll later log
    (log, answer :: answers)

end Run

/-- The entry that a call stored, by the answer to it. -/
def stored? : Call → Answer → Option Entry
  | .append payload metadata, .appended (.ok offset) => some ⟨offset, payload, metadata⟩
  | .appendEntry e, .taken (.ok ()) => some e
  | _, _ => none

/-- All entries that calls stored, by the answers to them. -/
def history (calls : List Call) (answers : List Answer) : List Entry :=
  (calls.zip answers).filterMap fun (call, answer) => call.stored? answer

/-- A record can tell the length of its body, and a segment has a size. -/
def Modest : Call → Prop
  | .append payload metadata => (Record.body ⟨0, payload, metadata⟩).length < UInt32.size
  | .appendEntry e => (Record.body e).length < UInt32.size
  | .reopen segmentSize => 1 ≤ segmentSize
  | _ => True

instance : DecidablePred Modest
  | .append payload metadata =>
    inferInstanceAs (Decidable ((Record.body ⟨0, payload, metadata⟩).length < UInt32.size))
  | .appendEntry e => inferInstanceAs (Decidable ((Record.body e).length < UInt32.size))
  | .reopen segmentSize => inferInstanceAs (Decidable (1 ≤ segmentSize))
  | .purge _ | .read _ _ | .highest | .oldest => .isTrue trivial

/-- Whether entries may be forgotten. -/
def purges : Call → Bool
  | .purge _ => true
  | _ => false

variable {call : Call} {calls : List Call} {answer : Answer} {answers : List Answer}

theorem history_cons : history (call :: calls) (answer :: answers) =
    (call.stored? answer).toList ++ history calls answers := by
  rw [history, List.zip_cons_cons, List.filterMap_cons]
  cases h : call.stored? answer <;> simp [h, history]

end Call

/-- A log that is closed and opened again. -/
def SegmentLog.reopen (log : SegmentLog) (segmentSize : Nat) : Except Fault SegmentLog :=
  recover { log.settings with segmentSize := segmentSize } log.directory

/-- A log in memory is not closed. -/
def VolatileLog.reopen (log : VolatileLog) (_ : Nat) : Except Fault VolatileLog := .ok log

namespace SegmentLog

variable {log after : SegmentLog} {history : List Entry} {e : Entry}

/-! ### What a log keeps of its history -/

/-- A log in step with the list of all entries that were ever stored in it. -/
structure Follows (log : SegmentLog) (history : List Entry) : Prop where
  sound : LawfulLog.Sound log
  findable : log.Findable
  numbered : history.map Entry.offset = List.range' 1 history.length
  ends : log.highest = history.length
  retains : log.entries <:+ history

/-- A log that forgot nothing is in step with what it retains. -/
theorem follows_of_complete (complete : LawfulLog.Complete log) (findable : log.Findable) :
    log.Follows (LawfulLog.entries log) where
  sound := complete.sound
  findable := findable
  numbered := by rw [LawfulLog.complete_numbered complete, LawfulLog.complete_length complete]
  ends := (LawfulLog.complete_length complete).symm
  retains := List.suffix_refl _

/-- The oldest retained entry tells how many of those before it are gone. -/
theorem Follows.retained (follows : log.Follows history) :
    log.entries = history.drop (log.oldest - 1) ∧ 1 ≤ log.oldest ∧
      log.oldest + log.entries.length = log.highest + 1 := by
  obtain ⟨parts, filed⟩ := follows.sound
  obtain ⟨gone, split⟩ := follows.retains
  obtain ⟨-, span, positive⟩ := filed.numbered
  rw [← filed.entries] at span
  have ends := follows.ends
  rw [← split, List.length_append] at ends
  refine ⟨?_, positive, span⟩
  rw [← split, List.drop_left' (by omega)]

/-- Whoever reads gets the first of the retained entries from an offset on. -/
theorem Follows.read (follows : log.Follows history) (start limit : Nat) : log.read start limit =
    .ok (((history.drop (log.oldest - 1)).filter (start ≤ ·.offset)).take limit) := by
  obtain ⟨parts, filed⟩ := follows.sound
  rw [filed.read, ← filed.entries, follows.retained.1]

theorem numbered_snoc (numbered : history.map Entry.offset = List.range' 1 history.length)
    (next : e.offset = history.length + 1) :
    (history ++ [e]).map Entry.offset = List.range' 1 (history ++ [e]).length := by
  rw [List.map_append, numbered, List.length_append, List.length_singleton, List.range'_concat,
    List.map_singleton, next, Nat.one_mul, Nat.add_comm]

/-- The next entry is stored behind the others if a record can hold it. -/
theorem Follows.store (follows : log.Follows history) (next : e.offset = log.highest + 1) :
    ∃ after, log.store .sound e = (after, .ok ()) ∧ (Record.Fits e →
      after.Follows (history ++ [e]) ∧ after.entries = log.entries ++ [e]) := by
  obtain ⟨parts, filed⟩ := follows.sound
  obtain ⟨after, parts', stored, ends, more, filed'⟩ := filed.store next
  refine ⟨after, stored, fun fits => ?_⟩
  have entries : after.entries = log.entries ++ [e] := by
    rw [(filed' fits).entries, more, filed.entries]
  rw [follows.ends] at next
  obtain ⟨gone, split⟩ := follows.retains
  refine ⟨⟨⟨parts', filed' fits⟩, follows.findable.store fits.1 stored,
    numbered_snoc follows.numbered next, ?_, gone, ?_⟩, entries⟩
  · rw [ends, next, List.length_append, List.length_singleton]
  · rw [entries, ← List.append_assoc, split]

/-- An append takes the next offset. -/
theorem Follows.append (follows : log.Follows history) (payload : Bytes)
    (metadata : Option Bytes) :
    ∃ after, LocalLog.append log payload metadata = (after, .ok (log.highest + 1)) ∧
      (Record.Fits ⟨log.highest + 1, payload, metadata⟩ →
        after.Follows (history ++ [⟨log.highest + 1, payload, metadata⟩]) ∧
          after.entries = log.entries ++ [⟨log.highest + 1, payload, metadata⟩]) := by
  obtain ⟨after, stored, keeps⟩ :=
    follows.store (e := ⟨log.highest + 1, payload, metadata⟩) rfl
  refine ⟨after, ?_, keeps⟩
  show log.append .sound payload metadata = _
  rw [SegmentLog.append, stored]
  rfl

/-- An entry that comes next is taken. -/
theorem Follows.appendEntry (follows : log.Follows history) (next : e.offset = log.highest + 1) :
    ∃ after, LocalLog.appendEntry log e = (after, .ok ()) ∧ (Record.Fits e →
      after.Follows (history ++ [e]) ∧ after.entries = log.entries ++ [e]) := by
  obtain ⟨after, stored, keeps⟩ := follows.store next
  refine ⟨after, ?_, keeps⟩
  show log.appendEntry .sound e = _
  rw [SegmentLog.appendEntry, if_neg (not_not_intro next), stored]

/-- An entry that does not come next changes nothing. -/
theorem appendEntry_of_apart (log : SegmentLog) (apart : e.offset ≠ log.highest + 1) :
    LocalLog.appendEntry log e =
      (log, .error (.log (.notContiguous (log.highest + 1) e.offset))) :=
  if_pos apart

/-- A purge takes entries off the beginning of the retained ones. -/
theorem Follows.purge (follows : log.Follows history) (offset : Nat) :
    ∃ after gone, LocalLog.purge log offset = (after, .ok gone.length) ∧ after.Follows history ∧
      log.entries = gone ++ after.entries ∧ after.highest = log.highest ∧
      ∀ e ∈ gone, e.offset < offset := by
  obtain ⟨parts, filed⟩ := follows.sound
  obtain ⟨after, gone, kept, purged, rfl, filed', ends, -, findable, low⟩ := filed.purge offset
  have split : log.entries = gone.flatMap (·.2) ++ after.entries := by
    rw [filed.entries, filed'.entries, List.flatMap_append]
  refine ⟨after, _, purged, ⟨⟨kept, filed'⟩, findable follows.findable, follows.numbered,
    ends.trans follows.ends, ?_⟩, split, ends, low⟩
  exact (split ▸ List.suffix_append ..).trans follows.retains

/-- Opening the log again changes nothing but the size of segments to come. -/
theorem Follows.reopen (follows : log.Follows history) {segmentSize : Nat}
    (sized : 1 ≤ segmentSize) : log.reopen segmentSize =
      .ok { log with settings := { log.settings with segmentSize := segmentSize } } := by
  obtain ⟨parts, filed⟩ := follows.sound
  exact filed.reopen follows.findable (Nat.ne_of_gt sized)

/-- The settings play no part in what a log keeps. -/
theorem Follows.resettle (follows : log.Follows history) (settings : StoreSettings) :
    Follows { log with settings := settings } history ∧
      entries { log with settings := settings } = log.entries := by
  obtain ⟨parts, filed⟩ := follows.sound
  have filed' : Filed { log with settings := settings } parts := { filed with }
  have same : entries { log with settings := settings } = log.entries :=
    filed'.entries.trans filed.entries.symm
  exact ⟨⟨⟨parts, filed'⟩, { follows.findable with }, follows.numbered, follows.ends,
    same ▸ follows.retains⟩, same⟩

/-- A new log has no history. -/
theorem follows_fresh (settings : StoreSettings) : Follows ⟨settings, {}, [], none, 0⟩ [] where
  sound := by
    refine ⟨[], rfl, ?_, ?_, List.isChain_nil, ?_, ?_, rfl, ?_⟩
    all_goals simp [Directory.names]
  findable := ⟨List.nodup_nil, by simp, fun _ => rfl⟩
  numbered := rfl
  ends := rfl
  retains := by simp [entries, SegmentLog.read]

/-! ### Runs -/

section Runs

variable {call : Call} {calls : List Call} {answer : Answer} {answers : List Answer}

/-- One call keeps a log in step with its history. -/
theorem Follows.perform (follows : log.Follows history) (modest : call.Modest)
    (ran : call.perform SegmentLog.reopen log = (after, answer))
    (room : (history ++ (call.stored? answer).toList).length < UInt64.size) :
    after.Follows (history ++ (call.stored? answer).toList) := by
  have ends := follows.ends
  have nothing : after.Follows history → call.stored? answer = none →
      after.Follows (history ++ (call.stored? answer).toList) := by
    intro follows' none
    rwa [none, Option.toList_none, List.append_nil]
  cases call with
  | append payload metadata =>
    obtain ⟨next, appended, keeps⟩ := follows.append payload metadata
    simp only [Call.perform, appended] at ran
    cases ran
    simp only [Call.stored?, Option.toList_some, List.length_append, List.length_singleton] at room
    exact (keeps ⟨by rw [ends]; exact room, modest⟩).1
  | appendEntry e =>
    by_cases comes : e.offset = log.highest + 1
    · obtain ⟨next, appended, keeps⟩ := follows.appendEntry comes
      simp only [Call.perform, appended] at ran
      cases ran
      simp only [Call.stored?, Option.toList_some, List.length_append,
        List.length_singleton] at room
      exact (keeps ⟨by rw [comes, ends]; exact room, modest⟩).1
    · simp only [Call.perform, log.appendEntry_of_apart comes] at ran
      cases ran
      exact nothing follows rfl
  | purge offset =>
    obtain ⟨next, gone, purged, follows', -⟩ := follows.purge offset
    simp only [Call.perform, purged] at ran
    cases ran
    exact nothing follows' rfl
  | reopen segmentSize =>
    simp only [Call.perform, follows.reopen modest] at ran
    cases ran
    exact nothing (follows.resettle _).1 rfl
  | read start limit => cases ran; exact nothing follows rfl
  | highest => cases ran; exact nothing follows rfl
  | oldest => cases ran; exact nothing follows rfl

/-- Calls keep a log in step with all that they store. -/
theorem Follows.performAll (follows : log.Follows history) (modest : ∀ call ∈ calls, call.Modest)
    (ran : Call.performAll SegmentLog.reopen calls log = (after, answers))
    (room : (history ++ Call.history calls answers).length < UInt64.size) :
    after.Follows (history ++ Call.history calls answers) := by
  induction calls generalizing log history answers with
  | nil =>
    obtain ⟨rfl, rfl⟩ := Prod.mk.inj ran
    rwa [Call.history, List.zip_nil_left, List.filterMap_nil, List.append_nil]
  | cons call later ih =>
    obtain ⟨now, rest⟩ := List.forall_mem_cons.mp modest
    cases first : call.perform SegmentLog.reopen log with
    | mk next answer =>
    cases others : Call.performAll SegmentLog.reopen later next with
    | mk last further =>
    simp only [Call.performAll, first, others] at ran
    cases ran
    rw [Call.history_cons, ← List.append_assoc] at room ⊢
    refine ih (follows.perform now first ?_) rest others room
    rw [List.length_append] at room
    omega

/-! ### The same calls on a log in memory -/

/-- A log in memory that has what a stored log has. -/
structure Twin (log : SegmentLog) (mem : VolatileLog) : Prop where
  numbered : mem.Numbered
  entries : mem.entries = log.entries
  highest : mem.highest = log.highest
  willing : mem.refusing = false

variable {mem mem' : VolatileLog}

theorem Twin.push (twin : log.Twin mem) (next : e.offset = log.highest + 1)
    (entries : after.entries = log.entries ++ [e]) (ends : after.highest = e.offset) :
    after.Twin (mem.push e) where
  numbered := VolatileLog.numbered_push twin.numbered (twin.highest ▸ next)
  entries := by rw [VolatileLog.push, twin.entries, entries]
  highest := ends.symm
  willing := twin.willing

theorem Twin.append (twin : log.Twin mem) (payload : Bytes) (metadata : Option Bytes) :
    LocalLog.append mem payload metadata =
      (mem.push ⟨log.highest + 1, payload, metadata⟩, .ok (log.highest + 1)) := by
  rw [← twin.highest]
  exact if_neg (Bool.eq_false_iff.mp twin.willing)

theorem Twin.appendEntry (twin : log.Twin mem) (comes : e.offset = log.highest + 1) :
    LocalLog.appendEntry mem e = (mem.push e, .ok ()) := by
  refine (if_neg (Bool.eq_false_iff.mp twin.willing)).trans (if_neg (not_not_intro ?_))
  rw [twin.highest, comes]

theorem Twin.appendEntry_of_apart (twin : log.Twin mem) (apart : e.offset ≠ log.highest + 1) :
    LocalLog.appendEntry mem e =
      (mem, .error (.log (.notContiguous (log.highest + 1) e.offset))) := by
  rw [← twin.highest] at apart ⊢
  exact (if_neg (Bool.eq_false_iff.mp twin.willing)).trans (if_pos apart)

theorem Twin.read (twin : log.Twin mem) (follows : log.Follows history) (start limit : Nat) :
    LocalLog.read mem start limit = LocalLog.read log start limit := by
  obtain ⟨parts, filed⟩ := follows.sound
  refine Eq.trans ?_ (filed.read start limit).symm
  rw [← filed.entries, ← twin.entries]
  exact congrArg Except.ok (VolatileLog.read_of_numbered twin.numbered start limit)

theorem Twin.oldest (twin : log.Twin mem) (follows : log.Follows history) :
    mem.oldest = log.oldest := by
  have span := twin.numbered.span
  have span' := follows.retained.2.2
  rw [twin.entries, twin.highest] at span
  omega

/-- A call that forgets nothing has the same answer from both. -/
theorem Twin.perform (twin : log.Twin mem) (follows : log.Follows history) (modest : call.Modest)
    (forgets : call.purges = false) (ran : call.perform SegmentLog.reopen log = (after, answer))
    (room : (history ++ (call.stored? answer).toList).length < UInt64.size) :
    ∃ mem', call.perform VolatileLog.reopen mem = (mem', answer) ∧ after.Twin mem' := by
  have ends := follows.ends
  have ends' := (follows.perform modest ran room).ends
  rw [List.length_append] at room ends'
  cases call with
  | append payload metadata =>
    obtain ⟨next, appended, keeps⟩ := follows.append payload metadata
    simp only [Call.perform, appended] at ran
    cases ran
    obtain ⟨-, entries⟩ := keeps ⟨by rw [ends]; exact room, modest⟩
    refine ⟨_, by simp only [Call.perform, twin.append], twin.push rfl entries ?_⟩
    rw [ends', ← ends]
    rfl
  | appendEntry e =>
    by_cases comes : e.offset = log.highest + 1
    · obtain ⟨next, appended, keeps⟩ := follows.appendEntry comes
      simp only [Call.perform, appended] at ran
      cases ran
      obtain ⟨-, entries⟩ := keeps ⟨by rw [comes, ends]; exact room, modest⟩
      refine ⟨_, by simp only [Call.perform, twin.appendEntry comes], twin.push comes entries ?_⟩
      rw [ends', ← ends, comes]
      rfl
    · simp only [Call.perform, log.appendEntry_of_apart comes] at ran
      cases ran
      exact ⟨mem, by simp only [Call.perform, twin.appendEntry_of_apart comes], twin⟩
  | purge offset => cases forgets
  | reopen segmentSize =>
    simp only [Call.perform, follows.reopen modest] at ran
    cases ran
    obtain ⟨-, entries⟩ := follows.resettle { log.settings with segmentSize := segmentSize }
    exact ⟨mem, rfl, twin.numbered, twin.entries.trans entries.symm, twin.highest, twin.willing⟩
  | read start limit =>
    cases ran
    exact ⟨mem, by simp only [Call.perform, twin.read follows], twin⟩
  | highest =>
    cases ran
    exact ⟨mem, congrArg (fun n => (mem, Answer.offset n)) twin.highest, twin⟩
  | oldest =>
    cases ran
    exact ⟨mem, congrArg (fun n => (mem, Answer.offset n)) (twin.oldest follows), twin⟩

/-- Calls that forget nothing have the same answers from both. -/
theorem Twin.performAll (twin : log.Twin mem) (follows : log.Follows history)
    (modest : ∀ call ∈ calls, call.Modest) (forgets : ∀ call ∈ calls, call.purges = false)
    (ran : Call.performAll SegmentLog.reopen calls log = (after, answers))
    (room : (history ++ Call.history calls answers).length < UInt64.size) :
    (Call.performAll VolatileLog.reopen calls mem).2 = answers := by
  induction calls generalizing log mem history answers with
  | nil => cases ran; rfl
  | cons call later ih =>
    obtain ⟨now, rest⟩ := List.forall_mem_cons.mp modest
    obtain ⟨keeps, keep⟩ := List.forall_mem_cons.mp forgets
    cases first : call.perform SegmentLog.reopen log with
    | mk next answer =>
    cases others : Call.performAll SegmentLog.reopen later next with
    | mk last further =>
    simp only [Call.performAll, first, others] at ran
    cases ran
    rw [Call.history_cons, ← List.append_assoc] at room
    have enough : (history ++ (call.stored? answer).toList).length < UInt64.size := by
      rw [List.length_append] at room
      omega
    obtain ⟨mem', same, twin'⟩ := twin.perform follows now keeps first enough
    simp only [Call.performAll, same, ih twin' (follows.perform now first enough) rest keep others room]

end Runs

/-! ### The answers, told by the history -/

/-- What a log answers, told by all entries that were ever stored in it. -/
structure Describes (log : SegmentLog) (history : List Entry) : Prop where
  /-- The entries have the offsets from 1 on. -/
  numbered : history.map Entry.offset = List.range' 1 history.length
  highest : LocalLog.highest log = history.length
  /-- The entries from the oldest offset on are retained, and no others. -/
  retained : log.entries = history.drop (LocalLog.oldest log - 1)
  oldest : 1 ≤ LocalLog.oldest log ∧ LocalLog.oldest log ≤ LocalLog.highest log + 1
  /-- A reader gets the first of the retained entries from an offset on. -/
  read (start limit : Nat) : LocalLog.read log start limit =
    .ok ((log.entries.filter (start ≤ ·.offset)).take limit)
  append (payload : Bytes) (metadata : Option Bytes) :
    (LocalLog.append log payload metadata).2 = .ok (LocalLog.highest log + 1)
  /-- An entry is taken if it comes next. -/
  next (e : Entry) : e.offset = LocalLog.highest log + 1 →
    (LocalLog.appendEntry log e).2 = .ok ()
  /-- Any other entry changes nothing. -/
  other (e : Entry) : e.offset ≠ LocalLog.highest log + 1 → LocalLog.appendEntry log e =
    (log, .error (.log (.notContiguous (LocalLog.highest log + 1) e.offset)))
  /-- A purge forgets the oldest entries, all of them below the offset, and tells how many. -/
  purge (offset : Nat) : ∃ after gone, LocalLog.purge log offset = (after, .ok gone.length) ∧
    log.entries = gone ++ after.entries ∧ (∀ e ∈ gone, e.offset < offset) ∧
      LocalLog.highest after = LocalLog.highest log
  /-- Opening the log again changes neither its ends nor what it retains. -/
  reopen (segmentSize : Nat) : 1 ≤ segmentSize → ∃ after, log.reopen segmentSize = .ok after ∧
    LocalLog.highest after = LocalLog.highest log ∧ LocalLog.oldest after = LocalLog.oldest log ∧
      after.entries = log.entries

theorem Follows.describes (follows : log.Follows history) : log.Describes history := by
  obtain ⟨retained, positive, span⟩ := follows.retained
  constructor
  case numbered => exact follows.numbered
  case highest => exact follows.ends
  case retained => exact retained
  case oldest => exact ⟨positive, by show log.oldest ≤ log.highest + 1; omega⟩
  case read =>
    intro start limit
    rw [retained]
    exact follows.read start limit
  case append =>
    intro payload metadata
    obtain ⟨after, appended, -⟩ := follows.append payload metadata
    rw [appended]
    rfl
  case next =>
    intro e comes
    obtain ⟨after, appended, -⟩ := follows.appendEntry comes
    rw [appended]
  case other => exact fun e apart => log.appendEntry_of_apart apart
  case purge =>
    intro offset
    obtain ⟨after, gone, purged, -, split, ends, low⟩ := follows.purge offset
    exact ⟨after, gone, purged, split, low, ends⟩
  case reopen =>
    intro segmentSize sized
    exact ⟨_, follows.reopen sized, rfl, rfl, (follows.resettle _).2⟩

/-- A log that starts in an empty directory answers as the list of all entries that were ever stored
in it says, whatever was called before, and as a log in memory does as long as nothing is purged. As
many entries may be stored as offsets of 64 bits can tell apart. -/
theorem describes_runs (settings : StoreSettings) (sized : 1 ≤ settings.segmentSize)
    (calls : List Call) (modest : ∀ call ∈ calls, call.Modest) :
    ∃ fresh log answers, recover settings {} = .ok fresh ∧
      Call.performAll SegmentLog.reopen calls fresh = (log, answers) ∧
      ((Call.history calls answers).length < UInt64.size →
        log.Describes (Call.history calls answers) ∧
          ((∀ call ∈ calls, call.purges = false) →
            (Call.performAll VolatileLog.reopen calls {}).2 = answers)) := by
  have fresh := follows_fresh settings
  refine ⟨_, _, _, recover_empty (Nat.ne_of_gt sized) rfl, rfl, fun room => ⟨?_, fun keeps => ?_⟩⟩
  · exact (fresh.performAll modest rfl room).describes
  · refine Twin.performAll ⟨⟨rfl, rfl⟩, ?_, rfl, rfl⟩ fresh modest keeps rfl room
    simp [entries, SegmentLog.read]

/-- Segments that take one record each. -/
def narrow : StoreSettings := { StoreSettings.standard with segmentSize := 1 }

/-- Three entries are stored, the first is purged, and one that does not come next is refused. -/
def mixedCalls : List Call :=
  [.append [97] none, .append [98] (some [99]), .purge 2, .reopen 100, .appendEntry ⟨3, [100], none⟩,
    .appendEntry ⟨5, [], none⟩, .read 1 10]

/-- After a purge and a reopening the log has the last two of three entries. -/
theorem describes_mixed : ∃ fresh log answers, recover narrow {} = .ok fresh ∧
    Call.performAll SegmentLog.reopen mixedCalls fresh = (log, answers) ∧ LocalLog.oldest log = 2 ∧
    log.Describes [⟨1, [97], none⟩, ⟨2, [98], some [99]⟩, ⟨3, [100], none⟩] := by
  obtain ⟨fresh, log, answers, opened, ran, told⟩ :=
    describes_runs narrow (by decide) mixedCalls (by decide)
  obtain rfl := Except.ok.inj ((recover_empty (by decide) rfl).symm.trans opened)
  obtain ⟨left, given⟩ := Prod.ext_iff.mp ran
  dsimp only at left given
  have stored : Call.history mixedCalls answers =
      [⟨1, [97], none⟩, ⟨2, [98], some [99]⟩, ⟨3, [100], none⟩] := by
    rw [← given]
    decide +kernel
  have oldest : LocalLog.oldest log = 2 := by
    rw [← left]
    decide +kernel
  rw [stored] at told
  exact ⟨_, log, answers, opened, ran, oldest, (told (by decide)).1⟩

end SegmentLog

end QuorumLog
