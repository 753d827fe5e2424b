import QuorumLog.Proofs.FailedAppends
import QuorumLog.Proofs.WholeReading

/-! Cursors through logs of which any page can be read. A cursor gives the retained entries from its offset
on, one by one and in order, whatever the size of its pages, and what is added before it comes to the end is
given as well. On any log, a page that is empty or cannot be read is the end for good. -/

namespace QuorumLog

variable {L : Type} [LocalLog L] {log after : L} {logs : List L} {es more rest taken : List Entry}
variable {e : Entry} {c : Cursor} {oldest n limit fuel : Nat}

/-! ### The end of a cursor -/

namespace Cursor

/-- What a cursor gives in steps through a log that changes between them. -/
def watch : List L → Cursor → List (Option (Except Fault Entry))
  | [], _ => []
  | log :: later, c => (c.step log).2 :: watch later (c.step log).1

theorem watch_finished (finished : c.finished = true) (page : c.page = []) (logs : List L) :
    c.watch logs = List.replicate logs.length none := by
  induction logs with
  | nil => rfl
  | cons log later ih => rw [watch, step_finished finished page, ih, List.length_cons, List.replicate_succ]

/-- What a step can come to: an entry, nothing behind the end, or the end. -/
theorem step_cases (log : L) (c : Cursor) :
    (∃ c' e, c.step log = (c', some (.ok e))) ∨
    (c.finished = true ∧ c.page = [] ∧ c.step log = (c, none)) ∨
    (c.page = [] ∧ LocalLog.read log c.next c.pageSize = .ok [] ∧
      c.step log = ({ c with finished := true }, none)) ∨
    ∃ fault, c.page = [] ∧ LocalLog.read log c.next c.pageSize = .error fault ∧
      c.step log = ({ c with finished := true }, some (.error fault)) := by
  cases page : c.page with
  | cons e later => exact .inl ⟨_, e, by simp [step, take, page]; rfl⟩
  | nil =>
    cases finished : c.finished with
    | true => exact .inr (.inl ⟨rfl, rfl, step_finished finished page⟩)
    | false =>
      cases read : LocalLog.read log c.next c.pageSize with
      | error fault => exact .inr (.inr (.inr ⟨fault, rfl, rfl, by simp [step, page, finished, read]⟩))
      | ok found =>
        cases found with
        | nil => exact .inr (.inr (.inl ⟨rfl, rfl, by simp [step, page, finished, read]⟩))
        | cons e later => exact .inl ⟨_, e, by simp [step, take, page, finished, read]; rfl⟩

/-- After a step that gives no entry, no step gives anything. -/
theorem watch_ends {before behind : List (Option (Except Fault Entry))}
    {item : Option (Except Fault Entry)} (watched : c.watch logs = before ++ item :: behind)
    (stops : ∀ e, item ≠ some (.ok e)) : ∀ other ∈ behind, other = none := by
  induction logs generalizing c before with
  | nil => simp [watch] at watched
  | cons log later ih =>
    rw [watch] at watched
    cases before with
    | nil =>
      obtain ⟨first, others⟩ := List.cons.inj watched
      have ended : (c.step log).1.finished = true ∧ (c.step log).1.page = [] := by
        rcases step_cases log c with ⟨c', e, step⟩ | ⟨finished, page, step⟩ | ⟨page, -, step⟩ |
          ⟨fault, page, -, step⟩
        · rw [step] at first
          exact absurd first.symm (stops e)
        · rw [step]
          exact ⟨finished, page⟩
        · rw [step]
          exact ⟨rfl, page⟩
        · rw [step]
          exact ⟨rfl, page⟩
      rw [watch_finished ended.1 ended.2] at others
      exact fun other member => List.eq_of_mem_replicate (others ▸ member)
    | cons first before => exact ih (List.cons.inj watched).2

/-- Where a cursor ends on any log, and that it ends for good, also if the log changes. -/
structure Ends (c : Cursor) (logs : List L) : Prop where
  nothing : ∀ log : L, (c.step log).2 = none →
    c.finished = true ∨ LocalLog.read log c.next c.pageSize = .ok []
  fault : ∀ (log : L) fault, (c.step log).2 = some (.error fault) →
    LocalLog.read log c.next c.pageSize = .error fault
  last : ∀ before item behind, c.watch logs = before ++ item :: behind →
    (∀ e, item ≠ some (.ok e)) → ∀ other ∈ behind, other = none

theorem ends (c : Cursor) (logs : List L) : c.Ends logs := by
  refine ⟨fun log none => ?_, fun log fault failed => ?_, fun _ _ _ => watch_ends⟩
  · rcases step_cases log c with
      ⟨c', e, step⟩ | ⟨finished, -⟩ | ⟨-, read, -⟩ | ⟨fault, -, -, step⟩
    · rw [step] at none
      cases none
    · exact .inl finished
    · exact .inr read
    · rw [step] at none
      cases none
  · rcases step_cases log c with
      ⟨c', e, step⟩ | ⟨-, -, step⟩ | ⟨-, -, step⟩ | ⟨other, -, read, step⟩
    all_goals rw [step] at failed
    all_goals cases failed
    exact read

end Cursor

/-! ### Logs that are added to -/

/-- In a log that was added to, the first entry from an offset on is still the same. -/
theorem Legible.readTail_next (legible : Legible after (es ++ more))
    (first : es.filter (n ≤ ·.offset) = e :: rest) :
    LocalLog.readTail after n = (LocalLog.readTail after (e.offset + 1)).map (e :: ·) := by
  have first' : (es ++ more).filter (n ≤ ·.offset) = e :: (rest ++ more.filter (n ≤ ·.offset)) := by
    rw [List.filter_append, first, List.cons_append]
  rw [legible.readTail, legible.readTail, (legible.filter_next first').2, first']
  rfl

/-- What is added to a log comes behind the page. -/
theorem Cursor.Onward.grow (onward : c.Onward es) (more : List Entry) : c.Onward (es ++ more) where
  page := by
    rw [List.filter_append]
    exact onward.page.trans (List.prefix_append _ _)
  sized := onward.sized
  going := onward.going

/-- States of a log, each with some entries more than the one before. -/
inductive Lengthening (oldest : Nat) : List Entry → List L → Prop where
  | nil {es : List Entry} : Lengthening oldest es []
  | cons {es more : List Entry} {log : L} {later : List L} (legible : Legible log (es ++ more))
      (same : LocalLog.oldest log = oldest) (grown : Lengthening oldest (es ++ more) later) :
      Lengthening oldest es (log :: later)

theorem Lengthening.legible (grown : Lengthening oldest es logs) (member : log ∈ logs) :
    ∃ more, Legible log (es ++ more) ∧ LocalLog.oldest log = oldest := by
  induction grown with
  | nil => cases member
  | @cons es more first later legible same grown ih =>
    rcases List.mem_cons.mp member with rfl | behind
    · exact ⟨more, legible, same⟩
    · obtain ⟨others, legible', same'⟩ := ih behind
      exact ⟨more ++ others, List.append_assoc _ _ _ ▸ legible', same'⟩

/-- What the steps of a cursor through a growing log give: entries that follow each other, and nothing as
soon as all were given that the log has at this step. -/
structure Cursor.Gives (c : Cursor) (oldest : Nat) (logs : List L) (taken : List Entry) : Prop where
  items : c.watch logs = taken.map (fun e => some (.ok e)) ++
    List.replicate (logs.length - taken.length) none
  offsets : taken.map Entry.offset = List.range' (max c.next oldest) taken.length
  retained : ∀ (k : Nat) log, logs[k]? = some log →
    ∃ more, LocalLog.readTail log c.next = .ok (taken.take (k + 1) ++ more)
  ended : ∀ log, logs[taken.length]? = some log → LocalLog.readTail log c.next = .ok taken

/-- The steps of a cursor through a growing log. -/
theorem Lengthening.gives (grown : Lengthening oldest es logs) (onward : c.Onward es) :
    ∃ taken, c.Gives oldest logs taken := by
  induction grown generalizing c with
  | nil => exact ⟨[], rfl, rfl, by simp, by simp⟩
  | @cons es more log later legible same grown ih =>
    rcases (onward.grow more).step legible with
      ⟨none, ended, step, done⟩ | ⟨e, rest, c', first, step, next, onward'⟩
    · refine ⟨[], ?_, rfl, fun k here found => ?_, fun here found => ?_⟩
      · rw [Cursor.watch, step, Cursor.watch_finished done.1 done.2]
        rfl
      · obtain ⟨others, legible', -⟩ :=
          (Lengthening.cons legible same grown).legible (List.mem_of_getElem? found)
        exact ⟨_, legible'.readTail c.next⟩
      · obtain rfl := Option.some.inj found
        rw [legible.readTail, none]
    · obtain ⟨taken, gives⟩ := ih onward'
      have number := (legible.filter_next first).1
      rw [same] at number
      -- Whoever reads a later state from the offset of the cursor on finds the entry in front.
      have front {last : L} {found : List Entry} (member : last ∈ later)
          (read : LocalLog.readTail last c'.next = .ok found) :
          LocalLog.readTail last c.next = .ok (e :: found) := by
        obtain ⟨others, legible', -⟩ := grown.legible member
        rw [legible'.readTail_next first, ← next, read]
        rfl
      refine ⟨e :: taken, ?_, ?_, fun k here found => ?_, fun here found => ?_⟩
      · rw [Cursor.watch, step, gives.items]
        simp
      · rw [List.map_cons, gives.offsets, List.length_cons, List.range'_succ, next, number]
        congr 2
        omega
      · cases k with
        | zero =>
          obtain rfl := Option.some.inj found
          exact ⟨rest, by rw [legible.readTail, first]; rfl⟩
        | succ k =>
          rw [List.getElem?_cons_succ] at found
          obtain ⟨others, read⟩ := gives.retained k here found
          exact ⟨others, front (List.mem_of_getElem? found) read⟩
      · rw [List.length_cons, List.getElem?_cons_succ] at found
        exact front (List.mem_of_getElem? found) (gives.ended here found)

/-! ### The logs -/

/-- What every cursor makes of a log that stays as it is. -/
structure Paged (log : L) : Prop where
  /-- The entries that one read gives come one by one, whatever the size of the pages. -/
  drained : ∀ start size limit, LocalLog.highest log ≤ limit → ∃ es ended,
    LocalLog.read log (max start 1) limit = .ok es ∧
    (Cursor.start start size).drain log = (ended, es.map .ok) ∧ ended.step log = (ended, none)
  /-- All payloads are those of all retained entries. -/
  whole : ∃ es, LocalLog.read log (LocalLog.oldest log) (LocalLog.highest log) = .ok es ∧
    LocalLog.readAll log = .ok (es.map Entry.payload) ∧
    es.map Entry.offset = List.range' (LocalLog.oldest log) es.length ∧
    LocalLog.oldest log + es.length = LocalLog.highest log + 1

theorem Legible.paged (legible : Legible log es) : Paged log := by
  refine ⟨fun start size limit enough => ?_, es, ?_, legible.readAll, legible.numbered, legible.span⟩
  · obtain ⟨ended, ran, done⟩ := legible.drained start size
    exact ⟨_, ended, legible.read_all enough, ran, done⟩
  · rw [legible.read_all (Nat.le_refl _), legible.filter_oldest]

section Stages

variable {A : Type} {perform : A → L → L} {calls : List A} {gaps : List (List A)}

/-- The states of a log at the steps of somebody, if calls are made in the gaps before them. -/
def stages (perform : A → L → L) : List (List A) → L → List L
  | [], _ => []
  | calls :: later, log =>
    let log := calls.foldl (fun log a => perform a log) log
    log :: stages perform later log

variable {Keeps : Nat → L → List Entry → Prop} {Good : A → Prop}
variable (adds : ∀ {n log es a}, Good a → Keeps (n + 1) log es →
  LocalLog.oldest (perform a log) = LocalLog.oldest log ∧ ∃ more, Keeps n (perform a log) (es ++ more))
include adds

/-- What holds for so many calls more holds after calls for as many less. -/
theorem foldl_adds (good : ∀ a ∈ calls, Good a) (keeps : Keeps (calls.length + n) log es) :
    LocalLog.oldest (calls.foldl (fun log a => perform a log) log) = LocalLog.oldest log ∧
      ∃ more, Keeps n (calls.foldl (fun log a => perform a log) log) (es ++ more) := by
  induction calls generalizing log es with
  | nil => exact ⟨rfl, [], by simpa using keeps⟩
  | cons a later ih =>
    rw [List.length_cons, Nat.add_right_comm] at keeps
    obtain ⟨now, behind⟩ := List.forall_mem_cons.mp good
    obtain ⟨same, more, keeps'⟩ := adds now keeps
    obtain ⟨same', others, keeps''⟩ := ih behind keeps'
    exact ⟨same'.trans same, more ++ others, List.append_assoc _ _ _ ▸ keeps''⟩

/-- Calls that only add to a log that stays legible lengthen it. -/
theorem lengthening_stages (legible : ∀ {n log es}, Keeps n log es → Legible log es)
    (good : ∀ calls ∈ gaps, ∀ a ∈ calls, Good a) (keeps : Keeps gaps.flatten.length log es) :
    Lengthening (LocalLog.oldest log) es (stages perform gaps log) := by
  induction gaps generalizing log es with
  | nil => exact .nil
  | cons calls later ih =>
    rw [List.flatten_cons, List.length_append] at keeps
    obtain ⟨now, behind⟩ := List.forall_mem_cons.mp good
    obtain ⟨same, more, keeps'⟩ := foldl_adds adds now keeps
    exact .cons (legible keeps') same (same ▸ ih behind keeps')

end Stages

/-- Whether a call adds an entry. -/
def Call.adds : Call → Bool
  | .append _ _ | .appendEntry _ => true
  | _ => false

namespace VolatileLog

variable {log : VolatileLog} {e : Entry}

/-- A call to a log in memory that refuses appends or not. -/
def offer (offered : Bool × Call) (log : VolatileLog) : VolatileLog :=
  (offered.2.perform reopen { log with refusing := offered.1 }).1

/-- The entries are numbered without a gap, from 1 or more. -/
structure Counted (log : VolatileLog) : Prop extends Numbered log where
  positive : 1 ≤ log.oldest

theorem Counted.legible (counted : log.Counted) : Legible log log.entries where
  numbered := counted.offsets
  span := counted.span
  positive := counted.positive
  read start limit := congrArg Except.ok (read_of_numbered counted.toNumbered start limit)

theorem Counted.push (counted : log.Counted) (next : e.offset = log.highest + 1) :
    (log.push e).Counted ∧ (log.push e).oldest = log.oldest := by
  have numbered := numbered_push counted.toNumbered next
  have same : (log.push e).oldest = log.oldest := by
    have span := counted.span
    have span' : (log.push e).oldest + (log.entries ++ [e]).length = e.offset + 1 := numbered.span
    rw [List.length_append, List.length_singleton] at span'
    omega
  exact ⟨⟨numbered, same ▸ counted.positive⟩, same⟩

theorem Counted.purge (counted : log.Counted) (offset : Nat) : (log.purge offset).Counted := by
  have split : log.entries = log.entries.takeWhile (·.offset < offset) ++
      log.entries.dropWhile (·.offset < offset) := List.takeWhile_append_dropWhile.symm
  have numbered := numbered_of_suffix counted.toNumbered split
  refine ⟨numbered, ?_⟩
  have span := counted.span
  have span' : (log.purge offset).oldest + (log.entries.dropWhile (·.offset < offset)).length =
      log.highest + 1 := numbered.span
  have length := congrArg List.length split
  rw [List.length_append] at length
  have positive := counted.positive
  omega

/-- No call brings the count into disorder, and one that adds leaves the oldest entry. -/
theorem Counted.offer (counted : log.Counted) (offered : Bool × Call) :
    (log.offer offered).Counted ∧ (offered.2.adds = true →
      (log.offer offered).oldest = log.oldest ∧
      ∃ more, (log.offer offered).entries = log.entries ++ more) := by
  obtain ⟨refusing, call⟩ := offered
  have counted' : Counted { log with refusing } := ⟨⟨counted.offsets, counted.span⟩, counted.positive⟩
  have kept : Counted { log with refusing } ∧ (call.adds = true →
      oldest { log with refusing } = log.oldest ∧ ∃ more, log.entries = log.entries ++ more) :=
    ⟨counted', fun _ => ⟨rfl, [], (List.append_nil _).symm⟩⟩
  have stored {e : Entry} (next : e.offset = log.highest + 1) :
      (VolatileLog.push { log with refusing } e).Counted ∧ (call.adds = true →
        (VolatileLog.push { log with refusing } e).oldest = log.oldest ∧
        ∃ more, log.entries ++ [e] = log.entries ++ more) :=
    ⟨(counted'.push next).1, fun _ => ⟨(counted'.push next).2, [e], rfl⟩⟩
  cases call with
  | append payload metadata =>
    cases ran : VolatileLog.append { log with refusing } payload metadata with
    | mk after result =>
    have same : log.offer (refusing, .append payload metadata) = after := congrArg Prod.fst ran
    rw [same]
    cases result with
    | ok offset =>
      obtain ⟨next, rfl⟩ := append_of_ok ran
      exact stored next
    | error fault =>
      rw [append_of_error ran]
      exact kept
  | appendEntry e =>
    cases ran : VolatileLog.appendEntry { log with refusing } e with
    | mk after result =>
    have same : log.offer (refusing, .appendEntry e) = after := congrArg Prod.fst ran
    rw [same]
    cases result with
    | ok _ =>
      obtain ⟨next, rfl⟩ := appendEntry_of_ok ran
      exact stored next
    | error fault =>
      rw [appendEntry_of_error ran]
      exact kept
  | purge offset => exact ⟨counted'.purge offset, fun adds => by cases adds⟩
  | read start limit => exact kept
  | highest => exact kept
  | oldest => exact kept
  | reopen segmentSize => exact kept

/-- A counted log with some entries. How many more calls there are plays no part. -/
def Keeps (_ : Nat) (log : VolatileLog) (es : List Entry) : Prop :=
  log.Counted ∧ log.entries = es

theorem Keeps.legible {n : Nat} {es : List Entry} (keeps : Keeps n log es) : Legible log es :=
  keeps.2 ▸ keeps.1.legible

theorem Keeps.adds {n : Nat} {es : List Entry} {offered : Bool × Call}
    (good : offered.2.adds = true) (keeps : Keeps (n + 1) log es) :
    LocalLog.oldest (log.offer offered) = LocalLog.oldest log ∧
      ∃ more, Keeps n (log.offer offered) (es ++ more) := by
  obtain ⟨counted, rfl⟩ := keeps
  obtain ⟨counted', adds⟩ := counted.offer offered
  obtain ⟨same, more, entries⟩ := adds good
  exact ⟨same, more, counted', entries⟩

end VolatileLog

namespace SegmentLog

variable {log next : SegmentLog} {parts : List Part} {e : Entry} {medium : Medium}

theorem Backed.legible (backed : log.Backed parts) : Legible log (parts.flatMap (·.2)) where
  numbered := backed.retained.1
  span := backed.retained.2
  positive := backed.oldest_pos
  read := backed.read

/-- A backed log with some entries and room for so many more. -/
def Roomy (n : Nat) (log : SegmentLog) (es : List Entry) : Prop :=
  ∃ parts, log.Backed parts ∧ parts.flatMap (·.2) = es ∧ log.highest + n < UInt64.size

theorem Roomy.legible {n : Nat} {es : List Entry} (roomy : Roomy n log es) : Legible log es := by
  obtain ⟨parts, backed, rfl, -⟩ := roomy
  exact backed.legible

/-- A store takes at most one of the free places, and puts at most its entry behind the others. -/
theorem Roomy.store {n : Nat} {es : List Entry} {result : Except Fault Unit}
    (roomy : Roomy (n + 1) log es) (comes : e.offset = log.highest + 1)
    (short : (Record.body e).length < UInt32.size) (ran : log.store medium e = (next, result)) :
    next.oldest = log.oldest ∧ ∃ more, Roomy n next (es ++ more) := by
  obtain ⟨parts, backed, rfl, room⟩ := roomy
  have room' : log.highest + 1 < UInt64.size := by omega
  have span := backed.retained.2
  rcases backed.stored room' comes ran with
    ⟨fault, -, left⟩ | ⟨-, ends, init, s, es, -, -, entries, extended⟩
  · obtain ⟨parts', backed', same, ends, -⟩ := backed.left room' left
    have span' := backed'.retained.2
    rw [same] at span'
    refine ⟨by omega, [], parts', backed', by rw [same, List.append_nil], by omega⟩
  · have backed' := extended ⟨comes ▸ room', short⟩
    have entries' : (init ++ [(s.push (Record.size e), es ++ [e])]).flatMap (·.2) =
        parts.flatMap (·.2) ++ [e] := by
      rw [← entries]
      simp
    have span' := backed'.retained.2
    rw [entries', List.length_append, List.length_singleton] at span'
    exact ⟨by omega, [e], _, backed', entries', by omega⟩

/-- Whatever the medium does, an append puts at most its entry behind the others. -/
theorem Roomy.adds {n : Nat} {es : List Entry} {t : Trial}
    (good : t.call.adds = true ∧ t.call.Modest) (roomy : Roomy (n + 1) log es) :
    LocalLog.oldest (t.perform log).1 = LocalLog.oldest log ∧
      ∃ more, Roomy n (t.perform log).1 (es ++ more) := by
  obtain ⟨call, medium⟩ := t
  cases call with
  | append payload metadata =>
    cases stored : log.store medium ⟨log.highest + 1, payload, metadata⟩ with
    | mk after result =>
    have same : (Trial.perform ⟨.append payload metadata, medium⟩ log).1 = after := by
      simp only [Trial.perform, SegmentLog.append, stored]
    rw [same]
    exact roomy.store (e := ⟨log.highest + 1, payload, metadata⟩) rfl good.2 stored
  | appendEntry e =>
    by_cases comes : e.offset = log.highest + 1
    · cases stored : log.store medium e with
      | mk after result =>
      have same : (Trial.perform ⟨.appendEntry e, medium⟩ log).1 = after := by
        simp only [Trial.perform, appendEntry_of_next comes, stored]
      rw [same]
      exact roomy.store comes good.2 stored
    · have same : (Trial.perform ⟨.appendEntry e, medium⟩ log).1 = log :=
        congrArg Prod.fst (if_pos comes : log.appendEntry medium e = _)
      obtain ⟨parts, backed, entries, room⟩ := roomy
      rw [same]
      exact ⟨rfl, [], parts, backed, by rw [entries, List.append_nil], by omega⟩
  | purge offset => cases good.1
  | read start limit => cases good.1
  | highest => cases good.1
  | oldest => cases good.1
  | reopen segmentSize => cases good.1

end SegmentLog

/-! ### The rule -/

/-- A cursor gives what one read gives, and what is added before its end. This is so for a log in memory
behind any calls, and for a stored log that was opened from any files, behind any calls on a medium that
may fail. The end is one for good on every log, also if its files were changed by someone else. -/
theorem cursors_page_through :
    (∀ (before : List (Bool × Call)) log,
      before.foldl (fun log offered => VolatileLog.offer offered log) {} = log → Paged log ∧
      ∀ gaps, (∀ calls ∈ gaps, ∀ offered ∈ calls, offered.2.adds = true) → ∀ start size,
        ∃ taken, (Cursor.start start size).Gives (LocalLog.oldest log)
          (stages VolatileLog.offer gaps log) taken) ∧
    (∀ settings d fresh, SegmentLog.Regular d → SegmentLog.recover settings d = .ok fresh →
      ∀ trials log answers, (∀ t ∈ trials, t.call.Modest) →
      Trial.performAll trials fresh = (log, answers) →
      LocalLog.highest fresh + (Trial.history trials answers).length + 1 < UInt64.size → Paged log ∧
      ∀ gaps, (∀ calls ∈ gaps, ∀ t ∈ calls, t.call.adds = true ∧ t.call.Modest) →
        LocalLog.highest log + gaps.flatten.length < UInt64.size → ∀ start size,
        ∃ taken, (Cursor.start start size).Gives (LocalLog.oldest log)
          (stages (fun t log => (Trial.perform t log).1) gaps log) taken) ∧
    ∀ {L : Type} [LocalLog L] (c : Cursor) (logs : List L), c.Ends logs := by
  refine ⟨fun before log ran => ?_, fun settings d fresh regular opened trials log answers modest ran
    room => ?_, Cursor.ends⟩
  · have counted : log.Counted := by
      subst ran
      refine List.foldlRecOn before _ ⟨⟨rfl, rfl⟩, Nat.le_refl 1⟩ ?_
      exact fun log counted offered _ => (counted.offer offered).1
    refine ⟨counted.legible.paged, fun gaps good start size => ?_⟩
    have lengthening := lengthening_stages VolatileLog.Keeps.adds VolatileLog.Keeps.legible good
      ⟨counted, rfl⟩
    exact lengthening.gives (Cursor.onward_start start size)
  · obtain ⟨parts, backed, -⟩ := SegmentLog.backed_of_recover regular opened
    obtain ⟨parts', backed'⟩ := (backed.performAll modest ran room).backed
    refine ⟨backed'.legible.paged, fun gaps good room start size => ?_⟩
    have lengthening := lengthening_stages SegmentLog.Roomy.adds SegmentLog.Roomy.legible good
      ⟨parts', backed', rfl, room⟩
    exact lengthening.gives (Cursor.onward_start start size)

/-- Calls in the gaps before five steps. The first append fails, and the last one comes too late. -/
def meanwhile : List (List Trial) :=
  [[], [⟨.append [100] none, { write := some (5, noSpace) }⟩], [⟨.append [100] none, .sound⟩], [],
    [⟨.append [101] none, .sound⟩]]

/-- A log with two entries is read by pages of one entry, and gets a third one on the way. -/
theorem paged_meanwhile : ∃ log answers,
    Trial.performAll interrupted ⟨SegmentLog.narrow, {}, [], none, 0⟩ = (log, answers) ∧ Paged log ∧
    (∃ taken, (Cursor.start 0 1).Gives (LocalLog.oldest log)
      (stages (fun t log => (Trial.perform t log).1) meanwhile log) taken) ∧
    (Cursor.start 0 1).watch (stages (fun t log => (Trial.perform t log).1) meanwhile log) =
      [some (.ok ⟨1, [97], none⟩), some (.ok ⟨2, [99], none⟩), some (.ok ⟨3, [100], none⟩),
        none, none] := by
  have regular : SegmentLog.Regular {} := SegmentLog.regular_of_files (by simp)
  have opened : SegmentLog.recover SegmentLog.narrow {} = .ok ⟨SegmentLog.narrow, {}, [], none, 0⟩ :=
    SegmentLog.recover_empty (by decide) rfl
  obtain ⟨paged, gives⟩ := cursors_page_through.2.1 _ _ _ regular opened interrupted _ _ (by decide)
    (Prod.eta _).symm (by decide +kernel)
  exact ⟨_, _, rfl, paged, gives meanwhile (by decide) (by decide +kernel) 0 1, by decide +kernel⟩

/-- A stored log with two entries. -/
def pair : SegmentLog :=
  (Trial.performAll [⟨.append [97] none, .sound⟩, ⟨.append [98] none, .sound⟩]
    ⟨.standard, {}, [], none, 0⟩).1

/-- Its file with another last byte. -/
def spoiled : Directory where
  nodes := [(SegmentName.ofBase 1, .file (Record.encode ⟨1, [97], none⟩ ++
    (Record.encode ⟨2, [98], none⟩).dropLast ++ [0]))]

/-- If somebody changes a byte of the second entry while the log is open, a read of both entries fails. By
pages of one entry, the first is given before the failure. -/
theorem pages_of_spoiled_differ :
    (Change.write 35 [0]).apply (SegmentName.ofBase 1) pair.directory = .ok spoiled ∧
    LocalLog.read { pair with directory := spoiled } 1 2 = .error (.log (.checksum 2)) ∧
    ((Cursor.start 1 2).drain { pair with directory := spoiled }).2 = [.error (.log (.checksum 2))] ∧
    ((Cursor.start 1 1).drain { pair with directory := spoiled }).2 =
      [.ok ⟨1, [97], none⟩, .error (.log (.checksum 2))] := by
  refine ⟨?_, ?_, ?_, ?_⟩ <;> decide +kernel

end QuorumLog
