import QuorumLog.Proofs.DamagedRecords
import QuorumLog.Proofs.TornTail

/-! A log of which one byte of one file was changed by someone else. When the directory is opened again,
the entries that come back are those that were stored, with the changed one and all behind it missing,
or the log is refused. -/

namespace QuorumLog

namespace Segment

variable {s : Segment} {es : List Entry} {d : Directory} {bytes rest : Bytes}

/-- A segment that is not the last one is refused if its file has more than its records. -/
theorem recover_of_spoiled (path : String) (stores : s.Stores es) (unread : Record.Unread rest)
    (file : d.get? s.name = some (.file (Record.encodeAll es ++ rest))) (some : rest ≠ []) :
    ∃ fault, recover path d s.base false = .error fault := by
  have bytes := Directory.read_of_file file 0
  have length := Directory.length_of_file file
  rw [List.drop_zero] at bytes
  rw [List.length_append] at length
  have fills : d.length s.name = 0 + (Record.encodeAll es).length + rest.length := by omega
  obtain ⟨ending, scan, complete⟩ :=
    SegmentScan.run_encodeAll stores.fits stores.numbered unread fills
  have called : SegmentName.ofBase s.base = s.name := rfl
  unfold recover
  simp only [called, bytes, scan]
  cases ending with
  | complete => exact absurd (complete.mpr rfl) some
  | stray expected actual => exact ⟨_, rfl⟩
  | broken cause => exact ⟨_, rfl⟩

/-- A segment that is not the last one is recovered as it was, or refused. -/
theorem recover_of_legible (path : String) (holds : s.Holds es) {whole : Nat}
    (legible : Record.Legible bytes es whole rest) (file : d.get? s.name = some (.file bytes)) :
    (bytes = Record.encodeAll es ∧ (∀ e ∈ es, Record.Fits e) ∧
        recover path d s.base false = .ok (d, s)) ∨
      ∃ fault, recover path d s.base false = .error fault := by
  by_cases none : rest = []
  · have all := legible.ends none
    have shape := legible.bytes
    have fits := legible.fits
    rw [all, List.take_length] at shape fits
    rw [none, List.append_nil] at shape
    rw [shape, ← List.append_nil (Record.encodeAll es)] at file
    obtain ⟨d', recovered, -, same⟩ := recover_of_file path false (holds.stores fits) (.inl rfl) file
      (fun _ => rfl)
    rw [same rfl] at recovered
    exact .inl ⟨shape, fits, recovered⟩
  · rw [legible.bytes] at file
    have stores := (SegmentLog.shorten_holds holds whole).stores legible.fits
    obtain ⟨fault, refused⟩ := recover_of_spoiled path stores legible.unread file none
    exact .inr ⟨fault, refused⟩

/-- The record of an offset has the byte at a position of the file of a segment: it starts there or
before, and the next one, or the end of the segment, is behind. -/
def HasByte (s : Segment) (offset position : Nat) : Prop :=
  ∃ i start, offset = s.base + i ∧ s.positions[i]? = some start ∧ start ≤ position ∧
    position < (s.positions[i + 1]?).getD s.length

/-- The record that has a changed byte is none of those that are read. -/
theorem Holds.hasByte_of_changed (holds : s.Holds es) {position whole : Nat} {byte : UInt8}
    (legible : Record.Legible ((Record.encodeAll es).set position byte) es whole rest)
    (changed : (Record.encodeAll es).set position byte ≠ Record.encodeAll es) :
    ∃ i < es.length, whole ≤ i ∧ s.HasByte (s.base + i) position := by
  have inside : position < (Record.encodeAll es).length :=
    Nat.lt_of_not_le fun beyond => changed (List.set_eq_of_length_le beyond)
  obtain ⟨i, within, starts, ends⟩ := Record.exists_around inside
  refine ⟨i, within, ?_, i, _, rfl, ?_, starts, ?_⟩
  · apply Nat.le_of_not_lt
    intro later
    have before := legible.ends_before changed
    have longer := Record.length_encodeAll_take_le (show i + 1 ≤ whole from later) es
    omega
  · rw [holds.positions, Record.getElem?_starts (List.getElem?_eq_getElem within), Nat.zero_add]
  · rw [holds.positions, holds.length]
    by_cases more : i + 1 < es.length
    · rw [Record.getElem?_starts (List.getElem?_eq_getElem more), Nat.zero_add]
      exact ends
    · rw [List.getElem?_eq_none (by rw [Record.length_starts]; omega)]
      exact inside

end Segment

namespace SegmentLog

variable {d : Directory} {log after : SegmentLog} {history : List Entry} {s : Segment} {e : Entry}
variable {es : List Entry} {parts front init : List Part} {settings : StoreSettings}

/-! ### Recovery of files that are read only in part -/

/-- The file of a segment begins with the records of its first entries, and nothing is read behind
them. -/
def Seen (d : Directory) (p : Part) : Prop :=
  ∃ bytes whole rest, d.get? p.1.name = some (.file bytes) ∧ Record.Legible bytes p.2 whole rest

/-- The file of a segment has its records, and a record can hold each of its entries. -/
def Sane (d : Directory) (p : Part) : Prop :=
  d.get? p.1.name = some (.file (Record.encodeAll p.2)) ∧ ∀ e ∈ p.2, Record.Fits e

/-- If one of several segments is not as it was, and more follow, the log is refused. -/
theorem recoverSegments_refused (path : String) (segments : List Segment) (highest : Nat)
    {later : List Nat} (more : later ≠ []) (holds : ∀ p ∈ front, p.1.Holds p.2)
    (seen : ∀ p ∈ front, Seen d p) (broken : ¬∀ p ∈ front, Sane d p) :
    ∃ fault, recoverSegments path d segments highest (front.map (·.1.base) ++ later) =
      .error fault := by
  induction front generalizing segments highest with
  | nil => exact absurd (by simp) broken
  | cons p front ih =>
    obtain ⟨here, behind⟩ := List.forall_mem_cons.mp holds
    obtain ⟨⟨bytes, whole, rest, file, legible⟩, seen⟩ := List.forall_mem_cons.mp seen
    rw [List.map_cons, List.cons_append, recoverSegments]
    by_cases gap : highest ≠ 0 ∧ p.1.base ≠ highest + 1
    · exact ⟨_, if_pos gap⟩
    have follows : (front.map (·.1.base) ++ later).isEmpty = false := by simp [more]
    rw [if_neg gap, follows]
    rcases Segment.recover_of_legible path here legible file with ⟨same, fits, recovered⟩ | refused
    · rw [recovered]
      refine ih _ _ behind seen fun sane => broken (List.forall_mem_cons.mpr ⟨⟨?_, fits⟩, sane⟩)
      rw [file, same]
    · obtain ⟨fault, refused⟩ := refused
      rw [refused]
      exact ⟨fault, rfl⟩

theorem recover_refused {later : List Nat} (more : later ≠ [])
    (known : bases d = front.map (·.1.base) ++ later) (holds : ∀ p ∈ front, p.1.Holds p.2)
    (seen : ∀ p ∈ front, Seen d p) (broken : ¬∀ p ∈ front, Sane d p) :
    ∃ fault, recover settings d = .error fault := by
  unfold recover
  by_cases unsized : settings.segmentSize = 0
  · exact ⟨_, if_pos unsized⟩
  obtain ⟨fault, refused⟩ := recoverSegments_refused settings.path [] 0 more holds seen broken
  rw [if_neg unsized, known, refused]
  exact ⟨fault, rfl⟩

/-! ### Entries of any size -/

/-- A log whose files have the end of all entries that were ever stored in it, whatever their size. -/
structure Recounts (log : SegmentLog) (history : List Entry) (parts : List Part) : Prop where
  recorded : log.Recorded parts
  findable : log.Findable
  numbered : history.map Entry.offset = List.range' 1 history.length
  ends : log.highest = history.length
  retains : parts.flatMap (·.2) <:+ history

theorem Follows.recounts (follows : log.Follows history) : ∃ parts, log.Recounts history parts := by
  obtain ⟨parts, filed⟩ := follows.sound
  exact ⟨parts, filed.recorded, follows.findable, follows.numbered, follows.ends,
    filed.entries ▸ follows.retains⟩

/-- The next entry goes behind the others. -/
theorem Recounts.store (recounts : log.Recounts history parts) (next : e.offset = log.highest + 1) :
    ∃ after, log.store .sound e = (after, .ok ()) ∧
      (e.offset < UInt64.size → ∃ parts', after.Recounts (history ++ [e]) parts') := by
  obtain ⟨after, parts', stored, ends, more, recorded⟩ := recounts.recorded.store next
  refine ⟨after, stored, fun bound => ⟨parts', recorded, recounts.findable.store bound stored, ?_, ?_,
    ?_⟩⟩
  · exact numbered_snoc recounts.numbered (recounts.ends ▸ next)
  · rw [ends, next, recounts.ends, List.length_append, List.length_singleton]
  · obtain ⟨gone, split⟩ := recounts.retains
    exact ⟨gone, by rw [more, ← List.append_assoc, split]⟩

end SegmentLog

/-- Whether a call may store an entry. -/
def Call.appends : Call → Bool
  | .append _ _ | .appendEntry _ => true
  | _ => false

namespace SegmentLog

variable {d : Directory} {log after : SegmentLog} {history : List Entry} {s : Segment} {e : Entry}
variable {es : List Entry} {parts front init : List Part} {settings : StoreSettings}
variable {call : Call} {calls : List Call} {answer : Answer} {answers : List Answer}

/-- An append of any size is recounted. -/
theorem Recounts.perform (recounts : log.Recounts history parts) (appends : call.appends = true)
    (ran : call.perform SegmentLog.reopen log = (after, answer))
    (room : (history ++ (call.stored? answer).toList).length < UInt64.size) :
    ∃ parts', after.Recounts (history ++ (call.stored? answer).toList) parts' := by
  have ends := recounts.ends
  cases call with
  | append payload metadata =>
    obtain ⟨next, stored, keeps⟩ :=
      recounts.store (e := ⟨log.highest + 1, payload, metadata⟩) rfl
    have appended : LocalLog.append log payload metadata = (next, .ok (log.highest + 1)) := by
      show log.append .sound payload metadata = _
      rw [SegmentLog.append, stored]
      rfl
    simp only [Call.perform, appended] at ran
    cases ran
    simp only [Call.stored?, Option.toList_some, List.length_append, List.length_singleton] at room
    exact keeps (by rw [ends]; exact room)
  | appendEntry e =>
    by_cases comes : e.offset = log.highest + 1
    · obtain ⟨next, stored, keeps⟩ := recounts.store comes
      have taken : LocalLog.appendEntry log e = (next, .ok ()) := by
        show log.appendEntry .sound e = _
        rw [SegmentLog.appendEntry, if_neg (not_not_intro comes), stored]
      simp only [Call.perform, taken] at ran
      cases ran
      simp only [Call.stored?, Option.toList_some, List.length_append, List.length_singleton] at room
      exact keeps (by rw [comes, ends]; exact room)
    · simp only [Call.perform, log.appendEntry_of_apart comes] at ran
      cases ran
      exact ⟨parts, (List.append_nil history).symm ▸ recounts⟩
  | purge offset => cases appends
  | reopen segmentSize => cases appends
  | read start limit => cases appends
  | highest => cases appends
  | oldest => cases appends

/-- Appends of any size are recounted. -/
theorem Recounts.performAll (recounts : log.Recounts history parts)
    (appends : ∀ call ∈ calls, call.appends = true)
    (ran : Call.performAll SegmentLog.reopen calls log = (after, answers))
    (room : (history ++ Call.history calls answers).length < UInt64.size) :
    ∃ parts', after.Recounts (history ++ Call.history calls answers) parts' := by
  induction calls generalizing log history answers parts with
  | nil =>
    obtain ⟨rfl, rfl⟩ := Prod.mk.inj ran
    rw [Call.history, List.zip_nil_left, List.filterMap_nil, List.append_nil]
    exact ⟨parts, recounts⟩
  | cons call later ih =>
    obtain ⟨now, rest⟩ := List.forall_mem_cons.mp appends
    cases first : call.perform SegmentLog.reopen log with
    | mk next answer =>
    cases others : Call.performAll SegmentLog.reopen later next with
    | mk last further =>
    simp only [Call.performAll, first, others] at ran
    cases ran
    rw [Call.history_cons, ← List.append_assoc] at room ⊢
    have enough : (history ++ (call.stored? answer).toList).length < UInt64.size := by
      rw [List.length_append] at room
      omega
    obtain ⟨parts', recounts'⟩ := recounts.perform now first enough
    exact ih recounts' rest others room

/-- A log in step with its history goes on to be recounted. -/
theorem Follows.performAll_appends {appends : List Call} (follows : log.Follows history)
    (modest : ∀ call ∈ calls, call.Modest) (plain : ∀ call ∈ appends, call.appends = true)
    (ran : Call.performAll SegmentLog.reopen (calls ++ appends) log = (after, answers))
    (room : (history ++ Call.history (calls ++ appends) answers).length < UInt64.size) :
    ∃ parts, after.Recounts (history ++ Call.history (calls ++ appends) answers) parts := by
  induction calls generalizing log history answers with
  | nil =>
    obtain ⟨parts, recounts⟩ := follows.recounts
    exact recounts.performAll plain ran room
  | cons call later ih =>
    obtain ⟨now, rest⟩ := List.forall_mem_cons.mp modest
    cases first : call.perform SegmentLog.reopen log with
    | mk next answer =>
    cases others : Call.performAll SegmentLog.reopen (later ++ appends) next with
    | mk last further =>
    simp only [List.cons_append, Call.performAll, first, others] at ran
    cases ran
    rw [List.cons_append, Call.history_cons, ← List.append_assoc] at room ⊢
    have enough : (history ++ (call.stored? answer).toList).length < UInt64.size := by
      rw [List.length_append] at room
      omega
    exact ih (follows.perform now first enough) rest others room

/-- The oldest offset tells how many entries are gone. -/
theorem Recounts.retained (recounts : log.Recounts history parts) :
    parts.flatMap (·.2) = history.drop (log.oldest - 1) := by
  obtain ⟨-, span, positive⟩ := recounts.recorded.numbered
  obtain ⟨gone, split⟩ := recounts.retains
  have ends := recounts.ends
  rw [← split, List.length_append] at ends
  rw [← split, List.drop_left' (by omega)]

/-- An entry of a segment stands in the history at its offset. -/
theorem Recounts.place (recounts : log.Recounts history parts) {p : Part} (held : p ∈ parts)
    (member : e ∈ p.2) : history[e.offset - 1]? = some e ∧ e.offset ≤ history.length := by
  have known := recounts.retains.subset (List.mem_flatMap.mpr ⟨p, held, member⟩)
  obtain ⟨positive, place⟩ := place_of_numbered recounts.numbered known
  have within := (List.getElem?_eq_some_iff.mp place).1
  exact ⟨place, by omega⟩

/-! ### One changed byte -/

/-- In no file of a log the header of a record, if it claims another length than that of the entry, has
the checksum of so many bytes. Only a header of which the length was changed may be such one, or that of
a body of which the length has more than 32 bits. -/
def Unmistaken (log : SegmentLog) (history : List Entry) (d : Directory) : Prop :=
  ∀ s ∈ log.segments, ∀ i start e, s.positions[i]? = some start →
    history[s.base + i - 1]? = some e → ∀ bytes, d.read s.name start = .ok bytes →
      ¬Record.Mistaken e bytes

/-- The file of a segment is read up to the changed byte at least if no header is mistaken. -/
theorem Recounts.seen (recounts : log.Recounts history parts) (room : history.length < UInt64.size)
    (clear : log.Unmistaken history d) {p : Part} (held : p ∈ parts) {position : Nat} {byte : UInt8}
    (file : d.get? p.1.name = some (.file ((Record.encodeAll p.2).set position byte))) : Seen d p := by
  have holds := recounts.recorded.holds p held
  have bounded : ∀ e ∈ p.2, e.offset < UInt64.size := fun e member =>
    Nat.lt_of_le_of_lt (recounts.place held member).2 room
  obtain ⟨whole, rest, legible⟩ := Record.exists_legible bounded position byte fun i e place => by
    have known : p.1 ∈ log.segments := recounts.recorded.segments ▸ List.mem_map_of_mem held
    have offset := offset_of_numbered holds.numbered place
    have recalled := (recounts.place held (List.mem_of_getElem? place)).1
    rw [offset] at recalled
    refine clear p.1 known i _ e ?_ recalled _ (Directory.read_of_file file _)
    rw [holds.positions, Record.getElem?_starts place, Nat.zero_add]
  exact ⟨_, whole, rest, file, legible⟩

/-- What becomes of a log when its directory, with the byte at a position of the file of a segment `s`
changed, is opened again. -/
structure Guarded (log : SegmentLog) (history : List Entry) (s : Segment) (position : Nat)
    (settings : StoreSettings) (damaged : Directory) : Prop where
  /-- Any segment but the last one has to be whole. -/
  refused : log.segments.getLast? ≠ some s → ∃ fault, recover settings damaged = .error fault
  /-- A change of the last segment does not keep the log from being opened. -/
  opened : log.segments.getLast? = some s → ∀ intact, recover settings log.directory = .ok intact →
    ∃ after, recover settings damaged = .ok after
  /-- The retained entries come back from the oldest one on, and end before the one whose record was
  changed. -/
  begins (after : SegmentLog) : recover settings damaged = .ok after →
    after.entries <+: history.drop (log.oldest - 1) ∧
      ∃ offset ≤ LocalLog.highest log, s.HasByte offset position ∧ LocalLog.highest after < offset
  /-- Whoever reads gets entries that were stored at their offsets. -/
  served (after : SegmentLog) : recover settings damaged = .ok after → ∀ start limit,
    ∃ found, LocalLog.read after start limit = .ok found ∧
      ∀ e ∈ found, history[e.offset - 1]? = some e
  /-- The log goes on as one of the entries that came back. -/
  describes (after : SegmentLog) : recover settings damaged = .ok after →
    after.Describes (history.take (LocalLog.highest after))

/-- A log whose entries before the end are described serves what was stored. -/
theorem Describes.served {count : Nat} (describes : after.Describes (history.take count))
    (start limit : Nat) : ∃ found, LocalLog.read after start limit = .ok found ∧
      ∀ e ∈ found, history[e.offset - 1]? = some e := by
  refine ⟨_, describes.read start limit, fun e given => ?_⟩
  have held := (List.mem_filter.mp (List.mem_of_mem_take given)).1
  rw [describes.retained] at held
  have place := (place_of_numbered describes.numbered (List.mem_of_mem_drop held)).2
  rw [List.getElem?_take] at place
  split at place
  · exact place
  · cases place

/-- The last segment is cut in front of what was changed. -/
theorem Recounts.cut (recounts : log.Recounts history (init ++ [(s, es)]))
    (sized : 1 ≤ settings.segmentSize) (fits : ∀ p ∈ init, ∀ e ∈ p.2, Record.Fits e)
    {bytes rest : Bytes} {whole : Nat} (legible : Record.Legible bytes es whole rest)
    (less : whole < es.length) :
    ∃ after, recover settings (log.directory.put s.name (.file bytes)) = .ok after ∧
      after.entries <+: history.drop (log.oldest - 1) ∧
      LocalLog.highest after + 1 = s.base + whole ∧
      after.Describes (history.take (LocalLog.highest after)) := by
  have recorded := recounts.recorded
  have remains := recorded.remains_of_last recounts.findable fits legible.bytes legible.fits
    legible.unread
  obtain ⟨after, recovered, -, filed, cut, -⟩ := recover_of_remains (Nat.ne_of_gt sized) remains
  have entries := filed.entries_of_last
  have split : (init ++ [(s, es)]).flatMap (·.2) =
      (init.flatMap (·.2) ++ es.take whole) ++ es.drop whole := by
    rw [List.flatMap_append, List.flatMap_singleton, List.append_assoc, List.take_append_drop]
  have limit := recorded.ends_of_last
  have limit' : s.base + (es.take whole).length = after.highest + 1 := filed.recorded.ends_of_last
  rw [List.length_take, Nat.min_eq_left legible.within] at limit'
  have follows := follows_of_cut (remains.findable filed cut.names) ⟨_, filed⟩ recounts.numbered
    entries (split ▸ recounts.retains) (by
      rw [List.length_drop, ← recounts.ends]
      omega)
  refine ⟨after, recovered, ?_, ?_, follows.describes⟩
  · rw [entries, ← recounts.retained, split]
    exact List.prefix_append ..
  · exact limit'.symm

theorem Recorded.eq_of_name (recorded : log.Recorded parts) {p q : Part} (held : p ∈ parts)
    (other : q ∈ parts) (same : q.1.name = p.1.name) : q = p := by
  have ascending := ascending_of_joined recorded.holds recorded.joined
  have distinct : (parts.map (·.1.base)).Nodup := ascending.imp fun less => Nat.ne_of_lt less
  exact List.inj_on_of_nodup_map distinct other held (SegmentName.ofBase_injective same)

section Changed

variable {p : Part} {position : Nat} {byte : UInt8} {damaged : Directory}

/-- One file has another byte, and the other files are as they were. -/
theorem Recounts.seen_all (recounts : log.Recounts history parts)
    (room : history.length < UInt64.size) (held : p ∈ parts)
    (put : damaged = log.directory.put p.1.name (.file ((Record.encodeAll p.2).set position byte)))
    (clear : log.Unmistaken history damaged) : ∀ q ∈ parts, Seen damaged q := by
  intro q other
  by_cases same : q.1.name = p.1.name
  · obtain rfl := recounts.recorded.eq_of_name held other same
    apply recounts.seen room clear held
    rw [put, Directory.get?_put, if_pos rfl]
  · have file := recounts.recorded.files q other
    have intact : (Record.encodeAll q.2).set (Record.encodeAll q.2).length 0 = Record.encodeAll q.2 :=
      List.set_eq_of_length_le (Nat.le_refl _)
    rw [← intact] at file
    apply recounts.seen room clear other
    rw [put, Directory.get?_put, if_neg same]
    exact file

theorem Recounts.bases (recounts : log.Recounts history parts)
    (names : d.names = log.directory.names) : bases d = parts.map (·.1.base) := by
  have recorded := recounts.recorded
  apply bases_of_names
  · exact names ▸ recounts.findable.distinct
  · exact names ▸ recorded.mem_names
  · exact recorded.holds
  · exact recorded.joined
  · exact recorded.positive
  · exact recorded.small recounts.findable

theorem Recorded.names_put (recorded : log.Recorded parts) (held : p ∈ parts) (node : FileNode) :
    (log.directory.put p.1.name node).names = log.directory.names := by
  rw [Directory.names_put, if_pos (Directory.mem_names_of_get? (recorded.files p held))]

/-- A log is not opened if one of its segments is spoiled and not the last. -/
theorem Recounts.refuses (recounts : log.Recounts history (init ++ [(s, es)]))
    (names : d.names = log.directory.names) (seen : ∀ q ∈ init, Seen d q)
    (spoiled : ¬∀ q ∈ init, Sane d q) : ∃ fault, recover settings d = .error fault := by
  have known := recounts.bases names
  rw [List.map_append] at known
  have holds : ∀ q ∈ init, q.1.Holds q.2 := fun q before =>
    recounts.recorded.holds q (List.mem_append_left _ before)
  exact recover_refused (by simp) known holds seen spoiled

/-- Nothing comes back from a directory that is not opened. If the last segment was changed, it must
not have been opened before, either. -/
theorem guarded_of_refused {fault : Fault} (refused : recover settings damaged = .error fault)
    (before : log.segments.getLast? = some s →
      ∃ fault', recover settings log.directory = .error fault') :
    log.Guarded history s position settings damaged := by
  constructor
  case refused => exact fun _ => ⟨fault, refused⟩
  case opened =>
    intro last intact recovered
    obtain ⟨fault', refused'⟩ := before last
    rw [refused'] at recovered
    cases recovered
  all_goals
    intro after recovered
    rw [refused] at recovered
    cases recovered

/-- A change of a segment that is not the last one is found when the log is opened. -/
theorem Recounts.guarded_early (recounts : log.Recounts history (init ++ [(s, es)]))
    (room : history.length < UInt64.size) (held : p ∈ init)
    (put : damaged = log.directory.put p.1.name (.file ((Record.encodeAll p.2).set position byte)))
    (changed : (Record.encodeAll p.2).set position byte ≠ Record.encodeAll p.2)
    (clear : log.Unmistaken history damaged) : log.Guarded history p.1 position settings damaged := by
  have recorded := recounts.recorded
  have member : p ∈ init ++ [(s, es)] := List.mem_append_left _ held
  have seen := recounts.seen_all room member put clear
  have names : damaged.names = log.directory.names := put ▸ recorded.names_put member _
  have spoiled : ¬∀ q ∈ init, Sane damaged q := by
    intro sane
    have file := (sane p held).1
    rw [put, Directory.get?_put, if_pos rfl] at file
    exact changed (FileNode.file.inj (Option.some.inj file))
  obtain ⟨fault, refused⟩ :=
    recounts.refuses names (fun q before => seen q (List.mem_append_left _ before)) spoiled
  apply guarded_of_refused refused
  intro last
  have tail : s = p.1 := by simpa [recorded.segments] using last
  have apart := name_of_last recorded.holds recorded.joined p held
  exact absurd (congrArg Segment.name tail.symm) apart

/-- A change of the last segment costs what was stored from there on, if the others are whole. -/
theorem Recounts.guarded_cut (recounts : log.Recounts history (init ++ [(s, es)]))
    (room : history.length < UInt64.size) (sized : 1 ≤ settings.segmentSize)
    (fits : ∀ q ∈ init, ∀ e ∈ q.2, Record.Fits e)
    (put : damaged = log.directory.put s.name (.file ((Record.encodeAll es).set position byte)))
    (changed : (Record.encodeAll es).set position byte ≠ Record.encodeAll es)
    (clear : log.Unmistaken history damaged) : log.Guarded history s position settings damaged := by
  have recorded := recounts.recorded
  have member : (s, es) ∈ init ++ [(s, es)] := List.mem_append_right _ List.mem_cons_self
  obtain ⟨bytes, whole, rest, file, legible⟩ := recounts.seen_all room member put clear _ member
  have content : bytes = (Record.encodeAll es).set position byte := by
    rw [put, Directory.get?_put, if_pos rfl] at file
    cases file
    rfl
  subst content
  have holds : s.Holds es := recorded.holds _ member
  obtain ⟨i, within, first, has⟩ := holds.hasByte_of_changed legible changed
  obtain ⟨after, recovered, begins, ends, describes⟩ :=
    recounts.cut sized fits legible (Nat.lt_of_le_of_lt first within)
  rw [← put] at recovered
  have limit := recorded.ends_of_last
  have top : s.base + i ≤ LocalLog.highest log := by
    show s.base + i ≤ log.highest
    omega
  have only {after' : SegmentLog} (recovered' : recover settings damaged = .ok after') :
      after' = after := Except.ok.inj (recovered'.symm.trans recovered)
  have last : log.segments.getLast? = some s := by simp [recorded.segments]
  constructor
  case refused => exact fun other => absurd last other
  case opened => exact fun _ _ _ => ⟨after, recovered⟩
  case begins =>
    intro _ recovered'
    rw [only recovered']
    exact ⟨begins, s.base + i, top, has, by omega⟩
  case served => exact fun _ recovered' => only recovered' ▸ describes.served
  case describes => exact fun _ recovered' => only recovered' ▸ describes

/-- A change of the last segment is guarded, whether or not the log was opened before it. -/
theorem Recounts.guarded_last (recounts : log.Recounts history (init ++ [(s, es)]))
    (room : history.length < UInt64.size) (sized : 1 ≤ settings.segmentSize)
    (put : damaged = log.directory.put s.name (.file ((Record.encodeAll es).set position byte)))
    (changed : (Record.encodeAll es).set position byte ≠ Record.encodeAll es)
    (clear : log.Unmistaken history damaged) : log.Guarded history s position settings damaged := by
  by_cases sane : ∀ q ∈ init, Sane log.directory q
  · exact recounts.guarded_cut room sized (fun q before => (sane q before).2) put changed clear
  have recorded := recounts.recorded
  have member : (s, es) ∈ init ++ [(s, es)] := List.mem_append_right _ List.mem_cons_self
  have names : damaged.names = log.directory.names := put ▸ recorded.names_put member _
  have seen : ∀ q ∈ init, Seen damaged q := fun q before =>
    recounts.seen_all room member put clear q (List.mem_append_left _ before)
  have same : ∀ q ∈ init, damaged.get? q.1.name = log.directory.get? q.1.name := by
    intro q before
    rw [put, Directory.get?_put, if_neg (name_of_last recorded.holds recorded.joined q before)]
  have seen' : ∀ q ∈ init, Seen log.directory q := by
    intro q before
    obtain ⟨bytes, whole, rest, file, legible⟩ := seen q before
    exact ⟨bytes, whole, rest, same q before ▸ file, legible⟩
  have spoiled : ¬∀ q ∈ init, Sane damaged q := by
    refine fun all => sane fun q before => ?_
    obtain ⟨file, fits⟩ := all q before
    exact ⟨same q before ▸ file, fits⟩
  obtain ⟨fault, refused⟩ := recounts.refuses names seen spoiled
  exact guarded_of_refused refused fun _ => recounts.refuses rfl seen' sane

end Changed

/-- One byte over another one. -/
theorem overwritten_byte {bytes : Bytes} {position : Nat} (inside : position < bytes.length)
    (byte : UInt8) : Change.overwritten position [byte] bytes = bytes.set position byte := by
  have long : (bytes.take position).length = position := by
    rw [List.length_take]
    omega
  have front : Directory.fitted position (bytes.take position) = bytes.take position := by
    rw [Directory.fitted_of_le (by omega), List.take_take, Nat.min_self]
  rw [Change.overwritten, front, List.set_eq_take_append_cons_drop, if_pos inside]
  simp

theorem apply_write_byte {name : String} {bytes : Bytes} (file : d.get? name = some (.file bytes))
    {position : Nat} (inside : position < bytes.length) (byte : UInt8) :
    (Change.write position [byte]).apply name d =
      .ok (d.put name (.file (bytes.set position byte))) := by
  simp only [Change.apply, Change.onFile, Directory.follow_of_file file,
    Directory.modifyFile_of_file _ file, overwritten_byte inside]

/-- A log starts in an empty directory, is used in any way, and then takes more entries, of any size.
If someone then changes one byte of one of its files, what comes back is what was stored, up to the
change at most, unless the change makes a header claim another length for which its checksum happens
to hold. -/
theorem guarded_runs (settings later : StoreSettings) (sized : 1 ≤ settings.segmentSize)
    (sized' : 1 ≤ later.segmentSize) (calls : List Call) (modest : ∀ call ∈ calls, call.Modest)
    (appends : List Call) (plain : ∀ call ∈ appends, call.appends = true) :
    ∃ fresh log answers, recover settings {} = .ok fresh ∧
      Call.performAll SegmentLog.reopen (calls ++ appends) fresh = (log, answers) ∧
      ((Call.history (calls ++ appends) answers).length < UInt64.size → ∀ s ∈ log.segments,
        ∃ bytes, log.directory.get? s.name = some (.file bytes) ∧
          ∀ position < bytes.length, ∀ byte, bytes[position]? ≠ some byte → ∃ damaged,
            (Change.write position [byte]).apply s.name log.directory = .ok damaged ∧
            damaged = log.directory.put s.name (.file (bytes.set position byte)) ∧
            (log.Unmistaken (Call.history (calls ++ appends) answers) damaged →
              log.Guarded (Call.history (calls ++ appends) answers) s position later damaged)) := by
  refine ⟨_, _, _, recover_empty (Nat.ne_of_gt sized) rfl, rfl, fun room s known => ?_⟩
  obtain ⟨parts, recounts⟩ := (follows_fresh settings).performAll_appends modest plain rfl room
  rw [List.nil_append] at recounts
  have recorded := recounts.recorded
  rw [recorded.segments] at known
  obtain ⟨p, held, rfl⟩ := List.mem_map.mp known
  have file := recorded.files p held
  refine ⟨_, file, fun position inside byte differs =>
    ⟨_, apply_write_byte file inside byte, rfl, fun clear => ?_⟩⟩
  have changed : (Record.encodeAll p.2).set position byte ≠ Record.encodeAll p.2 := by
    intro same
    apply differs
    rw [← same, List.getElem?_set_self inside]
  rcases List.eq_nil_or_concat' parts with rfl | ⟨init, ⟨s, es⟩, rfl⟩
  · cases held
  rcases List.mem_append.mp held with early | last
  · exact recounts.guarded_early room early rfl changed clear
  · obtain rfl := List.mem_singleton.mp last
    exact recounts.guarded_last room sized' rfl changed clear

/-- The second of three records in a segment gets another payload. -/
theorem guarded_mixed : ∃ fresh log answers damaged, recover narrow {} = .ok fresh ∧
    Call.performAll SegmentLog.reopen (mixedCalls ++ [.append [101] none]) fresh = (log, answers) ∧
    (Change.write 40 [0]).apply (SegmentName.ofBase 2) log.directory = .ok damaged ∧
    log.Guarded [⟨1, [97], none⟩, ⟨2, [98], some [99]⟩, ⟨3, [100], none⟩, ⟨4, [101], none⟩]
      ⟨2, [0, 23, 41], 59⟩ 40 narrow damaged := by
  obtain ⟨fresh, log, answers, opened, ran, told⟩ := guarded_runs narrow narrow (by decide) (by decide)
    mixedCalls (by decide) [.append [101] none] (by decide)
  obtain rfl := Except.ok.inj ((recover_empty (by decide) rfl).symm.trans opened)
  obtain ⟨left, given⟩ := Prod.ext_iff.mp ran
  dsimp only at left given
  have stored : Call.history (mixedCalls ++ [.append [101] none]) answers =
      [⟨1, [97], none⟩, ⟨2, [98], some [99]⟩, ⟨3, [100], none⟩, ⟨4, [101], none⟩] := by
    rw [← given]
    decide +kernel
  have segments : log.segments = [⟨2, [0, 23, 41], 59⟩] := by
    rw [← left]
    decide +kernel
  have content : log.directory.get? (SegmentName.ofBase 2) = some (.file (Record.encodeAll
      [⟨2, [98], some [99]⟩, ⟨3, [100], none⟩, ⟨4, [101], none⟩])) := by
    rw [← left]
    decide +kernel
  rw [stored] at told
  obtain ⟨bytes, file, changes⟩ := told (by decide) ⟨2, [0, 23, 41], 59⟩ (by simp [segments])
  obtain rfl := FileNode.file.inj (Option.some.inj (file.symm.trans content))
  obtain ⟨damaged, applied, put, guarded⟩ := changes 40 (by decide) 0 (by decide)
  refine ⟨_, log, answers, damaged, opened, ran, applied, guarded ?_⟩
  -- Every header still claims the length of its record.
  intro s known i start e place recalled seen read mistaken
  rw [segments] at known
  obtain rfl := List.mem_singleton.mp known
  have written : damaged.get? (SegmentName.ofBase 2) = some (.file ((Record.encodeAll
      [⟨2, [98], some [99]⟩, ⟨3, [100], none⟩, ⟨4, [101], none⟩]).set 40 0)) := by
    rw [put, Directory.get?_put]
    exact if_pos rfl
  obtain rfl := Except.ok.inj ((Directory.read_of_file written start).symm.trans read)
  have length := mistaken.length
  match i, place, recalled with
  | 0, place, recalled =>
    cases place
    cases recalled
    exact length (by decide)
  | 1, place, recalled =>
    cases place
    cases recalled
    exact length (by decide)
  | 2, place, recalled =>
    cases place
    cases recalled
    exact length (by decide)
  | i + 3, place, recalled => cases place

private theorem ok_of_toOption {α : Type} {result : Except Fault α} {value : α}
    (found : result.toOption = some value) : result = .ok value := by
  cases result with
  | error fault => cases found
  | ok other => rw [Option.some.inj found]

/-- The first byte of a file is changed, so that the header of its record claims two bytes in place of
six, and the checksum of the record is that of these two bytes as well. -/
theorem shortened_record_is_served : ∃ fresh log answers damaged after,
    recover narrow {} = .ok fresh ∧
    Call.performAll SegmentLog.reopen [.append [99, 103, 121, 118, 119, 107] none] fresh =
      (log, answers) ∧
    Call.history [.append [99, 103, 121, 118, 119, 107] none] answers =
      [⟨1, [99, 103, 121, 118, 119, 107], none⟩] ∧
    (Change.write 0 [2]).apply (SegmentName.ofBase 1) log.directory = .ok damaged ∧
    recover narrow damaged = .ok after ∧
    LocalLog.read after 1 9 = .ok [⟨1, [99, 103], none⟩] := by
  obtain ⟨log, answers, ran⟩ : ∃ log answers, Call.performAll SegmentLog.reopen
      [.append [99, 103, 121, 118, 119, 107] none] (⟨narrow, {}, [], none, 0⟩ : SegmentLog) =
        (log, answers) := ⟨_, _, rfl⟩
  obtain ⟨left, given⟩ := Prod.ext_iff.mp ran
  dsimp only at left given
  have stored : Call.history [.append [99, 103, 121, 118, 119, 107] none] answers =
      [⟨1, [99, 103, 121, 118, 119, 107], none⟩] := by
    rw [← given]
    decide +kernel
  have file : log.directory.get? (SegmentName.ofBase 1) =
      some (.file (Record.encode ⟨1, [99, 103, 121, 118, 119, 107], none⟩)) := by
    rw [← left]
    decide +kernel
  have found : (recover narrow (log.directory.put (SegmentName.ofBase 1) (.file
      ((Record.encode ⟨1, [99, 103, 121, 118, 119, 107], none⟩).set 0 2)))).toOption.bind
        (fun after => (LocalLog.read after 1 9).toOption) = some [⟨1, [99, 103], none⟩] := by
    rw [← left]
    decide +kernel
  obtain ⟨after, opened, read⟩ := Option.bind_eq_some_iff.mp found
  exact ⟨_, log, answers, _, after, recover_empty (by decide) rfl, ran, stored,
    apply_write_byte file (by decide) 2, ok_of_toOption opened, ok_of_toOption read⟩

end SegmentLog

end QuorumLog
