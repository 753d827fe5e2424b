import QuorumLog.Proofs.PagedReading
import QuorumLog.Proofs.ReadableRecords

/-! Which entry a checksum is of. The bytes that it covers are those of one entry alone, so different
entries can only share the check value of different bytes. A log that is asked for the checksum at an offset
reads one entry, which may be a later one, and answers for the offset itself. The record of that entry is
all that it looks at: if it is damaged the answer is the failure to read it, and no other damage matters. -/

namespace QuorumLog

/-! ### The bytes that a checksum covers -/

/-- Different numbers that fit the width have different bytes. -/
theorem LittleEndian.encode_inj {width m n : Nat} (small : m < 256 ^ width) (small' : n < 256 ^ width)
    (same : encode width m = encode width n) : m = n := by
  have numbers := congrArg decode same
  rwa [decode_encode_of_lt small, decode_encode_of_lt small'] at numbers

/-- Different bytes with the same check value. -/
def Crc32.Collide (left right : Bytes) : Prop := left ≠ right ∧ checksum left = checksum right

namespace Entry

variable {e f : Entry}

/-- The offset and the length of the payload have 64 bits. -/
structure Sized (e : Entry) : Prop where
  offset : e.offset < UInt64.size
  payload : e.payload.length < UInt64.size

/-- The mark in front of the metadata tells whether there is any. -/
private theorem marked_inj {metadata other : Option Bytes}
    (same : (match metadata with | none => [0] | some metadata => (1 : UInt8) :: metadata) =
      match other with | none => [0] | some metadata => 1 :: metadata) : metadata = other := by
  cases metadata <;> cases other <;> simp_all

/-- No byte can stand for another field: the offset and the length have a fixed width, the length tells
where the payload ends, and the mark and the metadata are what is left. -/
theorem digestInput_inj (sized : e.Sized) (sized' : f.Sized)
    (same : e.digestInput = f.digestInput) : e = f := by
  obtain ⟨offset, payload, metadata⟩ := e
  obtain ⟨offset', payload', metadata'⟩ := f
  simp only [digestInput, List.append_assoc] at same
  obtain ⟨offsets, same⟩ := List.append_inj same (by simp)
  obtain ⟨lengths, same⟩ := List.append_inj same (by simp)
  have long : payload.length = payload'.length :=
    LittleEndian.encode_inj sized.payload sized'.payload lengths
  obtain ⟨rfl, marked⟩ := List.append_inj same long
  obtain rfl : offset = offset' := LittleEndian.encode_inj sized.offset sized'.offset offsets
  obtain rfl := marked_inj marked
  rfl

/-- Different entries with the same checksum are a collision. -/
theorem collide_of_checksum (sized : e.Sized) (sized' : f.Sized) (different : e ≠ f)
    (same : e.checksum = f.checksum) : Crc32.Collide e.digestInput f.digestInput :=
  ⟨fun bytes => different (digestInput_inj sized sized' bytes), same⟩

end Entry

/-! ### The checksums of a log -/

section Logs

variable {L : Type} [LocalLog L] {log : L} {es : List Entry} {e : Entry} {offset : Nat}

/-- The entries of a log, and the answers that it gives for every offset. -/
structure Summed (log : L) (es : List Entry) : Prop where
  whole : LocalLog.read log (LocalLog.oldest log) (LocalLog.highest log) = .ok es
  numbered : es.map Entry.offset = List.range' (LocalLog.oldest log) es.length
  span : LocalLog.oldest log + es.length = LocalLog.highest log + 1
  retained : ∀ e ∈ es, LocalLog.checksumAt log e.offset = .ok (some e.checksum)
  /-- There is nothing for an offset that is not retained, also if a later entry is. -/
  others : ∀ offset, offset < LocalLog.oldest log ∨ LocalLog.highest log < offset →
    LocalLog.checksumAt log offset = .ok none

theorem checksumAt_of_read {found : List Entry} (read : LocalLog.read log offset 1 = .ok found) :
    LocalLog.checksumAt log offset = .ok ((found.find? (·.offset = offset)).map Entry.checksum) := by
  rw [LocalLog.checksumAt, read]
  rfl

/-- The answer is a failure exactly if the read is that failure. -/
theorem checksumAt_error {fault : Fault} : LocalLog.checksumAt log offset = .error fault ↔
    LocalLog.read log offset 1 = .error fault := by
  unfold LocalLog.checksumAt
  cases LocalLog.read log offset 1 with
  | error other => simp [Except.map]
  | ok found => simp [Except.map]

/-- The first entry from the offset of a retained one on is that entry. -/
theorem Legible.read_one (legible : Legible log es) (held : e ∈ es) :
    LocalLog.read log e.offset 1 = .ok [e] := by
  obtain ⟨-, place⟩ := place_of_numbered legible.numbered held
  rw [legible.read, LawfulLog.filter_numbered _ _ _ legible.numbered, List.take_one, List.head?_drop,
    place, Option.toList_some]

theorem Legible.summed (legible : Legible log es) : Summed log es where
  whole := by rw [legible.read_all (Nat.le_refl _), legible.filter_oldest]
  numbered := legible.numbered
  span := legible.span
  retained e held := by
    rw [checksumAt_of_read (legible.read_one held)]
    simp
  others offset outside := by
    have missing : ∀ e ∈ es, e.offset ≠ offset := by
      rintro e held rfl
      have within := List.mem_map_of_mem (f := Entry.offset) held
      rw [legible.numbered, List.mem_range'_1] at within
      have span := legible.span
      omega
    have none : ((es.filter (offset ≤ ·.offset)).take 1).find? (·.offset = offset) = none := by
      refine List.find?_eq_none.mpr fun e found => ?_
      simpa using missing e (List.mem_of_mem_filter (List.mem_of_mem_take found))
    rw [checksumAt_of_read (legible.read offset 1), none]
    rfl

end Logs

/-! ### Damaged files -/

/-- Whether a record is taken off some bytes depends on its own bytes alone. -/
theorem Record.next_of_take {available : Nat} {bytes bytes' rest : Bytes} {e : Entry}
    (read : next available bytes = .ok (some (e, rest)))
    (same : bytes'.take (size e) = bytes.take (size e)) :
    ∃ rest', next available bytes' = .ok (some (e, rest')) := by
  have told := (told_of_next read).1
  have front : bytes'.take headerSize = bytes.take headerSize := by
    have shorter := congrArg (List.take headerSize) same
    rwa [List.take_take, List.take_take, size, Nat.min_eq_left (Nat.le_add_right ..)] at shorter
  have inside : (bytes'.drop headerSize).take (body e).length =
      (bytes.drop headerSize).take (body e).length := by
    have later := congrArg (List.drop headerSize) same
    rwa [List.drop_take, List.drop_take, size, Nat.add_sub_cancel_left] at later
  simp only [next, ← told] at read
  simp only [next, front, ← told, inside]
  split at read
  · cases read
  rename_i present
  split at read
  · cases read
  rename_i header
  split at read
  · cases read
  rename_i room
  split at read
  · cases read
  rename_i long
  split at read
  · cases read
  rename_i checks
  split at read
  · cases read
  cases read
  rw [if_neg present, if_neg header, if_neg room, if_neg long, if_neg checks]
  exact ⟨_, rfl⟩

namespace Segment

variable {s : Segment} {d d' : Directory} {path : String} {offset position : Nat} {bytes rest : Bytes}
variable {e : Entry} {found : List Entry}

/-- If the segment has the record of an entry, two directories have the same bytes for it. -/
def SameRecord (s : Segment) (d d' : Directory) (e : Entry) : Prop :=
  s.base ≤ e.offset → ∀ position, s.positions[e.offset - s.base]? = some position →
    (d'.read s.name position).map (List.take (Record.size e)) =
      (d.read s.name position).map (List.take (Record.size e))

theorem read_of_none (none : s.positions[offset - s.base]? = none) (count : Nat) :
    s.read path d offset count = .ok [] := by
  rw [Segment.read, List.drop_eq_nil_of_le (List.getElem?_eq_none_iff.mp none)]

/-- A read of one record at a position takes it off the bytes from there on. -/
theorem read_one (here : s.positions[offset - s.base]? = some position) :
    s.read path d offset 1 = match d.read s.name position with
      | .error number => .error (.io (.system number))
      | .ok bytes => readRecords (Segment.path path s.name) s.length offset [position] bytes := by
  obtain ⟨inside, rfl⟩ := List.getElem?_eq_some_iff.mp here
  rw [Segment.read, List.drop_eq_getElem_cons inside]
  rfl

/-- A read of one record gives the entry at the offset, which stands at its position in the file, or there
is no position. -/
theorem read_one_cases (read : s.read path d offset 1 = .ok found) :
    (s.positions[offset - s.base]? = none ∧ found = []) ∨
    ∃ e position bytes rest, found = [e] ∧ e.offset = offset ∧
      s.positions[offset - s.base]? = some position ∧ d.read s.name position = .ok bytes ∧
      Record.next (s.length - position) bytes = .ok (some (e, rest)) := by
  cases here : s.positions[offset - s.base]? with
  | none =>
    rw [read_of_none here] at read
    exact .inl ⟨rfl, (Except.ok.inj read).symm⟩
  | some position =>
    rw [read_one here] at read
    cases content : d.read s.name position with
    | error number =>
      rw [content] at read
      cases read
    | ok bytes =>
      simp only [content, readRecords] at read
      split at read
      · cases read
      · cases read
      rename_i e rest next
      split at read
      · rename_i number
        exact .inr ⟨e, position, bytes, rest, (Except.ok.inj read).symm, number, rfl, content, next⟩
      · cases read

theorem read_of_next (here : s.positions[e.offset - s.base]? = some position)
    (content : d.read s.name position = .ok bytes)
    (next : Record.next (s.length - position) bytes = .ok (some (e, rest))) :
    s.read path d e.offset 1 = .ok [e] := by
  rw [read_one here, content]
  simp only [readRecords, next, if_true]
  rfl

/-- A read of one record gives at most one entry, and the same one from every directory that has the bytes
of its record. -/
theorem read_one_of_same (inside : s.base ≤ offset) (read : s.read path d offset 1 = .ok found)
    (same : ∀ e ∈ found, s.SameRecord d d' e) : s.read path d' offset 1 = .ok found := by
  rcases read_one_cases read with ⟨none, rfl⟩ | ⟨e, position, bytes, rest, rfl, rfl, here, content, next⟩
  · exact read_of_none none 1
  · have unchanged := same e (List.mem_singleton_self e) inside position here
    rw [content] at unchanged
    cases content' : d'.read s.name position with
    | error number =>
      rw [content'] at unchanged
      cases unchanged
    | ok bytes' =>
      rw [content'] at unchanged
      obtain ⟨rest', next'⟩ := Record.next_of_take next (Except.ok.inj unchanged)
      exact read_of_next here content' next'

end Segment

namespace SegmentLog

variable {log : SegmentLog} {d d' : Directory} {segments : List Segment} {path : String} {start : Nat}
variable {e : Entry} {found : List Entry}

theorem readSegments_zero : readSegments path d start 0 segments = .ok [] := by
  cases segments <;> simp [readSegments]

/-- A read of one entry looks at the bytes of its record only. -/
theorem readSegments_one (read : readSegments path d start 1 segments = .ok found)
    (same : ∀ e ∈ found, ∀ s ∈ segments, s.SameRecord d d' e) :
    readSegments path d' start 1 segments = .ok found := by
  induction segments generalizing start with
  | nil => exact read
  | cons s later ih =>
    simp only [readSegments, Nat.one_ne_zero, if_false] at read ⊢
    cases first : s.read path d (max start s.base) 1 with
    | error fault =>
      rw [first] at read
      cases read
    | ok here =>
      have again (taken : ∀ e ∈ here, e ∈ found) : s.read path d' (max start s.base) 1 = .ok here :=
        Segment.read_one_of_same (Nat.le_max_right ..) first fun e member =>
          same e (taken e member) s List.mem_cons_self
      simp only [first] at read
      rcases Segment.read_one_cases first with ⟨-, rfl⟩ | ⟨e, -, -, -, rfl, -⟩
      -- The segment has nothing from the offset on, and the entry comes from a later one.
      · cases behind : readSegments path d (max start s.limit) 1 later with
        | error fault =>
          rw [List.length_nil, behind] at read
          cases read
        | ok others =>
          rw [List.length_nil, behind] at read
          obtain rfl : others = found := Except.ok.inj read
          have behind' := ih behind fun e taken r held => same e taken r (List.mem_cons_of_mem s held)
          simp only [again (by simp), List.length_nil, behind', Nat.sub_zero]
          rfl
      -- The entry is here, and nothing is read behind it.
      · rw [List.length_singleton, Nat.sub_self, readSegments_zero] at read
        obtain rfl : [e] = found := Except.ok.inj read
        simp only [again fun _ member => member, List.length_singleton, Nat.sub_self, readSegments_zero]
        rfl

/-- Whatever becomes of the files, the answer stays as it is if the record that is read for it does. -/
theorem checksumAt_of_sameRecord {offset : Nat} (read : LocalLog.read log offset 1 = .ok found)
    (same : ∀ e ∈ found, ∀ s ∈ log.segments, s.SameRecord log.directory d e)
    (active : Option Handle) :
    LocalLog.checksumAt { log with directory := d, active } offset =
      LocalLog.checksumAt log offset := by
  have again : LocalLog.read { log with directory := d, active } offset 1 = .ok found := by
    have read : log.read offset 1 = .ok found := read
    show SegmentLog.read { log with directory := d, active } offset 1 = .ok found
    unfold SegmentLog.read at read ⊢
    split at read
    · rename_i nothing
      rw [if_pos nothing]
      exact read
    · rename_i some
      rw [if_neg some]
      refine readSegments_one read fun e taken s held => same e taken s ?_
      unfold segmentsFrom at held
      split at held
      · exact held
      · exact List.mem_of_mem_filter held
  rw [checksumAt_of_read again, checksumAt_of_read read]

end SegmentLog

namespace VolatileLog

/-- Behind any calls, the entries of a log in memory are numbered without a gap. -/
theorem counted_of_offers {before : List (Bool × Call)} {log : VolatileLog}
    (ran : before.foldl (fun log offered => offer offered log) {} = log) : log.Counted := by
  subst ran
  refine List.foldlRecOn before _ ⟨⟨rfl, rfl⟩, Nat.le_refl 1⟩ ?_
  exact fun log counted offered _ => (counted.offer offered).1

end VolatileLog

/-! ### The rule -/

/-- The bytes that a checksum covers tell its entry, so only a collision can hide that two entries differ.
A log in memory behind any calls, and a stored log that was opened from any files, behind any calls on a
medium that may fail, give for each offset the checksum of the entry that they retain there, or nothing if
they retain none. Files that someone changed make no difference to an answer unless the record that it takes
is among what was changed, and the only other answer of any log is the failure to read that record. -/
theorem checksums_identify :
    (∀ e f : Entry, e.Sized → f.Sized → (e.digestInput = f.digestInput ↔ e = f) ∧
      (e ≠ f → e.checksum = f.checksum → Crc32.Collide e.digestInput f.digestInput)) ∧
    (∀ (before : List (Bool × Call)) log,
      before.foldl (fun log offered => VolatileLog.offer offered log) {} = log →
      Summed log log.entries) ∧
    (∀ settings d fresh, SegmentLog.Regular d → SegmentLog.recover settings d = .ok fresh →
      ∀ trials log answers, (∀ t ∈ trials, t.call.Modest) →
      Trial.performAll trials fresh = (log, answers) →
      LocalLog.highest fresh + (Trial.history trials answers).length + 1 < UInt64.size →
      Summed log log.entries ∧ (SegmentLog.WellNamed d → (∀ t ∈ trials, t.Deletes) →
        log.entries <:+ fresh.entries ++ Trial.history trials answers)) ∧
    (∀ (log : SegmentLog) d active offset found, LocalLog.read log offset 1 = .ok found →
      (∀ e ∈ found, ∀ s ∈ log.segments, s.SameRecord log.directory d e) →
      LocalLog.checksumAt { log with directory := d, active } offset =
        LocalLog.checksumAt log offset) ∧
    ∀ {L : Type} [LocalLog L] (log : L) offset fault,
      LocalLog.checksumAt log offset = .error fault ↔ LocalLog.read log offset 1 = .error fault := by
  refine ⟨?_, ?_, ?_, ?_, ?_⟩
  · intro e f sized sized'
    constructor
    · exact ⟨Entry.digestInput_inj sized sized', congrArg Entry.digestInput⟩
    · exact Entry.collide_of_checksum sized sized'
  · intro before log ran
    exact (VolatileLog.counted_of_offers ran).legible.summed
  · intro settings d fresh regular opened trials log answers modest ran room
    obtain ⟨parts, backed, -⟩ := SegmentLog.backed_of_recover regular opened
    have run := backed.performAll modest ran room
    obtain ⟨parts', backed'⟩ := run.backed
    refine ⟨backed'.entries ▸ backed'.legible.summed, fun named deletes => ?_⟩
    exact (run.tidy deletes (SegmentLog.tidy_of_recover regular named opened)).2
  · intro log d active offset found read same
    exact SegmentLog.checksumAt_of_sameRecord read same active
  · intro L _ log offset fault
    exact checksumAt_error

/-- Three entries, of which the first is purged. The second has empty metadata, and the third one comes only
after the medium failed once. -/
def withEmptyLabel : List Trial :=
  [⟨.append [97] none, .sound⟩, ⟨.append [98] (some []), .sound⟩, ⟨.purge 2, .sound⟩,
    ⟨.append [99] none, { write := some (5, noSpace) }⟩, ⟨.append [99] none, .sound⟩]

/-- Two entries in memory, of which the first is purged. -/
def passing : List (Bool × Call) :=
  [(false, .append [97] none), (false, .append [98] none), (true, .purge 2)]

/-- Empty metadata count, a purged offset has no checksum in either log although a later entry is retained,
and the first entry of a file of which the last byte changed has its checksum still. -/
theorem identified_with_empty_label :
    Entry.digestInput ⟨2, [98], some []⟩ ≠ Entry.digestInput ⟨2, [98], none⟩ ∧
    (∃ log, passing.foldl (fun log offered => VolatileLog.offer offered log) {} = log ∧
      Summed log log.entries ∧ LocalLog.checksumAt log 1 = .ok none) ∧
    (∃ log answers,
      Trial.performAll withEmptyLabel ⟨SegmentLog.narrow, {}, [], none, 0⟩ = (log, answers) ∧
      Summed log log.entries ∧ log.entries <:+ Trial.history withEmptyLabel answers ∧
      LocalLog.checksumAt log 1 = .ok none ∧
      LocalLog.checksumAt log 2 = .ok (some (Entry.checksum ⟨2, [98], some []⟩))) ∧
    LocalLog.checksumAt { pair with directory := spoiled } 1 = LocalLog.checksumAt pair 1 := by
  refine ⟨?_, ?_, ?_, ?_⟩
  · intro same
    have equal := (checksums_identify.1 _ _ ⟨by decide, by decide⟩ ⟨by decide, by decide⟩).1.mp same
    cases equal
  · have summed := checksums_identify.2.1 passing _ rfl
    exact ⟨_, rfl, summed, summed.others 1 (.inl (by decide +kernel))⟩
  · have regular : SegmentLog.Regular {} := SegmentLog.regular_of_files (by simp)
    have named : SegmentLog.WellNamed {} := ⟨List.nodup_nil, by simp [Directory.names]⟩
    have opened : SegmentLog.recover SegmentLog.narrow {} = .ok ⟨SegmentLog.narrow, {}, [], none, 0⟩ :=
      SegmentLog.recover_empty (by decide) rfl
    have deletes : ∀ t ∈ withEmptyLabel, t.Deletes := by
      simp [withEmptyLabel, Trial.Deletes, Medium.sound]
    obtain ⟨summed, stored⟩ := checksums_identify.2.2.1 _ _ _ regular opened withEmptyLabel _ _
      (by decide) (Prod.eta _).symm (by decide +kernel)
    refine ⟨_, _, rfl, summed, stored named deletes, ?_, ?_⟩
    · exact summed.others 1 (.inl (by decide +kernel))
    · exact summed.retained ⟨2, [98], some []⟩ (by decide +kernel)
  · have read : LocalLog.read pair 1 1 = .ok [⟨1, [97], none⟩] := by decide +kernel
    have segments : pair.segments = [⟨1, [0, 18], 36⟩] := by decide +kernel
    refine checksums_identify.2.2.2.1 pair spoiled pair.active 1 _ read ?_
    intro e taken s held _ position place
    obtain rfl := List.mem_singleton.mp taken
    rw [segments] at held
    obtain rfl := List.mem_singleton.mp held
    obtain rfl : 0 = position := Option.some.inj place
    decide +kernel

/-- If somebody changes a byte of the second entry while the log is open, there is no checksum for it any
more, only the failure to read it. -/
theorem spoiled_has_no_checksum :
    (Change.write 35 [0]).apply (SegmentName.ofBase 1) pair.directory = .ok spoiled ∧
    LocalLog.checksumAt pair 2 = .ok (some (Entry.checksum ⟨2, [98], none⟩)) ∧
    LocalLog.oldest { pair with directory := spoiled } = 1 ∧
    LocalLog.highest { pair with directory := spoiled } = 2 ∧
    LocalLog.checksumAt { pair with directory := spoiled } 2 = .error (.log (.checksum 2)) := by
  refine ⟨?_, ?_, ?_, ?_, ?_⟩ <;> decide +kernel

end QuorumLog
