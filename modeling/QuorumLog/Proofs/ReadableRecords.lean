import QuorumLog.Proofs.OpenedSegments

/-! Which entries come back from what an append wrote. A record tells the length of its body in four
bytes, and no append asks whether that is enough. An entry whose body is short enough comes back from its
record whatever follows, and a scan goes on right behind it. The record of any other entry tells less than
the length of the body, and is never read as that entry. -/

namespace QuorumLog

namespace Record

variable {available : Nat} {bytes rest : Bytes} {e : Entry}

/-! ### What a record tells -/

/-- A body is the payload, and if there is metadata also the metadata and four bytes in front. -/
theorem length_body (e : Entry) : (body e).length =
    match e.metadata with
    | none => e.payload.length
    | some metadata => 4 + e.payload.length + metadata.length := by
  cases metadata : e.metadata <;> simp [body, metadata, Nat.add_assoc]

/-- An entry that is read has the offset and the length of body that the header tells. -/
theorem told_of_next (read : next available bytes = .ok (some (e, rest))) :
    (body e).length = LittleEndian.decode ((bytes.take headerSize).take 4) ∧
      e.offset = LittleEndian.decode (((bytes.take headerSize).drop 4).take 8) := by
  simp only [next] at read
  split at read
  · cases read
  split at read
  · cases read
  split at read
  · cases read
  split at read
  · cases read
  rename_i whole
  split at read
  · cases read
  split at read
  · cases read
  rename_i payload metadata opened
  cases read
  refine ⟨?_, rfl⟩
  rw [length_body_of_openBody _ opened]
  rw [List.length_take] at whole ⊢
  omega

/-- A record that is read as its own entry told the length of the whole body. -/
theorem fits_of_next {later : Bytes}
    (read : next available (encode e ++ rest) = .ok (some (e, later))) : Fits e := by
  obtain ⟨length, offset⟩ := told_of_next read
  have front : (encode e ++ rest).take headerSize = header e := by
    rw [encode_eq_header, List.append_assoc, List.take_left' (length_header e)]
  have number : ((header e).drop 4).take 8 = LittleEndian.encode 8 e.offset := by
    rw [header, List.drop_left' (LittleEndian.length_encode ..),
      List.take_left' (LittleEndian.length_encode ..)]
  rw [front, length_of_header, LittleEndian.decode_encode] at length
  rw [front, number, LittleEndian.decode_encode] at offset
  constructor
  · rw [offset]
    exact Nat.mod_lt _ (by decide)
  · rw [length]
    exact Nat.mod_lt _ (by decide)

/-! ### Reading it back -/

/-- Whoever comes to the record of an entry, whatever stands behind it, finds the entry and goes on right
behind the record. -/
structure ReadsBack (e : Entry) : Prop where
  next {available : Nat} (room : size e ≤ available) (rest : Bytes) :
    next available (encode e ++ rest) = .ok (some (e, rest))
  /-- In a scan the next record is looked for where this one ends. -/
  scan {fileSize position : Nat} (room : position + size e ≤ fileSize) (rest : Bytes) :
    SegmentScan.run fileSize e.offset position (encode e ++ rest) =
      let later := SegmentScan.run fileSize (e.offset + 1) (position + (encode e).length) rest
      { later with positions := position :: later.positions }

/-- That is so exactly if the header can tell the offset and the length of the body. -/
theorem readsBack_iff_fits : ReadsBack e ↔ Fits e := by
  refine ⟨fun readsBack => fits_of_next (readsBack.next (Nat.le_refl _) []), fun fits => ?_⟩
  refine ⟨fun room rest => next_encode fits room rest, fun room rest => ?_⟩
  rw [SegmentScan.run_eq, next_encode fits (Nat.le_sub_of_add_le' room), length_encode]
  simp only [if_true]

end Record

namespace SegmentLog

variable {medium : Medium} {log after next : SegmentLog} {e : Entry}

/-! ### What an append writes -/

/-- The record of an entry goes behind what the last segment has, which may be a new one, and the segment
notes where it starts. -/
def Adds (medium : Medium) (log : SegmentLog) (e : Entry) (after : SegmentLog) : Prop :=
  ∃ ready init s handle,
    (ready = log ∨ log.startSegment medium e.offset = .ok ready) ∧
    ready.segments = init ++ [s] ∧ ready.active = some handle ∧
    after = { ready with
      directory := ready.directory.modifyOpen (· ++ Record.encode e) handle
      segments := init ++ [s.push (Record.size e)]
      highest := e.offset }

/-- If no error is told, every byte was written. -/
theorem written_of_ok {sync : Bool} {handle : Handle} {bytes reached : Bytes}
    (ran : written medium sync handle bytes = (reached, none)) : reached = bytes := by
  unfold written at ran
  split at ran
  · cases ran
  · cases ran
  · exact (congrArg Prod.fst ran).symm

theorem adds_of_writeRecord (prepared : next = log ∨ log.startSegment medium e.offset = .ok next)
    (ran : next.writeRecord medium e = (after, .ok ())) : log.Adds medium e after := by
  unfold writeRecord at ran
  split at ran
  · rename_i s handle last active
    obtain ⟨init, segments⟩ := List.getLast?_eq_some_iff.mp last
    cases wrote : written medium next.settings.syncOnAppend handle (Record.encode e) with
    | mk reached failure =>
      simp only [wrote] at ran
      cases failure with
      | some number => cases ran
      | none =>
        cases ran
        refine ⟨next, init, s, handle, prepared, segments, active, ?_⟩
        rw [written_of_ok wrote, segments, List.dropLast_concat]
  · cases ran

theorem adds_of_store (ran : log.store medium e = (after, .ok ())) : log.Adds medium e after := by
  unfold store at ran
  split at ran
  · split at ran
    · cases ran
    · rename_i started
      exact adds_of_writeRecord (.inr started) ran
  · exact adds_of_writeRecord (.inl rfl) ran

/-- An entry is accepted by one of the two ways to append. -/
def Accepts (medium : Medium) (log : SegmentLog) (e : Entry) (after : SegmentLog) : Prop :=
  log.append medium e.payload e.metadata = (after, .ok e.offset) ∨
    log.appendEntry medium e = (after, .ok ())

theorem Accepts.adds (accepted : log.Accepts medium e after) :
    e.offset = log.highest + 1 ∧ log.Adds medium e after := by
  rcases accepted with ran | ran
  · cases stored : log.store medium ⟨log.highest + 1, e.payload, e.metadata⟩ with
    | mk final result =>
      simp only [append, stored] at ran
      obtain ⟨rfl, done⟩ := Prod.mk.inj ran
      cases result with
      | error fault => cases done
      | ok _ =>
        have next : log.highest + 1 = e.offset := Except.ok.inj done
        rw [next] at stored
        exact ⟨next.symm, adds_of_store stored⟩
  · unfold appendEntry at ran
    split at ran
    · cases ran
    · rename_i next
      exact ⟨Decidable.not_not.mp next, adds_of_store ran⟩

/-! ### The rule -/

/-- An append that succeeds has put the whole record at the end of the last segment. What it put there
reads back exactly if the body is shorter than 4 GiB, and is never read as the entry otherwise. -/
theorem accepted_reads_back (accepted : log.Accepts medium e after)
    (small : e.offset < UInt64.size) :
    e.offset = log.highest + 1 ∧ log.Adds medium e after ∧
    (Record.encode e).length = Record.headerSize + (match e.metadata with
      | none => e.payload.length
      | some metadata => 4 + e.payload.length + metadata.length) ∧
    (Record.ReadsBack e ↔ (Record.body e).length < UInt32.size) ∧
    (UInt32.size ≤ (Record.body e).length → ∀ available rest later,
      Record.next available (Record.encode e ++ rest) ≠ .ok (some (e, later))) := by
  obtain ⟨next, adds⟩ := accepted.adds
  refine ⟨next, adds, ?_, ?_, fun long available rest later read => ?_⟩
  · rw [Record.length_encode, Record.size, Record.length_body]
  · rw [Record.readsBack_iff_fits]
    exact ⟨fun fits => fits.2, fun short => ⟨small, short⟩⟩
  · exact absurd (Record.fits_of_next read).2 (Nat.not_lt.mpr long)

/-- A log in an empty directory. -/
def blank : SegmentLog := ⟨.standard, {}, [], none, 0⟩

/-- The first entry of a log, with metadata that is empty and not absent. -/
def labelled : Entry := ⟨1, [97], some []⟩

theorem labelled_reads_back : ∃ after, blank.Accepts .sound labelled after ∧
    blank.Adds .sound labelled after ∧ (Record.encode labelled).length = 22 ∧
    Record.ReadsBack labelled := by
  have accepted : blank.Accepts .sound labelled
      (blank.append .sound [97] (some [])).1 := .inl rfl
  obtain ⟨-, adds, length, readsBack, -⟩ := accepted_reads_back accepted (by decide)
  exact ⟨_, accepted, adds, length, readsBack.mpr (by decide)⟩

/-- The first entry of a log, 4 GiB of one letter. -/
def overlong : Entry := ⟨1, List.replicate UInt32.size 97, none⟩

/-- The first append to an empty log succeeds whatever it is given. -/
theorem blank_accepts (payload : Bytes) (metadata : Option Bytes) :
    ∃ after, blank.Accepts .sound ⟨1, payload, metadata⟩ after :=
  ⟨(blank.append .sound payload metadata).1, .inl rfl⟩

/-- The log takes the long entry, its record tells that the body has no bytes, and nobody reads the entry
from it. -/
theorem overlong_is_not_read : ∃ after, blank.Accepts .sound overlong after ∧
    (Record.encode overlong).take 4 = [0, 0, 0, 0] ∧
    ∀ available rest later,
      Record.next available (Record.encode overlong ++ rest) ≠ .ok (some (overlong, later)) := by
  obtain ⟨after, accepted⟩ := blank_accepts (List.replicate UInt32.size 97) none
  have long : (Record.body overlong).length = UInt32.size := List.length_replicate
  refine ⟨after, accepted, ?_, fun available rest later read => ?_⟩
  · have four : (LittleEndian.encode 4 (Record.body overlong).length).length = 4 :=
      LittleEndian.length_encode ..
    rw [Record.encode, List.append_assoc, List.append_assoc, List.append_assoc,
      List.take_left' four, long]
    rfl
  · exact absurd (Record.fits_of_next read).2 (Nat.not_lt.mpr (Nat.le_of_eq long.symm))

end SegmentLog

end QuorumLog
