import QuorumLog.Proofs.StoredRecords

/-! Records that were cut off. A proper beginning of a record is never taken for one, since its header
claims more than is left, so a scan finds the records that are whole and stops behind the last of
them, wherever the bytes end. -/

namespace QuorumLog

namespace Record

variable {e : Entry} {es : List Entry} {bytes : Bytes}

/-- Bytes that end inside a record, or before it. -/
def Torn (bytes : Bytes) : Prop := ∃ e, Fits e ∧ bytes <+: encode e ∧ bytes.length < size e

theorem torn_nil : Torn [] :=
  ⟨⟨0, [], none⟩, ⟨by decide, by decide⟩, List.nil_prefix, by decide⟩

/-- Nothing is read off bytes that end inside a record. -/
theorem next_torn (torn : Torn bytes) (some : bytes ≠ []) :
    ∃ cause, next bytes.length bytes = .error cause := by
  obtain ⟨e, fits, begins, short⟩ := torn
  unfold next
  dsimp only
  have present : (bytes.take headerSize).isEmpty = false := by
    rw [List.isEmpty_eq_false_iff]
    simp [headerSize, some]
  rw [present, if_neg Bool.false_ne_true]
  by_cases header : (bytes.take headerSize).length < headerSize
  · exact ⟨_, if_pos header⟩
  -- The header is whole, so it tells how long the body should be.
  have reached : headerSize ≤ bytes.length := by
    rw [List.length_take] at header
    omega
  have front : bytes.take headerSize = Record.header e := by
    obtain ⟨rest, split⟩ := begins
    rw [← List.take_append_of_le_length reached, split, encode_eq_header,
      List.take_left' (length_header e)]
  have length : LittleEndian.decode ((bytes.take headerSize).take 4) = (body e).length := by
    rw [front, length_of_header, LittleEndian.decode_encode_of_lt]
    exact fits.2
  have overrun : bytes.length - headerSize < (body e).length := by
    unfold size at short
    omega
  rw [if_neg header, length]
  exact ⟨_, if_pos overrun⟩

/-- Nothing is read off some bytes: there are none, or the first record is refused. -/
def Unread (bytes : Bytes) : Prop := bytes = [] ∨ ∃ cause, next bytes.length bytes = .error cause

theorem Torn.unread (torn : Torn bytes) : Unread bytes := by
  by_cases none : bytes = []
  · exact .inl none
  · exact .inr (next_torn torn none)

theorem length_encodeAll_cons (e : Entry) (es : List Entry) :
    (encodeAll (e :: es)).length = size e + (encodeAll es).length := by
  simp [encodeAll]

/-- The first bytes of some records are the records that end there or before, and the beginning of
another one. -/
theorem take_encodeAll (fits : ∀ e ∈ es, Fits e) (length : Nat) :
    ∃ whole ≤ es.length, ∃ torn, Torn torn ∧
      (encodeAll es).take length = encodeAll (es.take whole) ++ torn ∧
      ∀ i < es.length, i < whole ↔ (encodeAll (es.take (i + 1))).length ≤ length := by
  induction es generalizing length with
  | nil => exact ⟨0, Nat.le_refl _, [], torn_nil, by simp [encodeAll], by simp⟩
  | cons e later ih =>
    obtain ⟨head, tail⟩ := List.forall_mem_cons.mp fits
    have split : encodeAll (e :: later) = encode e ++ encodeAll later := rfl
    by_cases ends : size e ≤ length
    · obtain ⟨whole, within, torn, isTorn, bytes, survives⟩ := ih tail (length - size e)
      refine ⟨whole + 1, Nat.succ_le_succ within, torn, isTorn, ?_, fun i inside => ?_⟩
      · rw [split, List.take_append, length_encode, bytes,
          List.take_of_length_le (by rw [length_encode]; exact ends)]
        simp [encodeAll]
      · cases i with
        | zero => simp [encodeAll, ends]
        | succ i =>
          have rest := survives i (Nat.lt_of_succ_lt_succ inside)
          rw [List.take_succ_cons, length_encodeAll_cons, Nat.succ_lt_succ_iff, rest]
          omega
    · have cut : (encodeAll (e :: later)).take length = (encode e).take length := by
        rw [split, List.take_append_of_le_length (by rw [length_encode]; omega)]
      refine ⟨0, Nat.zero_le _, (encode e).take length, ⟨e, head, List.take_prefix .., ?_⟩, ?_,
        fun i inside => ?_⟩
      · rw [List.length_take, length_encode]
        omega
      · rw [cut]
        simp [encodeAll]
      · rw [List.take_succ_cons, length_encodeAll_cons]
        omega

end Record

namespace SegmentScan

variable {size expected position : Nat}

/-- One step of a scan. -/
theorem run_eq (size expected position : Nat) (bytes : Bytes) :
    run size expected position bytes =
      match Record.next (size - position) bytes with
      | .error cause => ⟨[], position, .broken cause⟩
      | .ok none => ⟨[], position, .complete⟩
      | .ok (some (e, rest)) =>
        if e.offset = expected then
          let later := run size (expected + 1) (position + Record.size e) rest
          { later with positions := position :: later.positions }
        else ⟨[], position, .stray expected e.offset⟩ := by
  rw [run]
  split <;> rename_i read <;> rw [read]

variable {es : List Entry} {content torn : Bytes}

/-- A scan of records with nothing readable behind them finds where each of them starts, and ends
behind them. -/
theorem run_spelled (spelled : Record.SpellsAll content es)
    (numbered : es.map Entry.offset = List.range' expected es.length) (unread : Record.Unread torn)
    (fills : size = position + content.length + torn.length) :
    ∃ ending, run size expected position (content ++ torn) =
        ⟨Record.starts position es, position + content.length, ending⟩ ∧
      (torn = [] ↔ ending = .complete) := by
  induction spelled generalizing expected position with
  | nil =>
    have left : size - position = torn.length := by
      simp at fills
      omega
    show ∃ ending, run size expected position torn = ⟨[], position, ending⟩ ∧ _
    rw [run_eq, left]
    rcases unread with rfl | ⟨cause, broken⟩
    · exact ⟨.complete, by rw [Record.next_nil], by simp⟩
    · refine ⟨.broken cause, by rw [broken], fun empty => ?_, fun complete => by cases complete⟩
      rw [empty, Record.next_nil] at broken
      cases broken
  | @cons piece behind e later first _ ih =>
    rw [List.map_cons, List.length_cons, List.range'_succ] at numbered
    obtain ⟨number, numbers⟩ := List.cons.inj numbered
    rw [List.length_append, first.length] at fills
    have room : Record.size e ≤ size - position := by omega
    have read := first.next room (behind ++ torn)
    have left : size = position + Record.size e + behind.length + torn.length := by omega
    obtain ⟨ending, rest, complete⟩ := ih numbers left
    refine ⟨ending, ?_, complete⟩
    rw [List.append_assoc, run_eq, read, List.length_append, first.length]
    simp only [number, if_true, rest, Record.starts, Nat.add_assoc]

/-- The same for records that a log wrote. -/
theorem run_encodeAll (fits : ∀ e ∈ es, Record.Fits e)
    (numbered : es.map Entry.offset = List.range' expected es.length) (unread : Record.Unread torn)
    (fills : size = position + (Record.encodeAll es).length + torn.length) :
    ∃ ending, run size expected position (Record.encodeAll es ++ torn) =
        ⟨Record.starts position es, position + (Record.encodeAll es).length, ending⟩ ∧
      (torn = [] ↔ ending = .complete) :=
  run_spelled (Record.spellsAll_encodeAll fits) numbered unread fills

end SegmentScan

end QuorumLog
