import QuorumLog.Log.Segment
import QuorumLog.Proofs.LittleEndian
import QuorumLog.Proofs.LogContract

/-! What is stored is read back. A record in front of any other bytes gives its entry and leaves the
other bytes, so the records of a segment are read one behind the other from any of them on. -/

namespace QuorumLog

namespace Record

variable {e : Entry} {es : List Entry}

/-! ### One record -/

/-- The header can tell the offset and the length of the body. -/
def Fits (e : Entry) : Prop := e.offset < UInt64.size ∧ (body e).length < UInt32.size

/-- The bytes in front of the body. -/
def header (e : Entry) : Bytes :=
  LittleEndian.encode 4 (body e).length ++ (LittleEndian.encode 8 e.offset ++ (flags e ::
    LittleEndian.encode 4 (digest e.offset (flags e) (body e)).toNat))

theorem encode_eq_header (e : Entry) : encode e = header e ++ body e := by
  simp [encode, header]

theorem length_header (e : Entry) : (header e).length = headerSize := by
  simp [header, headerSize]

/-- The payload and the metadata stand in the body. -/
theorem openBody_body (fits : Fits e) : openBody (flags e) (body e) = .ok (e.payload, e.metadata) := by
  cases metadata : e.metadata with
  | none => simp [openBody, flags, body, metadata]
  | some m =>
    have long : (body e).length = 4 + e.payload.length + m.length := by
      simp [body, metadata]
      omega
    have small : e.payload.length < 256 ^ 4 := by
      have := fits.2
      simp only [UInt32.size] at this
      omega
    have shape : body e = LittleEndian.encode 4 e.payload.length ++ (e.payload ++ m) := by
      simp [body, metadata]
    have first : (body e).take 4 = LittleEndian.encode 4 e.payload.length := by
      rw [shape, List.take_left' (by simp)]
    have later : (body e).drop 4 = e.payload ++ m := by
      rw [shape, List.drop_left' (by simp)]
    have last : (body e).drop (4 + e.payload.length) = m := by
      rw [← List.drop_drop, later, List.drop_left]
    have flag : flags e &&& 1 ≠ 0 := by simp [flags, metadata]
    rw [openBody, if_neg flag, if_neg (by omega)]
    simp only [first, LittleEndian.decode_encode_of_lt small, later, last, List.take_left]
    rw [if_neg (by omega)]

section Header

theorem length_of_header (e : Entry) :
    (header e).take 4 = LittleEndian.encode 4 (body e).length := by
  rw [header, List.take_left' (by simp)]

private theorem offset_of_header (e : Entry) :
    ((header e).drop 4).take 8 = LittleEndian.encode 8 e.offset := by
  rw [header, List.drop_left' (by simp), List.take_left' (by simp)]

private theorem flags_of_header (e : Entry) : (header e).drop 12 =
    flags e :: LittleEndian.encode 4 (digest e.offset (flags e) (body e)).toNat := by
  rw [header, ← List.append_assoc, List.drop_left' (by simp)]

end Header

/-- A record in front of other bytes gives its entry and leaves the other bytes. -/
theorem next_encode (fits : Fits e) {available : Nat} (room : size e ≤ available) (rest : Bytes) :
    next available (encode e ++ rest) = .ok (some (e, rest)) := by
  have long := length_header e
  have front : (encode e ++ rest).take headerSize = header e := by
    rw [encode_eq_header, List.append_assoc, List.take_left' long]
  have behind : (encode e ++ rest).drop headerSize = body e ++ rest := by
    rw [encode_eq_header, List.append_assoc, List.drop_left' long]
  have whole : (body e ++ rest).take (body e).length = body e := List.take_left
  have length : LittleEndian.decode ((header e).take 4) = (body e).length := by
    rw [length_of_header, LittleEndian.decode_encode_of_lt]
    exact fits.2
  have offset : LittleEndian.decode (((header e).drop 4).take 8) = e.offset := by
    rw [offset_of_header, LittleEndian.decode_encode_of_lt]
    exact fits.1
  have flag : ((header e).drop 12).headD 0 = flags e := by
    rw [flags_of_header, List.headD_cons]
  have stored : UInt32.ofNat (LittleEndian.decode ((header e).drop 13)) =
      digest e.offset (flags e) (body e) := by
    have behindFlags : (header e).drop 13 = ((header e).drop 12).drop 1 := by simp
    rw [behindFlags, flags_of_header, List.drop_one, List.tail_cons,
      LittleEndian.decode_encode_of_lt (UInt32.toNat_lt _), UInt32.ofNat_toNat]
  have nonempty : (header e).isEmpty = false := by
    rw [List.isEmpty_eq_false_iff, ← List.length_pos_iff, long]
    decide
  have left : (encode e ++ rest).drop (headerSize + (body e).length) = rest := by
    rw [← List.drop_drop, behind, List.drop_left]
  have enough : ¬(available - headerSize < (body e).length) := by
    unfold size at room
    omega
  unfold next
  simp only [front, behind, nonempty, long, length, offset, flag, stored, whole, left, enough,
    openBody_body fits]
  simp

/-! ### Records one behind the other -/

/-- The bytes of records one behind the other. -/
def encodeAll (es : List Entry) : Bytes := es.flatMap encode

/-- Where each of some records starts if the first one starts at a position. -/
def starts (position : Nat) : List Entry → List Nat
  | [] => []
  | e :: later => position :: starts (position + size e) later

theorem encodeAll_append (es later : List Entry) :
    encodeAll (es ++ later) = encodeAll es ++ encodeAll later := List.flatMap_append

@[simp] theorem length_starts (position : Nat) (es : List Entry) :
    (starts position es).length = es.length := by
  induction es generalizing position with
  | nil => rfl
  | cons e later ih => simp [starts, ih]

theorem starts_append (position : Nat) (es later : List Entry) : starts position (es ++ later) =
    starts position es ++ starts (position + (encodeAll es).length) later := by
  induction es generalizing position with
  | nil => simp [starts, encodeAll]
  | cons e es ih => simp [starts, ih, encodeAll, Nat.add_assoc]

theorem take_starts (position count : Nat) (es : List Entry) :
    (starts position es).take count = starts position (es.take count) := by
  induction es generalizing position count with
  | nil => simp [starts]
  | cons e later ih =>
    cases count with
    | zero => rfl
    | succ count => simp [starts, ih]

theorem drop_starts (position count : Nat) (es : List Entry) : (starts position es).drop count =
    starts (position + (encodeAll (es.take count)).length) (es.drop count) := by
  induction es generalizing position count with
  | nil => simp [starts]
  | cons e later ih =>
    cases count with
    | zero => simp [encodeAll]
    | succ count => simp [starts, ih, encodeAll, Nat.add_assoc]

theorem getElem?_starts {position i : Nat} (place : es[i]? = some e) :
    (starts position es)[i]? = some (position + (encodeAll (es.take i)).length) := by
  have within := (List.getElem?_eq_some_iff.mp place).1
  rw [← List.head?_drop, drop_starts, List.drop_eq_getElem_cons within]
  rfl

/-! ### Records that anyone wrote -/

/-- Some bytes are a record of an entry: whatever stands behind them, they are taken off and the entry is
found. More than one record may be read as the same entry. -/
structure Spells (piece : Bytes) (e : Entry) : Prop where
  length : piece.length = size e
  next {available : Nat} (room : size e ≤ available) (rest : Bytes) :
    next available (piece ++ rest) = .ok (some (e, rest))

theorem spells_encode (fits : Fits e) : Spells (encode e) e :=
  ⟨length_encode e, fun room rest => next_encode fits room rest⟩

/-- Some bytes are records of some entries, one behind the other. -/
inductive SpellsAll : Bytes → List Entry → Prop where
  | nil : SpellsAll [] []
  | cons {piece rest : Bytes} {e : Entry} {later : List Entry} (first : Spells piece e)
    (behind : SpellsAll rest later) : SpellsAll (piece ++ rest) (e :: later)

theorem spellsAll_encodeAll (fits : ∀ e ∈ es, Fits e) : SpellsAll (encodeAll es) es := by
  induction es with
  | nil => exact .nil
  | cons e later ih =>
    obtain ⟨head, tail⟩ := List.forall_mem_cons.mp fits
    exact .cons (spells_encode head) (ih tail)

theorem SpellsAll.length {content : Bytes} (spelled : SpellsAll content es) :
    content.length = (encodeAll es).length := by
  induction spelled with
  | nil => rfl
  | cons first _ ih => simp [encodeAll, first.length, ih]

/-- The records of the first entries stand in front of those of the others. -/
theorem SpellsAll.split {content : Bytes} (spelled : SpellsAll content es) (count : Nat) :
    ∃ front rest, content = front ++ rest ∧ SpellsAll front (es.take count) ∧
      SpellsAll rest (es.drop count) := by
  induction spelled generalizing count with
  | nil => exact ⟨[], [], rfl, by simpa using .nil, by simpa using .nil⟩
  | @cons piece rest e later first behind ih =>
    cases count with
    | zero => exact ⟨[], piece ++ rest, rfl, .nil, .cons first behind⟩
    | succ count =>
      obtain ⟨front, end_, rfl, front_spelled, end_spelled⟩ := ih count
      exact ⟨piece ++ front, end_, by rw [List.append_assoc], .cons first front_spelled, end_spelled⟩

/-- Records of consecutive offsets are read one behind the other. -/
theorem SpellsAll.readRecords {file : String} {length position expected : Nat} {content : Bytes}
    (spelled : SpellsAll content es) (numbered : es.map Entry.offset = List.range' expected es.length)
    (room : position + content.length ≤ length) (rest : Bytes) :
    Segment.readRecords file length expected (starts position es) (content ++ rest) = .ok es := by
  induction spelled generalizing position expected with
  | nil => rfl
  | @cons piece behind e later first _ ih =>
    rw [List.map_cons, List.length_cons, List.range'_succ] at numbered
    obtain ⟨number, numbers⟩ := List.cons.inj numbered
    rw [List.length_append, first.length] at room
    have left : size e ≤ length - position := by omega
    have read := first.next left (behind ++ rest)
    simp only [starts, Segment.readRecords, List.append_assoc, read, number, if_true]
    rw [ih numbers (by omega)]
    rfl

end Record

namespace Directory

variable {d : Directory} {name : String} {content : Bytes}

theorem follow_of_file (file : d.get? name = some (.file content)) :
    d.follow name = .file name content := by
  simp [follow, followFor, file]

theorem read_of_file (file : d.get? name = some (.file content)) (position : Nat) :
    d.read name position = .ok (content.drop position) := by
  rw [read, follow_of_file file]

end Directory

namespace Segment

variable {s : Segment} {es : List Entry} {d : Directory} {directory : String}

/-- The segment knows where the records of some entries start in a file that has them alone. -/
structure Holds (s : Segment) (es : List Entry) : Prop where
  positions : s.positions = Record.starts 0 es
  length : s.length = (Record.encodeAll es).length
  numbered : es.map Entry.offset = List.range' s.base es.length

/-- The segment holds some entries, and a record can hold each of them. -/
structure Stores (s : Segment) (es : List Entry) : Prop where
  positions : s.positions = Record.starts 0 es
  length : s.length = (Record.encodeAll es).length
  numbered : es.map Entry.offset = List.range' s.base es.length
  fits : ∀ e ∈ es, Record.Fits e

theorem Stores.holds (stores : s.Stores es) : s.Holds es := { stores with }

theorem Holds.stores (holds : s.Holds es) (fits : ∀ e ∈ es, Record.Fits e) : s.Stores es :=
  { holds with fits }

theorem Holds.limit (holds : s.Holds es) : s.limit = s.base + es.length := by
  rw [Segment.limit, holds.positions, Record.length_starts]

theorem Stores.limit (stores : s.Stores es) : s.limit = s.base + es.length := stores.holds.limit

/-- The offset of an entry is one of its segment. -/
theorem Holds.offset (holds : s.Holds es) {e : Entry} (member : e ∈ es) :
    s.base ≤ e.offset ∧ e.offset < s.limit := by
  have within := List.mem_map_of_mem (f := Entry.offset) member
  rw [holds.numbered, List.mem_range'_1] at within
  rw [holds.limit]
  exact within

theorem Holds.positions_eq_nil (holds : s.Holds es) : s.positions = [] ↔ es = [] := by
  rw [← List.length_eq_zero_iff, holds.positions, Record.length_starts, List.length_eq_zero_iff]

theorem limit_push (s : Segment) (size : Nat) : (s.push size).limit = s.limit + 1 := by
  simp [Segment.limit, Segment.push, Nat.add_assoc]

/-- Another record at the end of the file. -/
theorem Holds.push {e : Entry} (holds : s.Holds es) (next : e.offset = s.limit) :
    (s.push (Record.size e)).Holds (es ++ [e]) where
  positions := by
    rw [Record.starts_append, Segment.push, holds.positions, holds.length]
    simp [Record.starts]
  length := by
    rw [Record.encodeAll_append, Segment.push, holds.length]
    simp [Record.encodeAll]
  numbered := by
    rw [List.map_append, holds.numbered, List.length_append, List.length_singleton,
      List.range'_concat, List.map_singleton, next, holds.limit, Nat.one_mul]
    rfl

/-- Reading from an offset on gives the entries from there on. -/
theorem Holds.read {content : Bytes} (holds : s.Holds es) (spelled : Record.SpellsAll content es)
    (file : d.get? s.name = some (.file content)) {offset : Nat} (inside : s.base ≤ offset)
    (count : Nat) :
    s.read directory d offset count = .ok ((es.drop (offset - s.base)).take count) := by
  obtain ⟨front, behind, rfl, before, rest⟩ := spelled.split (offset - s.base)
  have positions := Record.drop_starts 0 (offset - s.base) es
  rw [Nat.zero_add, ← before.length] at positions
  unfold Segment.read
  rw [holds.positions, positions]
  cases later : es.drop (offset - s.base) with
  | nil => simp [Record.starts]
  | cons e later' =>
    have bytes := Directory.read_of_file file front.length
    rw [List.drop_left] at bytes
    rw [later] at rest
    have numbered : (e :: later').map Entry.offset = List.range' offset (e :: later').length := by
      rw [← later, List.map_drop, holds.numbered, List.drop_range', List.length_drop, Nat.mul_one,
        Nat.add_sub_cancel' inside]
    obtain ⟨read, unread, rfl, taken, -⟩ := rest.split count
    have room : front.length + read.length ≤ s.length := by
      have whole := spelled.length
      rw [holds.length, ← whole, List.length_append, List.length_append]
      omega
    simp only [Record.starts, bytes]
    show readRecords _ _ _ ((Record.starts _ (e :: later')).take count) _ = _
    rw [Record.take_starts]
    exact taken.readRecords (numbered_take numbered count) room unread

theorem Stores.read (stores : s.Stores es)
    (file : d.get? s.name = some (.file (Record.encodeAll es))) {offset : Nat}
    (inside : s.base ≤ offset) (count : Nat) :
    s.read directory d offset count = .ok ((es.drop (offset - s.base)).take count) :=
  stores.holds.read (Record.spellsAll_encodeAll stores.fits) file inside count

end Segment

end QuorumLog
