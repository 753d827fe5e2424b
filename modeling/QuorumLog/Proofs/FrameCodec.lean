import QuorumLog.Proofs.LittleEndian
import QuorumLog.Wire.Frame

/-! What is written to a connection is read back. Each field gives its value in front of any other
bytes and leaves those, so a payload gives its message, a frame gives what was framed, and the frames of
a stream are taken off one by one. -/

namespace QuorumLog

namespace Message

/-! ### Fields -/

/-- A number in front of other bytes, if the width can hold it. -/
theorem takeNumber_encode {width n : Nat} (small : n < 256 ^ width) (rest : Bytes) :
    takeNumber width (LittleEndian.encode width n ++ rest) = some (n, rest) := by
  have enough : ¬(LittleEndian.encode width n ++ rest).length < width := by simp
  have long : (LittleEndian.encode width n).length = width := LittleEndian.length_encode width n
  rw [takeNumber, if_neg enough, List.take_left' long, List.drop_left' long,
    LittleEndian.decode_encode_of_lt small]

/-- An offset, if it has 64 bits. -/
theorem takeNumber_offset {offset : Nat} (fits : offset < UInt64.size) (rest : Bytes) :
    takeNumber 8 (LittleEndian.encode 8 offset ++ rest) = some (offset, rest) :=
  takeNumber_encode fits rest

theorem takeNumber_uint64 (n : UInt64) (rest : Bytes) :
    takeNumber 8 (LittleEndian.encode 8 n.toNat ++ rest) = some (n.toNat, rest) :=
  takeNumber_encode n.toNat_lt rest

theorem takeNumber_uint32 (n : UInt32) (rest : Bytes) :
    takeNumber 4 (LittleEndian.encode 4 n.toNat ++ rest) = some (n.toNat, rest) :=
  takeNumber_encode n.toNat_lt rest

theorem takeBlock_block {bytes : Bytes} (small : bytes.length < UInt64.size) (rest : Bytes) :
    takeBlock (block bytes ++ rest) = some (bytes, rest) := by
  have enough : ¬(bytes ++ rest).length < bytes.length := by simp
  rw [takeBlock, block, List.append_assoc, takeNumber_encode small]
  simp only [Option.bind_eq_bind, Option.bind_some, if_neg enough, List.take_left, List.drop_left]

theorem takeText_block {text : String} (small : text.utf8ByteSize < UInt64.size) (rest : Bytes) :
    takeText (block (Utf8.encode text) ++ rest) = some (text, rest) := by
  rw [← Utf8.length_encode] at small
  simp only [takeText, takeBlock_block small, Option.bind_eq_bind, Option.bind_some,
    Utf8.decode?_encode]

theorem takeOptional_optional {metadata : Option Bytes}
    (small : ∀ bytes, metadata = some bytes → bytes.length < UInt64.size) (rest : Bytes) :
    takeOptional (optional metadata ++ rest) = some (metadata, rest) := by
  cases metadata with
  | none => rfl
  | some bytes =>
    rw [optional, List.cons_append, takeOptional, takeBlock_block (small bytes rfl), Option.map_some]

/-! ### Messages -/

variable {m : Message}

/-- The fields of a message in front of other bytes give the message, whatever its kind. -/
theorem takeFields_fields (fits : m.Fits) (small : m.payloadSize < UInt64.size) (rest : Bytes) :
    takeFields m.kind (m.fields ++ rest) = some (m, rest) := by
  cases m with
  | hello h =>
    have last : h.lastOffset < UInt64.size := fits
    have id : h.replicaId.utf8ByteSize < UInt64.size := by
      simp only [payloadSize] at small
      omega
    have token : h.token.utf8ByteSize < UInt64.size := by
      simp only [payloadSize] at small
      omega
    simp only [kind, fields, takeFields, List.append_assoc, takeText_block id, takeText_block token,
      takeNumber_offset last, takeNumber_uint32, Option.bind_eq_bind, Option.bind_some,
      UInt32.ofNat_toNat]
  | welcome w =>
    have id : w.masterId.utf8ByteSize < UInt64.size := by
      simp only [payloadSize] at small
      omega
    simp only [kind, fields, takeFields, List.append_assoc, takeText_block id,
      takeNumber_offset fits.1, takeNumber_offset fits.2, Option.bind_eq_bind, Option.bind_some]
  | ping timestamp | pong timestamp =>
    simp only [kind, fields, takeFields, takeNumber_uint64,
      Option.bind_eq_bind, Option.bind_some, UInt64.ofNat_toNat]
  | entry e =>
    have offset : e.offset < UInt64.size := fits
    have payload : e.payload.length < UInt64.size := by
      simp only [payloadSize] at small
      omega
    have metadata : ∀ bytes, e.metadata = some bytes → bytes.length < UInt64.size := by
      intro bytes carried
      simp only [payloadSize, carried] at small
      omega
    simp only [kind, fields, takeFields, List.append_assoc, takeNumber_offset offset,
      takeBlock_block payload, takeOptional_optional metadata, Option.bind_eq_bind,
      Option.bind_some]
  | ack offset | catchUpComplete offset =>
    have within : offset < UInt64.size := fits
    simp only [kind, fields, takeFields, takeNumber_offset within, Option.bind_eq_bind,
      Option.bind_some]
  | failure code text =>
    have text : text.utf8ByteSize < UInt64.size := by
      simp only [payloadSize] at small
      omega
    simp only [kind, fields, takeFields, List.append_assoc, takeText_block text,
      takeNumber_uint32, Option.bind_eq_bind, Option.bind_some,
      UInt32.ofNat_toNat]

theorem takePayload_payload (fits : m.Fits) (small : m.payloadSize < UInt64.size) (rest : Bytes) :
    takePayload (m.payload ++ rest) = some (m, rest) := by
  have tag : m.kind.tag < 256 ^ 4 := by
    cases m.kind <;> decide
  simp only [takePayload, payload, List.append_assoc, takeNumber_encode tag, Option.bind_eq_bind,
    Option.bind_some, MessageKind.ofTag?_tag, takeFields_fields fits small]

end Message

/-! ### Frames -/

namespace Frame

variable {m : Message} {frame : Bytes}

/-- What the checksum covers if more bytes stand behind the payload. -/
def padded (m : Message) (padding : Bytes) : Bytes :=
  m.kind.code :: LittleEndian.encode 4 (m.payloadSize + padding.length) ++ (m.payload ++ padding)

theorem length_padded (m : Message) (padding : Bytes) :
    (padded m padding).length = 5 + (m.payloadSize + padding.length) := by
  simp only [padded, List.length_append, List.length_cons, LittleEndian.length_encode,
    Message.length_payload]

theorem covered_eq_padded (m : Message) : covered m = padded m [] := by
  simp [covered, padded]

theorem length_sealed (bytes : Bytes) : (sealed bytes).length = bytes.length + 4 := by
  simp [sealed]

/-- The checksum of a sealed byte string is that of the bytes in front of it. -/
theorem checksum_of_sealed (bytes : Bytes) :
    (sealed bytes).take ((sealed bytes).length - 4) = bytes ∧
      UInt32.ofNat (LittleEndian.decode ((sealed bytes).drop ((sealed bytes).length - 4))) =
        Crc32.checksum bytes := by
  have long : (sealed bytes).length - 4 = bytes.length := by simp [length_sealed]
  rw [long, sealed, List.take_left, List.drop_left,
    LittleEndian.decode_encode_of_lt (UInt32.toNat_lt _), UInt32.ofNat_toNat]
  exact ⟨rfl, rfl⟩

/-- The header of a frame tells the length of all that stands before the checksum. -/
theorem length_of_padded {padding : Bytes} (small : m.payloadSize + padding.length < UInt32.size)
    (rest : Bytes) : LittleEndian.decode (((padded m padding ++ rest).drop 1).take 4) =
      m.payloadSize + padding.length := by
  rw [padded, List.cons_append, List.cons_append, List.drop_one, List.tail_cons, List.append_assoc,
    List.take_left' (LittleEndian.length_encode 4 _), LittleEndian.decode_encode_of_lt small]

/-- A sealed frame gives its message, also if it is longer than the message and says so. -/
theorem decode_sealed (fits : m.Fits) {padding : Bytes}
    (small : m.payloadSize + padding.length < UInt32.size) :
    decode (sealed (padded m padding)) = .ok m := by
  obtain ⟨body, stored⟩ := checksum_of_sealed (padded m padding)
  have long : ¬(sealed (padded m padding)).length < 9 := by
    rw [length_sealed, length_padded]
    omega
  have announced := length_of_padded small []
  rw [List.append_nil] at announced
  have complete : (padded m padding).length = 5 + (m.payloadSize + padding.length) :=
    length_padded m padding
  have payload : (padded m padding).drop 5 = m.payload ++ padding := by
    rw [padded, List.drop_left' (by simp)]
  have read := Message.takePayload_payload fits (Nat.lt_of_le_of_lt (Nat.le_add_right _ _)
    (Nat.lt_trans small (by decide))) padding
  have code : (padded m padding).headD 0 = m.kind.code := rfl
  simp only [decode, if_neg long, body, stored, code, MessageKind.ofCode?_code, announced, complete,
    payload, read, ne_eq, not_true_eq_false, if_false]
  rfl

/-- A message with a frame is small. -/
theorem encode_of_ok (encoded : encode m = .ok frame) :
    m.payloadSize ≤ maxPayload ∧ frame = sealed (padded m []) := by
  unfold encode at encoded
  split at encoded
  · cases encoded
  · rename_i small
    cases encoded
    exact ⟨Nat.le_of_not_lt small, by rw [covered_eq_padded]⟩

/-- A message has a frame exactly if its payload is not too large. -/
theorem encode_ok_iff (m : Message) :
    (∃ frame, encode m = .ok frame) ↔ m.payloadSize ≤ maxPayload := by
  constructor
  · rintro ⟨frame, encoded⟩
    exact (encode_of_ok encoded).1
  · intro small
    exact ⟨_, if_neg (Nat.not_lt.mpr small)⟩

/-- The first frame of a stream gives its message and leaves the stream behind it. -/
theorem next_encode (fits : m.Fits) (encoded : encode m = .ok frame) (rest : Bytes) :
    next (frame ++ rest) = (.ok m, rest) := by
  obtain ⟨small, rfl⟩ := encode_of_ok encoded
  have long : (sealed (padded m [])).length = 9 + m.payloadSize := by
    rw [length_sealed, length_padded, List.length_nil]
    omega
  have within : m.payloadSize + ([] : Bytes).length < UInt32.size :=
    Nat.lt_of_le_of_lt small (by decide)
  have announced : LittleEndian.decode (((sealed (padded m []) ++ rest).drop 1).take 4) =
      m.payloadSize := by
    rw [sealed, List.append_assoc, length_of_padded within, List.length_nil, Nat.add_zero]
  have enough : 9 + m.payloadSize ≤ (sealed (padded m []) ++ rest).length := by
    rw [List.length_append, long]
    exact Nat.le_add_right _ _
  rw [next, if_neg (by omega)]
  simp only [announced]
  rw [if_neg (Nat.not_lt.mpr small), if_neg (Nat.not_lt.mpr enough), List.take_left' long,
    List.drop_left' long, decode_sealed fits within]

end Frame

end QuorumLog
