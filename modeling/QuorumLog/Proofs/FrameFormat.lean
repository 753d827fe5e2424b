import QuorumLog.Proofs.FrameCodec

/-! Which byte strings are frames. Whatever a reader takes for a field, a message or a frame is written
exactly as its format says, so what is read back is not only found in every frame: a byte string that
is no frame of a message never gives it. A payload may be longer than its message if its length says
so. -/

namespace QuorumLog

theorem MessageKind.tag_of_ofTag? {tag : Nat} {kind : MessageKind} (known : ofTag? tag = some kind) :
    kind.tag = tag := by
  have found := List.find?_some (show List.find? _ _ = _ from known)
  exact of_decide_eq_true found

theorem MessageKind.code_of_ofCode? {code : UInt8} {kind : MessageKind}
    (known : ofCode? code = some kind) : kind.code = code := by
  have found := List.find?_some (show List.find? _ _ = _ from known)
  exact of_decide_eq_true found

namespace Message

variable {bytes rest : Bytes}

/-! ### Fields -/

theorem of_takeNumber {width n : Nat} (read : takeNumber width bytes = some (n, rest)) :
    n < 256 ^ width ∧ bytes = LittleEndian.encode width n ++ rest := by
  unfold takeNumber at read
  split at read
  · cases read
  rename_i enough
  cases read
  have long : (bytes.take width).length = width := by
    rw [List.length_take]
    omega
  have small := LittleEndian.decode_lt (bytes.take width)
  have written := LittleEndian.encode_decode (bytes.take width)
  rw [long] at small written
  exact ⟨small, by rw [written, List.take_append_drop]⟩

theorem of_takeBlock {content : Bytes} (read : takeBlock bytes = some (content, rest)) :
    content.length < UInt64.size ∧ bytes = block content ++ rest := by
  obtain ⟨⟨length, behind⟩, header, body⟩ := Option.bind_eq_some_iff.mp read
  obtain ⟨small, rfl⟩ := of_takeNumber header
  dsimp only at body
  split at body
  · cases body
  rename_i enough
  cases body
  have long : (behind.take length).length = length := by
    rw [List.length_take]
    omega
  refine ⟨long.symm ▸ small, ?_⟩
  rw [block, long, List.append_assoc, List.take_append_drop]

theorem of_takeText {text : String} (read : takeText bytes = some (text, rest)) :
    text.utf8ByteSize < UInt64.size ∧ bytes = block (Utf8.encode text) ++ rest := by
  obtain ⟨⟨content, behind⟩, found, body⟩ := Option.bind_eq_some_iff.mp read
  obtain ⟨small, rfl⟩ := of_takeBlock found
  obtain ⟨decoded, valid, same⟩ := Option.bind_eq_some_iff.mp body
  cases same
  rw [← Utf8.length_encode, Utf8.encode_of_decode?_eq_some valid]
  exact ⟨small, rfl⟩

theorem of_takeOptional {metadata : Option Bytes}
    (read : takeOptional bytes = some (metadata, rest)) : bytes = optional metadata ++ rest := by
  unfold takeOptional at read
  split at read
  · cases read
    rfl
  · obtain ⟨⟨content, behind⟩, found, same⟩ := Option.map_eq_some_iff.mp read
    cases same
    rw [(of_takeBlock found).2]
    rfl
  · cases read

/-! ### Messages -/

variable {m : Message} {kind : MessageKind}

/-- The fields that are read as a message are those of the message, and its numbers have the width of
their fields. -/
theorem of_takeFields (read : takeFields kind bytes = some (m, rest)) :
    m.kind = kind ∧ m.Fits ∧ bytes = m.fields ++ rest := by
  cases kind with
  | hello =>
    obtain ⟨⟨replicaId, _⟩, first, read⟩ := Option.bind_eq_some_iff.mp read
    obtain ⟨⟨token, _⟩, second, read⟩ := Option.bind_eq_some_iff.mp read
    obtain ⟨⟨lastOffset, _⟩, third, read⟩ := Option.bind_eq_some_iff.mp read
    obtain ⟨⟨lastChecksum, _⟩, fourth, read⟩ := Option.bind_eq_some_iff.mp read
    obtain ⟨⟨version, _⟩, fifth, read⟩ := Option.bind_eq_some_iff.mp read
    cases read
    obtain ⟨-, rfl⟩ := of_takeText first
    obtain ⟨-, rfl⟩ := of_takeText second
    obtain ⟨fits, rfl⟩ := of_takeNumber third
    obtain ⟨sum, rfl⟩ := of_takeNumber fourth
    obtain ⟨spoken, rfl⟩ := of_takeNumber fifth
    refine ⟨rfl, fits, ?_⟩
    simp only [fields, UInt32.toNat_ofNat_of_lt' sum, UInt32.toNat_ofNat_of_lt' spoken,
      List.append_assoc]
  | welcome =>
    obtain ⟨⟨masterId, _⟩, first, read⟩ := Option.bind_eq_some_iff.mp read
    obtain ⟨⟨current, _⟩, second, read⟩ := Option.bind_eq_some_iff.mp read
    obtain ⟨⟨oldest, _⟩, third, read⟩ := Option.bind_eq_some_iff.mp read
    cases read
    obtain ⟨-, rfl⟩ := of_takeText first
    obtain ⟨fits, rfl⟩ := of_takeNumber second
    obtain ⟨fits', rfl⟩ := of_takeNumber third
    refine ⟨rfl, ⟨fits, fits'⟩, ?_⟩
    simp only [fields, List.append_assoc]
  | ping | pong =>
    obtain ⟨⟨timestamp, _⟩, first, read⟩ := Option.bind_eq_some_iff.mp read
    cases read
    obtain ⟨fits, rfl⟩ := of_takeNumber first
    exact ⟨rfl, trivial, by simp only [fields, UInt64.toNat_ofNat_of_lt' fits]⟩
  | entry =>
    obtain ⟨⟨offset, _⟩, first, read⟩ := Option.bind_eq_some_iff.mp read
    obtain ⟨⟨payload, _⟩, second, read⟩ := Option.bind_eq_some_iff.mp read
    obtain ⟨⟨metadata, _⟩, third, read⟩ := Option.bind_eq_some_iff.mp read
    cases read
    obtain ⟨fits, rfl⟩ := of_takeNumber first
    obtain ⟨-, rfl⟩ := of_takeBlock second
    obtain rfl := of_takeOptional third
    refine ⟨rfl, fits, ?_⟩
    simp only [fields, List.append_assoc]
  | ack | catchUpComplete =>
    obtain ⟨⟨offset, _⟩, first, read⟩ := Option.bind_eq_some_iff.mp read
    cases read
    obtain ⟨fits, rfl⟩ := of_takeNumber first
    exact ⟨rfl, fits, rfl⟩
  | failure =>
    obtain ⟨⟨code, _⟩, first, read⟩ := Option.bind_eq_some_iff.mp read
    obtain ⟨⟨text, _⟩, second, read⟩ := Option.bind_eq_some_iff.mp read
    cases read
    obtain ⟨fits, rfl⟩ := of_takeNumber first
    obtain ⟨-, rfl⟩ := of_takeText second
    refine ⟨rfl, trivial, ?_⟩
    simp only [fields, UInt32.toNat_ofNat_of_lt' fits, List.append_assoc]

theorem of_takePayload (read : takePayload bytes = some (m, rest)) :
    m.Fits ∧ bytes = m.payload ++ rest := by
  obtain ⟨⟨tag, _⟩, header, body⟩ := Option.bind_eq_some_iff.mp read
  obtain ⟨kind, known, body⟩ := Option.bind_eq_some_iff.mp body
  obtain ⟨-, rfl⟩ := of_takeNumber header
  obtain ⟨rfl, fits, rfl⟩ := of_takeFields body
  exact ⟨fits, by rw [payload, MessageKind.tag_of_ofTag? known, List.append_assoc]⟩

end Message

/-! ### Frames -/

namespace Frame

variable {bytes frame : Bytes} {m : Message}

/-- A byte string ends with the checksum of what stands before if that is what the last four bytes
say. -/
theorem sealed_of_checksum {body : Bytes} (long : 4 ≤ bytes.length)
    (front : bytes.take (bytes.length - 4) = body)
    (stored : UInt32.ofNat (LittleEndian.decode (bytes.drop (bytes.length - 4))) =
      Crc32.checksum body) : bytes = sealed body := by
  have four : (bytes.drop (bytes.length - 4)).length = 4 := by
    rw [List.length_drop]
    omega
  have small := LittleEndian.decode_lt (bytes.drop (bytes.length - 4))
  have written := LittleEndian.encode_decode (bytes.drop (bytes.length - 4))
  rw [four] at small written
  rw [sealed, ← stored, UInt32.toNat_ofNat_of_lt' small, written, ← front, List.take_append_drop]

/-- All that was looked at in a byte string that gave a message. -/
theorem checks_of_decode (read : decode bytes = .ok m) :
    9 ≤ bytes.length ∧ ∃ body : Bytes, bytes = sealed body ∧
      MessageKind.ofCode? (body.headD 0) = some m.kind ∧
      body.length = 5 + LittleEndian.decode ((body.drop 1).take 4) ∧
      ∃ padding, Message.takePayload (body.drop 5) = some (m, padding) := by
  simp only [decode, bind, Except.bind, throw, throwThe, MonadExceptOf.throw, pure, Except.pure] at read
  split at read
  · cases read
  rename_i long
  split at read
  · cases read
  rename_i same
  split at read
  case h_2 => cases read
  rename_i kind known
  split at read
  · cases read
  rename_i complete
  split at read
  case h_2 => cases read
  rename_i m' padding payload
  split at read
  · cases read
  rename_i agrees
  cases read
  refine ⟨Nat.le_of_not_lt long, _, sealed_of_checksum (by omega) rfl (Decidable.not_not.mp same), ?_,
    Decidable.not_not.mp complete, padding, payload⟩
  rw [known, Decidable.not_not.mp agrees]

/-- What gave a message is a frame of it, up to bytes that stand behind the message. -/
theorem of_decode (read : decode bytes = .ok m) : m.Fits ∧ ∃ padding : Bytes,
    m.payloadSize + padding.length < UInt32.size ∧ bytes = sealed (padded m padding) := by
  obtain ⟨long, body, rfl, known, complete, padding, payload⟩ := checks_of_decode read
  obtain ⟨fits, written⟩ := Message.of_takePayload payload
  have size : LittleEndian.decode ((body.drop 1).take 4) = m.payloadSize + padding.length := by
    have whole := congrArg List.length written
    rw [List.length_drop, List.length_append, Message.length_payload] at whole
    omega
  have four : ((body.drop 1).take 4).length = 4 := by
    rw [List.length_take, List.length_drop]
    omega
  have small := LittleEndian.decode_lt ((body.drop 1).take 4)
  have header := LittleEndian.encode_decode ((body.drop 1).take 4)
  rw [four, size] at small header
  refine ⟨fits, padding, small, congrArg sealed ?_⟩
  rw [padded, header, ← written, MessageKind.code_of_ofCode? known]
  cases body with
  | nil =>
    rw [List.length_nil] at complete
    omega
  | cons first later =>
    show first :: later = first :: (later.take 4 ++ later.drop 4)
    rw [List.take_append_drop]

/-- A frame of a message, with any bytes behind the message in its payload. -/
structure Frames (m : Message) (padding bytes : Bytes) : Prop where
  fits : m.Fits
  /-- The length of the payload can be told in 32 bits. -/
  small : m.payload.length + padding.length < 2 ^ 32
  /-- The code of the kind, the length, the payload, and the checksum of all that. -/
  written : ∃ covered : Bytes, bytes = covered ++ LittleEndian.encode 4 (Crc32.checksum covered).toNat ∧
    covered = [m.kind.code] ++ LittleEndian.encode 4 (m.payload.length + padding.length) ++
      m.payload ++ padding

/-- The reader takes exactly the frames of a message for that message. A message has a frame without
padding from the writer exactly if its payload is not larger than 64 MiB, and that is read back. -/
theorem decode_iff_frames (m : Message) :
    (∀ bytes, decode bytes = .ok m ↔ ∃ padding, Frames m padding bytes) ∧
    ((∃ frame, encode m = .ok frame) ↔ m.payload.length ≤ 64 * 1024 * 1024) ∧
    ∀ frame, encode m = .ok frame → (decode frame = .ok m ↔ m.Fits) := by
  refine ⟨fun bytes => ⟨fun read => ?_, ?_⟩, ?_, fun frame encoded => ⟨fun read => ?_, fun fits => ?_⟩⟩
  · obtain ⟨fits, padding, small, rfl⟩ := of_decode read
    exact ⟨padding, fits, m.length_payload.symm ▸ small, padded m padding, rfl, by
      simp [padded, Message.length_payload]⟩
  · rintro ⟨padding, fits, small, covered, rfl, rfl⟩
    have same : [m.kind.code] ++ LittleEndian.encode 4 (m.payload.length + padding.length) ++
        m.payload ++ padding = padded m padding := by simp [padded, Message.length_payload]
    rw [same]
    exact decode_sealed fits (m.length_payload ▸ small)
  · rw [encode_ok_iff, Message.length_payload]
    rfl
  · exact (of_decode read).1
  · obtain ⟨small, rfl⟩ := encode_of_ok encoded
    exact decode_sealed fits (Nat.lt_of_le_of_lt small (by decide))

end Frame

end QuorumLog
