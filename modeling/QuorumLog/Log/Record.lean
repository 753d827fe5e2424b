import QuorumLog.Entry
import QuorumLog.Fault

/-! One entry as it is stored: a header with the length of the body, the offset, flags and a
checksum, then the body. The body of an entry with metadata starts with the length of the payload.
`Record.next` takes the first record off a byte string and leaves a shorter rest. -/

namespace QuorumLog.Record

/-- The bytes of a header: four for the length, eight for the offset, one for the flags and four for
the checksum. -/
def headerSize : Nat := 17

/-- Everything behind the header. -/
def body (e : Entry) : Bytes :=
  match e.metadata with
  | none => e.payload
  | some metadata => LittleEndian.encode 4 e.payload.length ++ e.payload ++ metadata

/-- The lowest bit tells whether there is metadata. -/
def flags (e : Entry) : UInt8 := if e.metadata.isSome then 1 else 0

/-- The checksum of a record covers everything but the length of the body (`record_crc`). -/
def digest (offset : Nat) (flags : UInt8) (body : Bytes) : UInt32 :=
  Crc32.checksum (LittleEndian.encode 8 offset ++ flags :: body)

def size (e : Entry) : Nat := headerSize + (body e).length

def encode (e : Entry) : Bytes :=
  LittleEndian.encode 4 (body e).length ++ LittleEndian.encode 8 e.offset ++ [flags e]
    ++ LittleEndian.encode 4 (digest e.offset (flags e) (body e)).toNat ++ body e

/-- The payload and the metadata in a body. Flags other than the lowest bit mean nothing. -/
def openBody (flags : UInt8) (body : Bytes) : Except LogCause (Bytes × Option Bytes) :=
  if flags &&& 1 = 0 then .ok (body, none)
  else if body.length < 4 then .error .metadataTooShort
  else
    let length := LittleEndian.decode (body.take 4)
    if body.length < 4 + length then .error .metadataOverrun
    else .ok ((body.drop 4).take length, some (body.drop (4 + length)))

/-- Takes the first record off a byte string, or nothing off the empty one (`read_record`).
`available` is what the segment has left from here on, and a header that claims more is refused
before the body is looked at. -/
def next (available : Nat) (bytes : Bytes) : Except LogCause (Option (Entry × Bytes)) :=
  let header := bytes.take headerSize
  if header.isEmpty then .ok none
  else if header.length < headerSize then .error .tornHeader
  else
    let length := LittleEndian.decode (header.take 4)
    let offset := LittleEndian.decode ((header.drop 4).take 8)
    let flags := (header.drop 12).headD 0
    let stored := UInt32.ofNat (LittleEndian.decode (header.drop 13))
    if available - headerSize < length then .error (.overrun length available)
    else
      let body := (bytes.drop headerSize).take length
      if body.length < length then .error .tornBody
      else if digest offset flags body ≠ stored then .error (.checksum offset)
      else match openBody flags body with
        | .error cause => .error cause
        | .ok (payload, metadata) =>
          .ok (some (⟨offset, payload, metadata⟩, bytes.drop (headerSize + length)))

@[simp] theorem length_encode (e : Entry) : (encode e).length = size e := by
  simp [encode, size, headerSize]
  omega

theorem next_nil (available : Nat) : next available [] = .ok none := by
  simp [next]

/-- A record takes bytes, so reading on ends. -/
theorem length_lt_of_next {available : Nat} {bytes rest : Bytes} {e : Entry}
    (h : next available bytes = .ok (some (e, rest))) : rest.length < bytes.length := by
  unfold next at h
  dsimp only at h
  split at h
  · cases h
  split at h
  · cases h
  · rename_i hempty _
    split at h
    · cases h
    split at h
    · cases h
    split at h
    · cases h
    split at h
    · cases h
    · cases h
      have : bytes ≠ [] := by
        rintro rfl
        simp at hempty
      have : 0 < bytes.length := List.length_pos_iff.2 this
      simp only [List.length_drop, headerSize]
      omega

end QuorumLog.Record
