import QuorumLog.Fault
import QuorumLog.Wire.Layout

/-! Frames on a connection: the code of the message's kind, the length of its payload in 32 bits,
the payload, and a checksum of everything before it. `decode` takes one whole frame; `next` takes
the first frame off a byte stream, and `readAll` all of them. -/

namespace QuorumLog.Frame

/-- The largest payload that a frame may carry: 64 MiB. -/
def maxPayload : Nat := 64 * 1024 * 1024

/-- Everything that the checksum of a frame covers. -/
def covered (m : Message) : Bytes :=
  m.kind.code :: LittleEndian.encode 4 m.payloadSize ++ m.payload

/-- A byte string with its checksum behind it. -/
def sealed (bytes : Bytes) : Bytes :=
  bytes ++ LittleEndian.encode 4 (Crc32.checksum bytes).toNat

/-- The frame of a message, unless its payload is too large (`ReplicationMessage.encode`). -/
def encode (m : Message) : Except Fault Bytes :=
  if maxPayload < m.payloadSize then .error (.protocol (.tooLarge m.payloadSize))
  else .ok (sealed (covered m))

/-- The frames of several messages, one after the other. -/
def encodeAll (messages : List Message) : Except Fault Bytes :=
  messages.foldlM (fun stream m => (encode m).map (stream ++ ·)) []

/-- The message in one whole frame (`ReplicationMessage.decode`). The checksum is looked at first,
then the kind, the length, the payload, and last whether the payload is of that kind. -/
def decode (bytes : Bytes) : Except Fault Message := do
  if bytes.length < 9 then throw (.protocol .tooShort)
  let body := bytes.take (bytes.length - 4)
  let stored := UInt32.ofNat (LittleEndian.decode (bytes.drop (bytes.length - 4)))
  let computed := Crc32.checksum body
  if stored ≠ computed then throw (.protocol (.checksum stored computed))
  let code := body.headD 0
  let some kind := MessageKind.ofCode? code | throw (.protocol (.unknownKind code))
  let length := LittleEndian.decode ((body.drop 1).take 4)
  if body.length ≠ 5 + length then throw (.protocol .incomplete)
  let some (m, _) := Message.takePayload (body.drop 5) | throw (.protocol .malformed)
  if m.kind ≠ kind then throw (.protocol (.kindMismatch kind m.kind))
  return m

/-- The first frame on a stream and what follows it (`ReplicationMessage.read_from`). A frame that
is announced too large is not waited for; a stream that ends inside a frame, or before one, is read
to its end. -/
def next (stream : Bytes) : Except Fault Message × Bytes :=
  if stream.length < 5 then (.error (.io .earlyEnd), [])
  else
    let length := LittleEndian.decode ((stream.drop 1).take 4)
    if maxPayload < length then (.error (.protocol (.tooLarge length)), stream.drop 5)
    else if stream.length < 9 + length then (.error (.io .earlyEnd), [])
    else (decode (stream.take (9 + length)), stream.drop (9 + length))

/-- What a stream held up to its first fault. -/
structure Transcript where
  messages : List Message
  /-- The fault; the end of the stream is one. -/
  fault : Fault
  /-- The bytes that were not read. -/
  unread : Bytes

/-- Reads messages until the first fault. -/
def readAll (stream : Bytes) : Transcript :=
  match _h : next stream with
  | (.error fault, rest) => ⟨[], fault, rest⟩
  | (.ok m, rest) =>
    let later := readAll rest
    { later with messages := m :: later.messages }
termination_by stream.length
decreasing_by
  simp only [next] at _h
  split at _h
  · cases _h
  · split at _h
    · cases _h
    · split at _h
      · cases _h
      · obtain ⟨-, rfl⟩ := Prod.mk.inj _h
        simp only [List.length_drop]
        omega

end QuorumLog.Frame
