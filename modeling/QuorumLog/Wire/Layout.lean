import QuorumLog.Text.Utf8
import QuorumLog.Wire.Message

/-! The bytes of a message inside its frame: the tag of its kind in 32 bits, then its fields in
order. Numbers have a fixed width, texts and byte strings follow their length in 64 bits, and
metadata follows one byte that tells whether there is any. Reading gives back what follows the
message, so bytes behind it are no error here. -/

namespace QuorumLog.Message

/-- A byte string behind its length. -/
def block (bytes : Bytes) : Bytes :=
  LittleEndian.encode 8 bytes.length ++ bytes

/-- Metadata behind the byte that announces it. -/
def optional : Option Bytes → Bytes
  | none => [0]
  | some bytes => 1 :: block bytes

def fields : Message → Bytes
  | hello h =>
    block (Utf8.encode h.replicaId) ++ block (Utf8.encode h.token)
      ++ LittleEndian.encode 8 h.lastOffset ++ LittleEndian.encode 4 h.lastChecksum.toNat
      ++ LittleEndian.encode 4 h.version.toNat
  | welcome w =>
    block (Utf8.encode w.masterId) ++ LittleEndian.encode 8 w.current
      ++ LittleEndian.encode 8 w.oldest
  | ping timestamp => LittleEndian.encode 8 timestamp.toNat
  | pong timestamp => LittleEndian.encode 8 timestamp.toNat
  | entry e => LittleEndian.encode 8 e.offset ++ block e.payload ++ optional e.metadata
  | ack offset => LittleEndian.encode 8 offset
  | catchUpComplete offset => LittleEndian.encode 8 offset
  | failure code text => LittleEndian.encode 4 code.toNat ++ block (Utf8.encode text)

def payload (m : Message) : Bytes :=
  LittleEndian.encode 4 m.kind.tag ++ m.fields

/-- The count of bytes of a message, found without writing it. -/
def payloadSize : Message → Nat
  | hello h => 36 + h.replicaId.utf8ByteSize + h.token.utf8ByteSize
  | welcome w => 28 + w.masterId.utf8ByteSize
  | ping _ | pong _ | ack _ | catchUpComplete _ => 12
  | entry e =>
    21 + e.payload.length + match e.metadata with
      | none => 0
      | some bytes => 8 + bytes.length
  | failure _ text => 16 + text.utf8ByteSize

theorem length_payload (m : Message) : m.payload.length = m.payloadSize := by
  cases m with
  | entry e =>
    cases h : e.metadata <;>
      simp [payload, fields, payloadSize, block, optional, h] <;> omega
  | _ =>
    simp only [payload, fields, payloadSize, block, List.length_append,
      LittleEndian.length_encode, Utf8.length_encode] <;> omega

/-- A step of reading bytes: the value at the front and what follows it. -/
abbrev Take (α : Type) := Bytes → Option (α × Bytes)

/-- A number of fixed width. -/
def takeNumber (width : Nat) : Take Nat := fun bytes =>
  if bytes.length < width then none
  else some (LittleEndian.decode (bytes.take width), bytes.drop width)

/-- A byte string behind its length. -/
def takeBlock : Take Bytes := fun bytes => do
  let (length, rest) ← takeNumber 8 bytes
  if rest.length < length then none else some (rest.take length, rest.drop length)

def takeText : Take String := fun bytes => do
  let (block, rest) ← takeBlock bytes
  let text ← Utf8.decode? block
  some (text, rest)

/-- Metadata behind the byte that announces it; the byte is 0 or 1. -/
def takeOptional : Take (Option Bytes)
  | 0 :: rest => some (none, rest)
  | 1 :: rest => (takeBlock rest).map fun (block, rest) => (some block, rest)
  | _ => none

/-- The fields of a message of a known kind. -/
def takeFields : MessageKind → Take Message
  | .hello => fun bytes => do
    let (replicaId, bytes) ← takeText bytes
    let (token, bytes) ← takeText bytes
    let (lastOffset, bytes) ← takeNumber 8 bytes
    let (lastChecksum, bytes) ← takeNumber 4 bytes
    let (version, bytes) ← takeNumber 4 bytes
    some (.hello ⟨replicaId, token, lastOffset, .ofNat lastChecksum, .ofNat version⟩, bytes)
  | .welcome => fun bytes => do
    let (masterId, bytes) ← takeText bytes
    let (current, bytes) ← takeNumber 8 bytes
    let (oldest, bytes) ← takeNumber 8 bytes
    some (.welcome ⟨masterId, current, oldest⟩, bytes)
  | .ping => fun bytes => do
    let (timestamp, bytes) ← takeNumber 8 bytes
    some (.ping (.ofNat timestamp), bytes)
  | .pong => fun bytes => do
    let (timestamp, bytes) ← takeNumber 8 bytes
    some (.pong (.ofNat timestamp), bytes)
  | .entry => fun bytes => do
    let (offset, bytes) ← takeNumber 8 bytes
    let (payload, bytes) ← takeBlock bytes
    let (metadata, bytes) ← takeOptional bytes
    some (.entry ⟨offset, payload, metadata⟩, bytes)
  | .ack => fun bytes => do
    let (offset, bytes) ← takeNumber 8 bytes
    some (.ack offset, bytes)
  | .catchUpComplete => fun bytes => do
    let (offset, bytes) ← takeNumber 8 bytes
    some (.catchUpComplete offset, bytes)
  | .failure => fun bytes => do
    let (code, bytes) ← takeNumber 4 bytes
    let (text, bytes) ← takeText bytes
    some (.failure (.ofNat code) text, bytes)

/-- The message at the front of a payload. -/
def takePayload : Take Message := fun bytes => do
  let (tag, rest) ← takeNumber 4 bytes
  let kind ← MessageKind.ofTag? tag
  takeFields kind rest

end QuorumLog.Message
