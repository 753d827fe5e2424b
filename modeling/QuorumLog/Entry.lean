import QuorumLog.Format.Crc32

/-! One record of the replicated log. Its checksum covers the offset, the payload with its length,
and the metadata behind a mark that tells absent metadata from empty metadata. -/

namespace QuorumLog

/-- A record at its place in the log (`LogEntry`). -/
structure Entry where
  /-- The position in the log; the first is 1. -/
  offset : Nat
  payload : Bytes
  metadata : Option Bytes := none
deriving DecidableEq, Repr, Inhabited

namespace Entry

/-- The bytes that the checksum covers. -/
def digestInput (e : Entry) : Bytes :=
  LittleEndian.encode 8 e.offset ++ LittleEndian.encode 8 e.payload.length ++ e.payload ++
    match e.metadata with
    | none => [0]
    | some metadata => 1 :: metadata

/-- Two logs that hold the same record at one offset agree on it (`LogEntry.checksum`). -/
def checksum (e : Entry) : UInt32 :=
  Crc32.checksum e.digestInput

end Entry

end QuorumLog
