import QuorumLog.Net.Address
import QuorumLog.Time.Span
import QuorumLog.Text.Quoted
import QuorumLog.Wire.Message

/-! What can go wrong. Each area has its causes, and `Fault` collects them; the wording of all of
them is in this module alone. A fault is fatal if trying again cannot help. -/

namespace QuorumLog

/-- Why a call on a file or a stream failed. -/
inductive IoCause where
  | system (number : Nat)
  | earlyEnd
  | appendRefused
  | other (text : String)
deriving DecidableEq, Repr

/-- Why a stored log could not be read or extended. -/
inductive LogCause where
  | tornHeader
  | overrun (length available : Nat)
  | tornBody
  /-- The checksum of a record does not match; the offset is the one it claims. -/
  | checksum (offset : Nat)
  | metadataTooShort
  | metadataOverrun
  /-- An entry does not follow the last one. -/
  | notContiguous (expected actual : Nat)
  /-- A segment does not start where the one before it ends. -/
  | segmentGap (base highest : Nat)
  /-- A file has no record where the index has one. -/
  | truncated (file : String)
  /-- A file has another record where the index has one. -/
  | offsetMismatch (file : String) (expected actual : Nat)
  | other (text : String)
deriving DecidableEq, Repr

/-- Why two nodes stopped talking, or would not start. -/
inductive ReplicationCause where
  | handshakeTimeout (peer : SocketAddress)
  | noPlace (connected : Nat) (limit : UInt32)
  /-- The log has a hole where the next entry should be shipped. -/
  | shippingGap (replicaId : String) (expected actual : Nat)
  /-- An entry arrived too early. -/
  | streamGap (expected actual : Nat)
  /-- The master reported a failure without a number worth repeating. -/
  | reported (text : String)
  | reportedCode (text : String) (code : UInt32)
  | masterRunning
  | replicaRunning
  | connectTimeout
  | welcomeTimeout
  | masterSilent (span : Span)
  | other (text : String)
deriving DecidableEq, Repr

/-- Why a frame or a message was not understood, or not expected. -/
inductive ProtocolCause where
  | tooShort
  | checksum (stored computed : UInt32)
  | unknownKind (code : UInt8)
  | incomplete
  | malformed
  | kindMismatch (frame payload : MessageKind)
  | tooLarge (size : Nat)
  /-- A message came that reports no failure. -/
  | unexpected (kind : MessageKind)
  | versionMismatch (expected actual : UInt32)
  | expectedHello (peer : SocketAddress) (kind : MessageKind)
  | expectedWelcome (kind : MessageKind)
  | other (text : String)
deriving DecidableEq, Repr

/-- Why settings were refused. -/
inductive SettingsCause where
  | noNodeId
  | noMaster
  | noCopies
  | tooManyCopies (copies limit : UInt32)
  /-- A peer would be given up before it could be silent. -/
  | noMissedHeartbeats
  | noHeartbeat
  | noBatch
  | noSegmentSize
  | notMasterRole
  | notReplicaRole
  | noMasterAddress
  | alreadyMaster (nodeId : String)
  | other (text : String)
deriving DecidableEq, Repr

/-- Why a peer was not trusted. -/
inductive TrustCause where
  | wrongToken (replicaId : String) (peer : SocketAddress)
  | other (text : String)
deriving DecidableEq, Repr

/-- Why something that was stopped, or overtaken, gave no result. -/
inductive StopCause where
  | master
  /-- No one is left who could settle the write. -/
  | abandoned (offset : Nat)
  | superseded (replicaId : String)
  | other (text : String)
deriving DecidableEq, Repr

/-- What can go wrong (`Error`). -/
inductive Fault where
  | io (cause : IoCause)
  | log (cause : LogCause)
  | replication (cause : ReplicationCause)
  | protocol (cause : ProtocolCause)
  | settings (cause : SettingsCause)
  | trust (cause : TrustCause)
  /-- The replica at this offset has another history than the master, who retains this range. -/
  | divergence (replica oldest current : Nat)
  | notMaster (text : String)
  | stopped (cause : StopCause)
  | internal (text : String)
deriving DecidableEq, Repr

def IoCause.text : IoCause → String
  | system number => s!"os error {number}"
  | earlyEnd => "early eof"
  | appendRefused => "injected append failure"
  | other text => text

def LogCause.text : LogCause → String
  | tornHeader => "Torn record header"
  | overrun length available =>
    s!"Record length {length} overruns segment ({available} bytes left)"
  | tornBody => "Torn record body"
  | checksum offset => s!"CRC mismatch at offset {offset}"
  | metadataTooShort => "Metadata record too short"
  | metadataOverrun => "Metadata record payload overruns body"
  | notContiguous expected actual =>
    s!"Non-contiguous append: expected offset {expected}, got {actual}"
  | segmentGap base highest =>
    s!"Segment gap: segment {base} does not follow offset {highest}"
  | truncated file => "Truncated record in " ++ Quoted.render file
  | offsetMismatch file expected actual =>
    "Offset mismatch in " ++ Quoted.render file ++ s!": expected {expected}, found {actual}"
  | other text => text

def ReplicationCause.text : ReplicationCause → String
  | handshakeTimeout peer => "Handshake with " ++ peer.render ++ " timed out"
  | noPlace connected limit => s!"Too many replicas: {connected} of {limit} connected"
  | shippingGap replicaId expected actual =>
    s!"Log gap while shipping to {replicaId}: expected offset {expected}, found {actual}"
  | streamGap expected actual =>
    s!"Gap in replication stream: expected offset {expected}, got {actual}"
  | reported text => "Master error: " ++ text
  | reportedCode text code => s!"Master error: {text} (code {code})"
  | masterRunning => "Master already running"
  | replicaRunning => "Replica already running"
  | connectTimeout => "Connection timeout"
  | welcomeTimeout => "Handshake timeout"
  | masterSilent span => "Master silent for " ++ span.text
  | other text => text

/-- The digits of a word in hexadecimal, without leading zeros. -/
def hexWord (word : UInt32) : String :=
  String.ofList (Nat.toDigits 16 word.toNat)

def ProtocolCause.text : ProtocolCause → String
  | tooShort => "Message too short"
  | checksum stored computed =>
    "CRC mismatch: expected " ++ hexWord stored ++ ", got " ++ hexWord computed
  | unknownKind code => s!"Unknown message type: {code}"
  | incomplete => "Incomplete message"
  | malformed => "Deserialization failed"
  | kindMismatch frame payload =>
    s!"Frame type {frame.name} does not match payload {payload.name}"
  | tooLarge size => s!"Frame too large: {size} bytes"
  | unexpected kind => s!"Unexpected {kind.name} message"
  | versionMismatch expected actual =>
    s!"Protocol version mismatch: expected {expected}, got {actual}"
  | expectedHello peer kind => "Expected Hello from " ++ peer.render ++ ", got " ++ kind.name
  | expectedWelcome kind => "Expected Welcome, got " ++ kind.name
  | other text => text

def SettingsCause.text : SettingsCause → String
  | noNodeId => "node_id must not be empty"
  | noMaster => "Replica requires master_addr"
  | noCopies => "replicas must be at least 1"
  | tooManyCopies copies limit =>
    s!"replicas ({copies}) cannot exceed max_replicas + 1 ({limit})"
  | noMissedHeartbeats => "missed_heartbeats_threshold must be at least 1"
  | noHeartbeat => "heartbeat_interval must be non-zero"
  | noBatch => "catch_up_batch_size must be at least 1"
  | noSegmentSize => "segment_size must be at least 1"
  | notMasterRole => "Master requires role = master"
  | notReplicaRole => "Replica requires role = replica"
  | noMasterAddress => "Master address not configured"
  | alreadyMaster nodeId => s!"node {nodeId} is already master"
  | other text => text

def TrustCause.text : TrustCause → String
  | wrongToken replicaId peer =>
    s!"replica {replicaId} from " ++ peer.render ++ " presented an invalid security token"
  | other text => text

def StopCause.text : StopCause → String
  | master => "Master was stopped"
  | abandoned offset => s!"write at offset {offset} abandoned before becoming durable"
  | superseded replicaId => s!"Link to replica {replicaId} was superseded"
  | other text => text

namespace Fault

/-- The whole message for a fault: its area, then the reason. -/
def message : Fault → String
  | io cause => "I/O error: " ++ cause.text
  | log cause => "WAL error: " ++ cause.text
  | replication cause => "Replication error: " ++ cause.text
  | protocol cause => "Protocol error: " ++ cause.text
  | settings cause => "Configuration error: " ++ cause.text
  | trust cause => "Authentication failed: " ++ cause.text
  | divergence replica oldest current =>
    s!"Diverged log: replica at offset {replica}, master retains {oldest}..={current}"
  | notMaster text => "Not master: " ++ text
  | stopped cause => "Stopped: " ++ cause.text
  | internal text => "Internal error: " ++ text

/-- Whether an operator has to see to it: trying again cannot help (`is_fatal`). -/
def isFatal : Fault → Bool
  | trust _ | divergence .. | settings _ => true
  | _ => false

end Fault

end QuorumLog
