import QuorumLog.Settings.Basic
import QuorumLog.Toml.Document

/-! The settings of a node in a file: a table for replication and one for the log. A field that is
missing keeps its usual value, and one that is unknown means nothing. A table may also be given as
the list of its values in order. -/

namespace QuorumLog

/-- All settings of a node (`NodeConfig`). -/
structure NodeSettings where
  replication : Settings
  store : StoreSettings
deriving DecidableEq, Repr

def NodeSettings.standard (nodeId : String) : NodeSettings := ⟨.ofName nodeId, .standard⟩

namespace Toml

/-- Turns a value into what it stands for. -/
abbrev Meaning (α : Type) := Value → Option α

namespace Meaning

def text : Meaning String
  | .text content => some content
  | _ => none

/-- A number of a field of some size, the least that does not fit being `bound`. -/
def natural (bound : Nat) : Meaning Nat
  | .integer (.ofNat n) => if n < bound then some n else none
  | _ => none

/-- A count of 32 bits. -/
def word : Meaning UInt32 := fun v => (natural UInt32.size v).map UInt32.ofNat

/-- A number of 64 bits. -/
def long : Meaning Nat := natural UInt64.size

/-- A length of time in milliseconds. -/
def span : Meaning Span := fun v => (long v).map Span.ofMillis

def truth : Meaning Bool
  | .truth b => some b
  | _ => none

def address : Meaning SocketAddress := fun v => (text v).bind SocketAddress.read?

def role : Meaning Role := fun v => (text v).bind Role.ofName?

end Meaning

/-- The fields of a table with known names. -/
def fieldsOf? (names : List String) : Value → Option Fields
  | .table _ fields => some fields
  | .array _ items => some (names.zip items)
  | _ => none

/-- The meaning of a field, or its usual value if it is missing. -/
def Fields.get? {α : Type} (fields : Fields) (name : String) (meaning : Meaning α) (usual : α) :
    Option α :=
  match fields.lookup name with
  | none => some usual
  | some v => meaning v

end Toml

namespace Settings

def fieldNames : List String :=
  ["node_id", "role", "bind_addr", "master_addr", "security_token", "replicas", "max_replicas",
    "heartbeat_interval", "connect_timeout", "missed_heartbeats_threshold", "catch_up_batch_size",
    "reconnect_initial_delay", "reconnect_max_delay"]

/-- The settings in a table, on top of usual ones. -/
def ofFields? (usual : Settings) (fields : Toml.Fields) : Option Settings := do
  let nodeId ← fields.get? "node_id" .text usual.nodeId
  let role ← fields.get? "role" .role usual.role
  let bindAddress ← fields.get? "bind_addr" .address usual.bindAddress
  let masterAddress ← fields.get? "master_addr" (fun v => (Toml.Meaning.address v).map some)
    usual.masterAddress
  let token ← fields.get? "security_token" .text usual.token
  let copies ← fields.get? "replicas" .word usual.copies
  let maxReplicas ← fields.get? "max_replicas" .word usual.maxReplicas
  let heartbeat ← fields.get? "heartbeat_interval" .span usual.heartbeat
  let connectTimeout ← fields.get? "connect_timeout" .span usual.connectTimeout
  let missedHeartbeats ← fields.get? "missed_heartbeats_threshold" .word usual.missedHeartbeats
  let batchSize ← fields.get? "catch_up_batch_size" .long usual.batchSize
  let firstDelay ← fields.get? "reconnect_initial_delay" .span usual.firstDelay
  let maxDelay ← fields.get? "reconnect_max_delay" .span usual.maxDelay
  some { nodeId, role, bindAddress, masterAddress, token, copies, maxReplicas, heartbeat,
         connectTimeout, missedHeartbeats, batchSize, firstDelay, maxDelay }

/-- The fields of settings for a file; an absent address is left out. -/
def toFields (s : Settings) : List (String × Toml.Scalar) :=
  [("node_id", .text s.nodeId), ("role", .text s.role.name),
    ("bind_addr", .text s.bindAddress.render)] ++
  (match s.masterAddress with
    | some a => [("master_addr", .text a.render)]
    | none => []) ++
  [("security_token", .text s.token), ("replicas", .natural s.copies.toNat),
    ("max_replicas", .natural s.maxReplicas.toNat),
    ("heartbeat_interval", .natural s.heartbeat.millis),
    ("connect_timeout", .natural s.connectTimeout.millis),
    ("missed_heartbeats_threshold", .natural s.missedHeartbeats.toNat),
    ("catch_up_batch_size", .natural s.batchSize),
    ("reconnect_initial_delay", .natural s.firstDelay.millis),
    ("reconnect_max_delay", .natural s.maxDelay.millis)]

end Settings

namespace StoreSettings

def fieldNames : List String := ["dir", "segment_size", "sync_on_append"]

/-- The settings in a table, on top of usual ones. -/
def ofFields? (usual : StoreSettings) (fields : Toml.Fields) : Option StoreSettings := do
  let path ← fields.get? "dir" .text usual.path
  let segmentSize ← fields.get? "segment_size" .long usual.segmentSize
  let syncOnAppend ← fields.get? "sync_on_append" .truth usual.syncOnAppend
  some { path, segmentSize, syncOnAppend }

def toFields (s : StoreSettings) : List (String × Toml.Scalar) :=
  [("dir", .text s.path), ("segment_size", .natural s.segmentSize),
    ("sync_on_append", .truth s.syncOnAppend)]

end StoreSettings

namespace NodeSettings

/-- The settings in a document, on top of usual ones. -/
def ofFields? (usual : NodeSettings) (fields : Toml.Fields) : Option NodeSettings := do
  let replication ← fields.get? "replication"
    (fun v => (Toml.fieldsOf? Settings.fieldNames v).bind (Settings.ofFields? usual.replication))
    usual.replication
  let store ← fields.get? "log"
    (fun v => (Toml.fieldsOf? StoreSettings.fieldNames v).bind (StoreSettings.ofFields? usual.store))
    usual.store
  some { replication, store }

/-- The settings in the text of a file, for a node that would draw the name `nodeId`. -/
def read? (nodeId : String) (text : String) : Option NodeSettings :=
  (Toml.read? text).bind (ofFields? (standard nodeId))

def render (s : NodeSettings) : String :=
  Toml.render [("replication", s.replication.toFields), ("log", s.store.toFields)]

end NodeSettings

end QuorumLog
