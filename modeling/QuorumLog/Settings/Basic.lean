import QuorumLog.Fault

/-! The settings of a node: its name and role, where it listens or connects, how many copies a write
needs, and the pace of heartbeats, catch-up and reconnects. -/

namespace QuorumLog

/-- The part that a node plays (`ReplicationRole`). -/
inductive Role where
  | master
  | replica
deriving DecidableEq, Repr

def Role.name : Role → String
  | master => "master"
  | replica => "replica"

def Role.ofName? (name : String) : Option Role :=
  [Role.master, .replica].find? (·.name = name)

/-- The settings of a node (`ReplicationConfig`). Counts that are compared with each other have 32
bits, and sums of them are taken in 32 bits too. -/
structure Settings where
  nodeId : String
  role : Role
  bindAddress : SocketAddress
  masterAddress : Option SocketAddress
  token : String
  /-- The copies of a write that make it durable, the master's included. -/
  copies : UInt32
  maxReplicas : UInt32
  heartbeat : Span
  connectTimeout : Span
  /-- The silent heartbeats after which a peer is given up. -/
  missedHeartbeats : UInt32
  /-- The entries read at a time during a catch-up. -/
  batchSize : Nat
  /-- The wait before the first new attempt to connect. -/
  firstDelay : Span
  maxDelay : Span
deriving DecidableEq, Repr

namespace Settings

/-- Any local address, with the usual port. -/
def defaultBind : SocketAddress := .v4 ⟨0, 0, 0, 0⟩ 15475

/-- The settings of a node about which only its name is known. -/
def ofName (nodeId : String) : Settings where
  nodeId := nodeId
  role := .master
  bindAddress := defaultBind
  masterAddress := none
  token := ""
  copies := 1
  maxReplicas := 8
  heartbeat := .ofMillis 5000
  connectTimeout := .ofMillis 10000
  missedHeartbeats := 3
  batchSize := 512
  firstDelay := .ofMillis 100
  maxDelay := .ofMillis 30000

/-- The settings of a master that listens at an address. -/
def master (nodeId : String) (bindAddress : SocketAddress) : Settings :=
  { ofName nodeId with bindAddress := bindAddress }

/-- The settings of a replica of the master at an address. -/
def replica (nodeId : String) (masterAddress : SocketAddress) : Settings :=
  { ofName nodeId with role := .replica, masterAddress := some masterAddress }

/-- How long a peer may be silent, or `none` if no such time can be held (`liveness_timeout`). -/
def liveness? (s : Settings) : Option Span :=
  s.heartbeat.times? (s.missedHeartbeats + 1)

/-- What the role has against the settings. -/
def roleObjection? (s : Settings) : Option SettingsCause :=
  match s.role with
  | .replica => if s.masterAddress.isNone then some .noMaster else none
  | .master =>
    if s.copies < 1 then some .noCopies
    else if s.copies > s.maxReplicas + 1 then some (.tooManyCopies s.copies (s.maxReplicas + 1))
    else none

/-- The first objection to the settings, if there is one. -/
def objection? (s : Settings) : Option SettingsCause :=
  if s.nodeId = "" then some .noNodeId
  else match s.roleObjection? with
    | some cause => some cause
    | none =>
      if s.missedHeartbeats = 0 then some .noMissedHeartbeats
      else if s.heartbeat.nanos = 0 then some .noHeartbeat
      else if s.batchSize = 0 then some .noBatch
      else none

/-- Accepts settings without objection (`ReplicationConfig.validate`). -/
def validate (s : Settings) : Except Fault Unit :=
  match s.objection? with
  | some cause => .error (.settings cause)
  | none => .ok ()

end Settings

/-- Where a log is stored and how (`LogConfig`). -/
structure StoreSettings where
  path : String
  /-- A segment of this many bytes takes no further record. -/
  segmentSize : Nat
  /-- Whether an append waits until the medium holds it. -/
  syncOnAppend : Bool
deriving DecidableEq, Repr

/-- The settings of a log about which nothing is known. -/
def StoreSettings.standard : StoreSettings where
  path := "./data/log"
  segmentSize := 204600
  syncOnAppend := true

end QuorumLog
