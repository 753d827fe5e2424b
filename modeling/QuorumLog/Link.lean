import QuorumLog.Entry
import QuorumLog.Net.Address
import QuorumLog.Text.Quoted

/-! What a master knows about one replica. A link outlives the connections behind it: it goes from
connecting over catching up to streaming, from there to disconnected when its connection is gone,
and back to connecting when the replica returns. New entries go to streaming links alone. -/

namespace QuorumLog

/-- Who a replica says it is (`ReplicaIdentity`). -/
structure Peer where
  id : String
  /-- Where it connected from; another place after each return. -/
  address : SocketAddress
  token : String := ""
deriving DecidableEq, Repr

namespace Peer

/-- Whether two peers are one replica: the name alone decides. -/
def isSame (p other : Peer) : Bool := p.id = other.id

def describe (p : Peer) : String :=
  "ReplicaIdentity \x7b node_id: " ++ Quoted.render p.id ++ ", addr: " ++ p.address.render
    ++ ", security_token: \"<redacted>\" \x7d"

end Peer

/-- How far a connection has come (`LinkState`). -/
inductive LinkPhase where
  | connecting
  | catchingUp
  | streaming
  | disconnected
deriving DecidableEq, Repr

def LinkPhase.name : LinkPhase → String
  | connecting => "connecting"
  | catchingUp => "catching-up"
  | streaming => "streaming"
  | disconnected => "disconnected"

/-- What a master knows about one replica (`ReplicaLink`). -/
structure Link where
  peer : Peer
  phase : LinkPhase := .connecting
  /-- Tells the current connection from those before. -/
  generation : Nat
  /-- The highest offset that the replica has reported on the current connection. -/
  lastAck : Nat
  sent : Nat := 0
  reconnects : Nat := 0
  heard : Nat := 0
deriving DecidableEq, Repr

/-- What an observer is told about a link (`ReplicaInfo`). -/
structure LinkReport where
  id : String
  address : SocketAddress
  phase : LinkPhase
  lastAck : Nat
  /-- The entries of the master that it did not report. -/
  lag : Nat
  sent : Nat
  reconnects : Nat
deriving DecidableEq, Repr

namespace Link

def isConnected (l : Link) : Bool := l.phase ≠ .disconnected

/-- Whether new entries are sent as they are written. -/
def isStreaming (l : Link) : Bool := l.phase = .streaming

/-- Starts to send what the replica lacks (`begin_catch_up`). -/
def beginCatchUp (l : Link) : Link :=
  if l.phase = .connecting then { l with phase := .catchingUp } else l

/-- Nothing is lacking; new entries are sent as they are written (`begin_streaming`). -/
def beginStreaming (l : Link) : Link :=
  if l.phase = .catchingUp then { l with phase := .streaming } else l

def recordSent (count : Nat) (l : Link) : Link :=
  { l with sent := l.sent + count }

def touch (l : Link) : Link :=
  { l with heard := l.heard + 1 }

/-- Whether a report of an offset would be news. -/
def accepts (l : Link) (offset : Nat) : Bool :=
  l.isConnected ∧ l.lastAck < offset

/-- Takes the report of the replica that it holds everything up to an offset (`record_ack`). A link
without connection ignores it, and one that knows as much only notes that the replica was heard. -/
def recordAck (offset : Nat) (l : Link) : Link :=
  if l.accepts offset then { l.touch with lastAck := offset }
  else if l.isConnected then l.touch
  else l

def disconnect (l : Link) : Link :=
  { l with phase := .disconnected }

/-- Puts a new connection behind the link, on which the replica holds everything up to `resume`
(`ReplicaLink.reconnect`). -/
def reconnect (peer : Peer) (generation resume : Nat) (l : Link) : Link where
  peer := peer
  generation := generation
  lastAck := resume
  reconnects := l.reconnects + 1
  heard := l.heard + 1

/-- What an observer is told while the master's log ends at an offset (`ReplicaLink.info`). -/
def report (l : Link) (masterOffset : Nat) : LinkReport where
  id := l.peer.id
  address := l.peer.address
  phase := l.phase
  lastAck := l.lastAck
  lag := masterOffset - l.lastAck
  sent := l.sent
  reconnects := l.reconnects

end Link

end QuorumLog
