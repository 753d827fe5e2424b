import QuorumLog.Master.Basic
import QuorumLog.Token
import QuorumLog.Wire.Refusal

/-! The handshake of a master with a replica that connects. The first message has to be a hello of the
spoken version with the right secret, then the history of the replica has to be one that the master
can go on with, and last there has to be a place. A replica that is turned away changes nothing but
one count. -/

namespace QuorumLog

/-- Why a replica is turned away, and what it is told. One that gets an answer is counted. -/
structure Rejection where
  fault : Fault
  reply : Option Message := none
deriving DecidableEq, Repr

namespace Rejection

def version (actual : UInt32) : Rejection :=
  let cause := ProtocolCause.versionMismatch Message.version actual
  ⟨.protocol cause, some (.failure Refusal.versionMismatch cause.text)⟩

def token (peer : Peer) : Rejection :=
  ⟨.trust (.wrongToken peer.id peer.address),
    some (.failure Refusal.wrongToken "Invalid security token")⟩

def divergence (replica oldest current : Nat) : Rejection :=
  ⟨.divergence replica oldest current, some (Refusal.divergence replica oldest current)⟩

def noPlace (connected : Nat) (limit : UInt32) : Rejection :=
  let cause := ReplicationCause.noPlace connected limit
  ⟨.replication cause, some (.failure Refusal.noPlace cause.text)⟩

end Rejection

namespace Master

variable {L : Type}

/-- The peer and the hello behind the first message of a connection. -/
def checkHello (settings : Settings) (address : SocketAddress) (first : Except Fault Message) :
    Except Rejection (Peer × Hello) :=
  match first with
  | .error fault => .error ⟨fault, none⟩
  | .ok (.hello h) =>
    let peer : Peer := ⟨h.replicaId, address, h.token⟩
    if h.version ≠ Message.version then .error (.version h.version)
    else if Token.isAccepted h.token settings.token then .ok (peer, h)
    else .error (.token peer)
  | .ok other => .error ⟨.protocol (.expectedHello address other.kind), none⟩

variable [LocalLog L]

/-- Whether the entry that a replica holds at an offset is another than the one here
(`history_differs`). Nothing can be said about an entry that is not retained. -/
def historyDiffers (log : L) (offset : Nat) (checksum : UInt32) : Except Fault Bool :=
  if offset = 0 then .ok false
  else (LocalLog.checksumAt log offset).map fun ours => ours.any (· ≠ checksum)

/-- Whether the history of a replica cannot be gone on with: it is ahead, it lacks entries that are
not retained, or its last entry is another one. -/
def diverges (log : L) (h : Hello) : Except Fault Bool :=
  if LocalLog.highest log < h.lastOffset ∨ h.lastOffset + 1 < LocalLog.oldest log then .ok true
  else historyDiffers log h.lastOffset h.lastChecksum

/-- Accepts the history of a replica. -/
def checkHistory (log : L) (h : Hello) : Except Rejection Unit :=
  match diverges log h with
  | .error fault => .error ⟨fault, none⟩
  | .ok true =>
    .error (.divergence h.lastOffset (LocalLog.oldest log) (LocalLog.highest log))
  | .ok false => .ok ()

/-- The count of other replicas with a connection. -/
def others (m : Master L) (id : String) : Nat :=
  m.links.countP fun l => l.isConnected ∧ l.peer.id ≠ id

/-- Puts a connection behind the link of a peer, or makes the link, with a new generation. A
connection that the link had before is cut. -/
def register (m : Master L) (peer : Peer) (held : Nat) : Master L :=
  match m.link? peer.id with
  | some old =>
    (m.cut old.generation).onLink peer.id fun l =>
      (l.reconnect peer m.generation held).beginCatchUp
  | none =>
    { m with
      links := m.links ++
        [Link.beginCatchUp { peer, generation := m.generation, lastAck := held }] }

/-- Opens the session of a replica that was accepted. -/
def openSession (m : Master L) (h : Hello) : Master L :=
  { m with
    sessions := m.sessions ++
      [{ replicaId := h.replicaId
         generation := m.generation
         next := h.lastOffset + 1
         stage := .welcoming ⟨m.settings.nodeId, m.offset, LocalLog.oldest m.log⟩ }] }

def countRejection (m : Master L) (rejection : Rejection) : Master L :=
  if rejection.reply.isSome then
    { m with tally := { m.tally with rejected := m.tally.rejected + 1 } }
  else m

/-- Gives a replica with a good history a place, if there is one. A generation is used up either
way. -/
def seat (m : Master L) (peer : Peer) (h : Hello) : Master L × Except Rejection LinkReport :=
  let m := { m with generation := m.generation + 1 }
  if m.settings.maxReplicas.toNat ≤ m.others peer.id then
    (m, .error (.noPlace (m.others peer.id) m.settings.maxReplicas))
  else
    let m := (m.register peer h.lastOffset).openSession h
    match m.replica peer.id with
    | some report => (m, .ok report)
    | none => (m, .error ⟨.internal "replica link vanished during handshake", none⟩)

/-- Handles the first message of a connection, or the fault of reading it (`accept_replica`). A
replica that is accepted has a session of the newest generation. -/
def greet (m : Master L) (address : SocketAddress) (first : Except Fault Message) :
    Master L × Except Rejection LinkReport :=
  match checkHello m.settings address first with
  | .error rejection => (m.countRejection rejection, .error rejection)
  | .ok (peer, h) =>
    match checkHistory m.log h with
    | .error rejection => (m.countRejection rejection, .error rejection)
    | .ok () =>
      match m.seat peer h with
      | (m, .error rejection) => (m.countRejection rejection, .error rejection)
      | (m, .ok report) => (m, .ok report)

/-- The fault of a connection on which no hello came in time. -/
def silent (address : SocketAddress) : Fault := .replication (.handshakeTimeout address)

end Master

end QuorumLog
