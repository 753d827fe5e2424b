import QuorumLog.Channel

/-! One master, its replicas, and the connections between them. Any event may happen at any time; one
that is not possible changes nothing. Connections are numbered in the order in which they were dialled,
and a replica that dials again leaves the connection it had. -/

namespace QuorumLog

/-- What may happen. -/
inductive Event where
  | append (payload : Bytes) (metadata : Option Bytes)
  /-- The master stores a write and does not announce it yet. -/
  | store (payload : Bytes) (metadata : Option Bytes)
  /-- The master announces the write that it stored. -/
  | announce
  | purge (offset : Nat)
  | dial (id : String) (address : SocketAddress)
  | ship (channel : Nat)
  | toMaster (channel : Nat)
  | toReplica (channel : Nat)
  /-- A connection breaks. -/
  | breakOff (channel : Nat)
  /-- The master ends the session of a connection. -/
  | hangUp (channel : Nat)
  /-- The master gives up the connection of a replica. -/
  | disconnect (id : String)
  | stop
deriving DecidableEq, Repr

/-- A master with its replicas. -/
structure System (L : Type) where
  master : Master L
  /-- The replicas, no two with one name. -/
  replicas : List (Replica L)
  /-- The connections and the replica of each, by age. -/
  channels : List (String × Channel) := []

namespace System

variable {L : Type}

def replica? (s : System L) (id : String) : Option (Replica L) :=
  s.replicas.find? (·.settings.nodeId = id)

/-- Puts a replica in the place of the one with its name. -/
def setReplica (s : System L) (r : Replica L) : System L :=
  { s with
    replicas := s.replicas.map fun old =>
      if old.settings.nodeId = r.settings.nodeId then r else old }

/-- Puts a connection in the place of the one with a number. -/
def setChannel (s : System L) (number : Nat) (c : Channel) : System L :=
  { s with channels := s.channels.modify number fun (id, _) => (id, c) }

/-- Leaves the connections that a replica had. -/
def leaveAll (s : System L) (id : String) : System L :=
  { s with
    channels := s.channels.map fun (other, c) =>
      (other, if other = id ∧ !c.attempt.isOver then c.leave (.error (.io .earlyEnd)) else c) }

/-- Lets the master work on a connection. -/
def onMaster (s : System L) (number : Nat) (f : Master L → Channel → Master L × Channel) :
    System L :=
  match s.channels[number]? with
  | none => s
  | some (_, c) =>
    let (master, c) := f s.master c
    { s with master }.setChannel number c

/-- Lets the replica work on a connection. -/
def onReplica (s : System L) (number : Nat) (f : Replica L → Channel → Replica L × Channel) :
    System L :=
  match s.channels[number]? with
  | none => s
  | some (id, c) =>
    match s.replica? id with
    | none => s
    | some r =>
      let (r, c) := f r c
      (s.setReplica r).setChannel number c

variable [LocalLog L]

def dial (s : System L) (id : String) (address : SocketAddress) : System L :=
  match s.replica? id with
  | none => s
  | some r =>
    match Channel.dial r address with
    | (r, .error _) => s.setReplica r
    | (r, .ok c) =>
      let s := (s.setReplica r).leaveAll id
      { s with channels := s.channels ++ [(id, c)] }

/-- The system after an event. -/
def act (s : System L) (event : Event) : System L :=
  match event with
  | .append payload metadata => { s with master := (s.master.append payload metadata).1 }
  | .store payload metadata => { s with master := (s.master.store payload metadata).1 }
  | .announce => { s with master := s.master.announce.1 }
  | .purge offset =>
    { s with master := { s.master with log := (LocalLog.purge s.master.log offset).1 } }
  | .dial id address => s.dial id address
  | .ship number => s.onMaster number fun m c => c.ship m
  | .toMaster number => s.onMaster number fun m c => c.toMaster m
  | .toReplica number => s.onReplica number fun r c => c.toReplica r
  | .breakOff number => s.onMaster number fun m c => (m, c.breakOff)
  | .hangUp number => s.onMaster number fun m c => c.hangUp m
  | .disconnect id => { s with master := s.master.closeLink id none }
  | .stop => { s with master := s.master.stop }

/-- The system after some events. -/
def run (s : System L) (events : List Event) : System L := events.foldl act s

end System

end QuorumLog
