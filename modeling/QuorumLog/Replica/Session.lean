import QuorumLog.Replica.Basic
import QuorumLog.Wire.Frame
import QuorumLog.Wire.Refusal

/-! One connection of a replica to its master. The replica says what it holds, and if the master
welcomes it, it takes the entries that follow one by one. Each entry is answered when the log holds
it; one that is held already is answered too, and one that comes too early ends the session. -/

namespace QuorumLog

/-- What the master said when it welcomed a replica (`ReplicaSession`). -/
structure Welcomed where
  masterId : String
  masterOffset : Nat
  oldest : Nat
  /-- The offset up to which the replica had reported to hold everything. -/
  resume : Nat
deriving DecidableEq, Repr

namespace Replica

variable {L : Type}

/-- Starts an attempt; gives the address of the master (`Replica.connect`). -/
def dial (r : Replica L) : Replica L × Except Fault SocketAddress :=
  match r.settings.masterAddress with
  | none => (r, .error (.settings .noMasterAddress))
  | some a => ({ r with phase := .connecting }, .ok a)

/-- Takes the answer to its hello, or the fault of reading it; `held` is what the hello said
(`Replica.connect`). -/
def welcome (r : Replica L) (held : Nat) (reply : Except Fault Message) :
    Replica L × Except Fault Welcomed :=
  match reply with
  | .error fault => (r, .error fault)
  | .ok (.welcome w) =>
    if w.current < held ∨ held + 1 < w.oldest then
      (r, .error (.divergence held w.oldest w.current))
    else
      ({ r with masterOffset := w.current, masterId := some w.masterId },
        .ok ⟨w.masterId, w.current, w.oldest, held⟩)
  | .ok (.failure code text) => (r, .error (Refusal.toFault (.failure code text)))
  | .ok other => (r, .error (.protocol (.expectedWelcome other.kind)))

/-- Begins to take what the master sends. -/
def beginSync (r : Replica L) : Replica L := { r with phase := .catchingUp }

/-- The fault of a master from which nothing was heard for too long. -/
def silence (r : Replica L) : Fault :=
  .replication (.masterSilent (r.settings.liveness?.getD ⟨Span.limit⟩))

variable [LocalLog L]

/-- What the replica says first: the offset of its last entry and the checksum of that entry, or 0 if
the entry is not retained. -/
def hello (r : Replica L) : Except Fault Hello :=
  let said (checksum : UInt32) : Hello :=
    { replicaId := r.settings.nodeId
      token := r.settings.token
      lastOffset := r.offset
      lastChecksum := checksum
      version := Message.version }
  if r.offset = 0 then .ok (said 0)
  else (LocalLog.checksumAt r.log r.offset).map fun sum => said (sum.getD 0)

/-- Counts an arrived entry in some way. -/
def count (r : Replica L) (f : ReplicaTally → ReplicaTally) : Replica L :=
  { r with tally := f r.tally }

/-- Takes an entry that arrived (`Replica.apply`). -/
def apply (r : Replica L) (e : Entry) : Replica L × Except Fault Unit :=
  let expected := r.offset + 1
  let r := r.count fun t => { t with received := t.received + 1 }
  if e.offset < expected then
    (r.count fun t => { t with duplicates := t.duplicates + 1 }, .ok ())
  else if expected < e.offset then
    (r, .error (.replication (.streamGap expected e.offset)))
  else match LocalLog.appendEntry r.log e with
    | (log, .error fault) => ({ r with log }, .error fault)
    | (log, .ok ()) =>
      ({ r with log, masterOffset := max r.masterOffset e.offset }.count fun t =>
        { t with applied := t.applied + 1 }, .ok ())

/-- Handles a message of the master; gives the answer, if it calls for one, or the fault that ends
the session (`Replica.sync`). -/
def receive (r : Replica L) (message : Message) : Replica L × Except Fault (Option Message) :=
  match message with
  | .entry e =>
    match r.apply e with
    | (r, .error fault) => (r, .error fault)
    | (r, .ok ()) =>
      (r.count fun t => { t with acks := t.acks + 1 }, .ok (some (.ack e.offset)))
  | .catchUpComplete offset =>
    ({ r with masterOffset := max r.masterOffset offset, phase := .streaming }, .ok none)
  | .ping timestamp => (r, .ok (some (.pong timestamp)))
  | .failure code text => (r, .error (Refusal.toFault (.failure code text)))
  | .pong _ | .hello _ | .welcome _ | .ack _ => (r, .ok none)

/-- Handles messages up to the first that ends the session; gives the answers. -/
def receiveAll (r : Replica L) : List Message → Replica L × List Message × Except Fault Unit
  | [] => (r, [], .ok ())
  | message :: later =>
    match r.receive message with
    | (r, .error fault) => (r, [], .error fault)
    | (r, .ok answer) =>
      let (r, answers, ending) := receiveAll r later
      (r, answer.toList ++ answers, ending)

end Replica

end QuorumLog
