import QuorumLog.Log.LocalLog
import QuorumLog.Settings.Basic

/-! A replica: its log, what it knows about its master, and counts of what happened. -/

namespace QuorumLog

/-- How it stands with a replica (`ReplicaState`). -/
inductive ReplicaPhase where
  | idle
  | connecting
  | catchingUp
  | streaming
  /-- It lost its master and waits before it tries again. -/
  | disconnected
  | stopped
  /-- It met a fault that no new attempt can mend. -/
  | failed
deriving DecidableEq, Repr

def ReplicaPhase.name : ReplicaPhase → String
  | idle => "idle"
  | connecting => "connecting"
  | catchingUp => "catching-up"
  | streaming => "streaming"
  | disconnected => "disconnected"
  | stopped => "stopped"
  | failed => "failed"

/-- Counts of what happened to a replica (`ReplicaStats`). -/
structure ReplicaTally where
  received : Nat := 0
  applied : Nat := 0
  duplicates : Nat := 0
  acks : Nat := 0
  /-- The attempts that ended and were followed by another. -/
  reconnects : Nat := 0
deriving DecidableEq, Repr

def ReplicaTally.toList (t : ReplicaTally) : List (String × Nat) :=
  [("received", t.received), ("applied", t.applied), ("duplicates", t.duplicates),
    ("acks", t.acks), ("reconnects", t.reconnects)]

/-- A replica over a log. -/
structure Replica (L : Type) where
  settings : Settings
  log : L
  phase : ReplicaPhase := .idle
  /-- The end of the master's log, as far as it is known. -/
  masterOffset : Nat := 0
  /-- The name of the master that welcomed it last. -/
  masterId : Option String := none
  tally : ReplicaTally := {}
  delay : Span := settings.firstDelay
  running : Bool := false
  stopped : Bool := false

namespace Replica

variable {L : Type}

def create (settings : Settings) (log : L) : Except Fault (Replica L) := do
  if settings.role ≠ .replica then throw (.settings .notReplicaRole)
  settings.validate
  return { settings, log }

/-- Whether it has a master. -/
def isConnected (r : Replica L) : Bool := r.phase = .catchingUp ∨ r.phase = .streaming

def stop (r : Replica L) : Replica L := { r with stopped := true }

variable [LocalLog L]

def offset (r : Replica L) : Nat := LocalLog.highest r.log

/-- The entries of the master that it lacks (`Replica.lag`). -/
def lag (r : Replica L) : Nat := r.masterOffset - r.offset

end Replica

end QuorumLog
