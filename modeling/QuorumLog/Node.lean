import QuorumLog.Master.Basic
import QuorumLog.Replica.Supervisor

/-! A node in either role. Only a master takes writes. A replica becomes master over its own log when
an operator says so, which keeps the history. -/

namespace QuorumLog

/-- A node. -/
inductive Node (L : Type) where
  | master (m : Master L)
  | replica (r : Replica L)

namespace Node

variable {L : Type}

def role : Node L → Role
  | master _ => .master
  | replica _ => .replica

def id : Node L → String
  | master m => m.settings.nodeId
  | replica r => r.settings.nodeId

def log : Node L → L
  | master m => m.log
  | replica r => r.log

def setLog (log : L) : Node L → Node L
  | master m => .master { m with log }
  | replica r => .replica { r with log }

/-- The replicas to which new entries are sent as they are written; a replica has none. -/
def streamingCount : Node L → Nat
  | master m => m.streamingCount
  | replica _ => 0

/-- Starts the part that the settings name over a log (`Node.open`). `bind` is what the system makes
of the address in the settings. -/
def start [LocalLog L] (settings : Settings) (log : L) (bind : Except Nat SocketAddress) :
    Except Fault (Node L) :=
  match settings.role with
  | .master => do
    let m ← Master.create settings log
    match m.start bind with
    | (m, .ok _) => .ok (.master m)
    | (_, .error fault) => .error fault
  | .replica => (Replica.create settings log).map fun r => .replica r.run.1

def append [LocalLog L] (payload : Bytes) : Node L → Node L × Except Fault (Option Nat)
  | master m =>
    let (m, write) := m.append payload none
    (.master m, .ok write)
  | replica r => (.replica r, .error (.notMaster s!"node {r.settings.nodeId} is a replica"))

def stop [LocalLog L] : Node L → Node L
  | master m => .master m.stop
  | replica r => .replica r.stop

/-- Makes a replica master over its log; it is stopped first (`Node.promote`). A node that is master
already stays as it is. -/
def promote [LocalLog L] (settings : Settings) (bind : Except Nat SocketAddress) (n : Node L) :
    Except Fault (Node L) :=
  match n with
  | master m => .error (.settings (.alreadyMaster m.settings.nodeId))
  | replica r => do
    let m ← Master.create settings r.log
    match m.start bind with
    | (m, .ok _) => .ok (.master m)
    | (_, .error fault) => .error fault

end Node

end QuorumLog
