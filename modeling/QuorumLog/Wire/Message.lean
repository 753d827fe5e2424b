import QuorumLog.Entry

/-! What the nodes of a cluster say to each other. A replica opens with a hello, the master answers
with a welcome or a failure, ships entries, marks the end of the catch-up and then streams new
entries; the replica acknowledges, and both sides may ask for a sign of life. -/

namespace QuorumLog

/-- The kind of a message, which its frame carries in front (`ReplicationMessageType`). -/
inductive MessageKind where
  | hello
  | welcome
  | ping
  | pong
  | entry
  | ack
  | catchUpComplete
  | failure
deriving DecidableEq, Repr

namespace MessageKind

/-- The kinds in the order of their payload tags. -/
def all : List MessageKind :=
  [hello, welcome, ping, pong, entry, ack, catchUpComplete, failure]

/-- The byte that stands for a kind at the front of a frame. -/
def code : MessageKind → UInt8
  | hello => 0x01
  | welcome => 0x02
  | ping => 0x10
  | pong => 0x11
  | entry => 0x20
  | ack => 0x21
  | catchUpComplete => 0x30
  | failure => 0xFF

/-- The number that stands for a kind at the front of a payload. -/
def tag : MessageKind → Nat
  | hello => 0
  | welcome => 1
  | ping => 2
  | pong => 3
  | entry => 4
  | ack => 5
  | catchUpComplete => 6
  | failure => 7

def name : MessageKind → String
  | hello => "Hello"
  | welcome => "Welcome"
  | ping => "Ping"
  | pong => "Pong"
  | entry => "Entry"
  | ack => "Ack"
  | catchUpComplete => "CatchUpComplete"
  | failure => "Error"

def ofCode? (code : UInt8) : Option MessageKind :=
  all.find? (·.code = code)

def ofTag? (tag : Nat) : Option MessageKind :=
  all.find? (·.tag = tag)

theorem ofCode?_code (kind : MessageKind) : ofCode? kind.code = some kind := by
  cases kind <;> rfl

theorem ofTag?_tag (kind : MessageKind) : ofTag? kind.tag = some kind := by
  cases kind <;> rfl

end MessageKind

/-- How a replica introduces itself. -/
structure Hello where
  replicaId : String
  token : String
  /-- The highest offset that the replica holds, 0 if it holds none. -/
  lastOffset : Nat
  /-- The checksum of the replica's entry there, 0 if it holds none. -/
  lastChecksum : UInt32
  version : UInt32
deriving DecidableEq, Repr

/-- How the master accepts a replica. -/
structure Welcome where
  masterId : String
  current : Nat
  /-- The first offset that the master still retains. -/
  oldest : Nat
deriving DecidableEq, Repr

/-- One message between two nodes (`ReplicationMessage`). -/
inductive Message where
  | hello (hello : Hello)
  | welcome (welcome : Welcome)
  | ping (timestamp : UInt64)
  | pong (timestamp : UInt64)
  | entry (entry : Entry)
  /-- Confirms all records up to the offset. -/
  | ack (offset : Nat)
  /-- The catch-up ended with this offset. -/
  | catchUpComplete (offset : Nat)
  | failure (code : UInt32) (text : String)
deriving DecidableEq, Repr

namespace Message

/-- The version of the conversation that this library speaks. -/
def version : UInt32 := 1

def kind : Message → MessageKind
  | hello _ => .hello
  | welcome _ => .welcome
  | ping _ => .ping
  | pong _ => .pong
  | entry _ => .entry
  | ack _ => .ack
  | catchUpComplete _ => .catchUpComplete
  | failure _ _ => .failure

/-- Offsets are unbounded here and have 64 bits on the wire; a message fits if no offset in it is
larger than that. -/
def Fits : Message → Prop
  | hello h => h.lastOffset < UInt64.size
  | welcome w => w.current < UInt64.size ∧ w.oldest < UInt64.size
  | entry e => e.offset < UInt64.size
  | ack offset => offset < UInt64.size
  | catchUpComplete offset => offset < UInt64.size
  | ping _ | pong _ | failure _ _ => True

instance : DecidablePred Fits := fun m => by
  cases m <;> unfold Fits <;> infer_instance

end Message

end QuorumLog
