import QuorumLog.Link

/-! One connection to a replica and the entries that wait to be written to it. A line is a link with
all the connections it ever had: only the newest takes entries, and those before it are cut. -/

namespace QuorumLog

/-- The entries on their way to one connection, and who still works on it. -/
structure Connection where
  queue : List Entry := []
  /-- Whether more entries may be put in. -/
  fed : Bool := true
  /-- Whether someone is left to write them. -/
  served : Bool := true
  cancelled : Bool := false
deriving DecidableEq, Repr

instance : Inhabited Connection := ⟨{}⟩

namespace Connection

/-- Whether an entry that is put in now may be written. -/
def takes (c : Connection) : Bool := c.fed && c.served

/-- Puts an entry in, if someone is left on both sides. -/
def offer (e : Entry) (c : Connection) : Connection :=
  if c.takes then { c with queue := c.queue ++ [e] } else c

/-- Takes out everything that waits. -/
def drain (c : Connection) : Connection := { c with queue := [] }

/-- Lets no further entry in. -/
def shut (c : Connection) : Connection := { c with fed := false }

/-- Tells its tasks to end. -/
def cancel (c : Connection) : Connection := { c with cancelled := true }

/-- Lets no further entry in and tells its tasks to end. -/
def cut (c : Connection) : Connection := c.shut.cancel

/-- Nobody writes any more, and what waited is lost. -/
def abandon (c : Connection) : Connection := { c with queue := [], served := false }

end Connection

/-- A link and all the connections that it had. -/
structure Line where
  link : Link
  past : List Connection := []
  current : Connection := {}
deriving DecidableEq, Repr

namespace Line

/-- A line to a replica that holds everything up to `resume` (`ReplicaLink.new`). -/
def opened (peer : Peer) (generation resume : Nat) : Line where
  link := { peer, generation, lastAck := resume }

def connections (l : Line) : List Connection := l.past ++ [l.current]

def modify (l : Line) (number : Nat) (f : Connection → Connection) : Line :=
  if number = l.past.length then { l with current := f l.current }
  else { l with past := l.past.modify number f }

def onLink (f : Link → Link) (l : Line) : Line := { l with link := f l.link }

/-- Whether a new entry is taken. -/
def forwards (l : Line) : Bool := l.link.isStreaming && l.current.takes

/-- Hands a new entry to a streaming connection (`ReplicaLink.forward`). -/
def forward (e : Entry) (l : Line) : Line :=
  if l.link.isStreaming then { l with current := l.current.offer e } else l

def disconnect (l : Line) : Line :=
  if l.link.isConnected then { l with link := l.link.disconnect, current := l.current.cut } else l

/-- Puts a new connection behind the link (`ReplicaLink.reconnect`). -/
def reconnect (peer : Peer) (generation resume : Nat) (l : Line) : Line where
  link := l.link.reconnect peer generation resume
  past := l.past ++ [l.current.cut]

end Line

end QuorumLog
