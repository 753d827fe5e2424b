import QuorumLog.Connection
import QuorumLog.Log.Cursor
import QuorumLog.Quorum
import QuorumLog.Settings.Basic

/-! A master: its log, the links to its replicas, a session for each connection it accepted, the
writes that wait for copies, and the counts of what happened. An append stores the entry and then
announces it; between the two the entry can be read from the log, but it is not tracked yet and no
catch-up can end. -/

namespace QuorumLog

/-- Which entries a session is about to write, and so what it does behind the last of them. -/
inductive Slice where
  /-- A page of the log, read while catching up. -/
  | page
  /-- The end of the log, read when new entries began to be handed over. -/
  | tail
  /-- An entry that was handed over. -/
  | fresh
deriving DecidableEq, Repr

/-- How far a session has come. -/
inductive Stage where
  | welcoming (welcome : Welcome)
  | reading
  /-- Entries are being written; `count` of them when the slice was whole. -/
  | sending (slice : Slice) (rest : List Entry) (count : Nat)
  /-- No page was left, and the link is about to become streaming. -/
  | finishing
  /-- Everything was sent, and the replica is about to be told. -/
  | completing
  | streaming
  /-- Nothing happens any more, because of this fault if there was one. -/
  | ended (fault : Option Fault)
deriving DecidableEq, Repr

/-- What follows a slice. -/
def Slice.after : Slice → Stage
  | page => .reading
  | tail => .completing
  | fresh => .streaming

/-- One accepted connection. -/
structure Session where
  replicaId : String
  /-- The generation of the link that this connection is. -/
  generation : Nat
  /-- The offset of the next entry to write. -/
  next : Nat
  stage : Stage
  connection : Connection := {}
deriving DecidableEq, Repr

def Session.isOver (s : Session) : Bool :=
  match s.stage with
  | .ended _ => true
  | _ => false

def Session.isWelcoming (s : Session) : Bool :=
  match s.stage with
  | .welcoming _ => true
  | _ => false

/-- Whether the replica is listened to: it was welcomed, and the session is not over. -/
def Session.isListening (s : Session) : Bool := !s.isOver && !s.isWelcoming

/-- Whether a session waits for new entries: nothing is handed over to it, and something may be. -/
def Session.isIdle (s : Session) : Bool :=
  s.stage = .streaming && s.connection.queue.isEmpty && s.connection.fed

/-- Counts of what happened (`MasterStats`). -/
structure Tally where
  appends : Nat := 0
  appendFailures : Nat := 0
  /-- The entries written to replicas, counted slice by slice. -/
  shipped : Nat := 0
  /-- The reports that were news. -/
  acks : Nat := 0
  resolved : Nat := 0
  accepted : Nat := 0
  rejected : Nat := 0
  /-- The links with a connection when they were last counted. -/
  connected : Nat := 0
  streaming : Nat := 0
deriving DecidableEq, Repr

def Tally.toList (t : Tally) : List (String × Nat) :=
  [("appends", t.appends), ("append_failures", t.appendFailures), ("shipped", t.shipped),
    ("acks", t.acks), ("resolved", t.resolved), ("accepted", t.accepted),
    ("rejected", t.rejected), ("connected", t.connected), ("streaming", t.streaming)]

/-- A master over a log. -/
structure Master (L : Type) where
  settings : Settings
  log : L
  links : List Link := []
  sessions : List Session := []
  quorum : Quorum
  tally : Tally := {}
  /-- An entry that is stored and not announced. -/
  unannounced : Option Entry := none
  address : Option SocketAddress := none
  running : Bool := false
  /-- Whether it was stopped, which is for good. -/
  stopped : Bool := false
  /-- The last generation that was given out. -/
  generation : Nat := 0

namespace Master

variable {L : Type}

/-- A master over a log (`Master.new`). It takes writes at once, and replicas once it is started. -/
def create (settings : Settings) (log : L) : Except Fault (Master L) := do
  if settings.role ≠ .master then throw (.settings .notMasterRole)
  settings.validate
  return { settings, log, quorum := .ofCopies settings.copies }

/-! ### Links and sessions -/

def link? (m : Master L) (id : String) : Option Link := m.links.find? (·.peer.id = id)

def onLink (id : String) (f : Link → Link) (m : Master L) : Master L :=
  { m with links := m.links.map fun l => if l.peer.id = id then f l else l }

def session? (m : Master L) (generation : Nat) : Option Session :=
  m.sessions.find? (·.generation = generation)

def onSession (generation : Nat) (f : Session → Session) (m : Master L) : Master L :=
  { m with
    sessions := m.sessions.map fun s => if s.generation = generation then f s else s }

/-- Lets nothing further into the connection of a generation, and tells its tasks to end. -/
def cut (generation : Nat) (m : Master L) : Master L :=
  m.onSession generation fun s => { s with connection := s.connection.cut }

def connectedCount (m : Master L) : Nat := m.links.countP Link.isConnected

def streamingCount (m : Master L) : Nat := m.links.countP Link.isStreaming

def recount (m : Master L) : Master L :=
  { m with tally :=
      { m.tally with connected := m.connectedCount, streaming := m.streamingCount } }

/-- Gives up the connection of a link (`close_link`), if it is the one of this generation or of
any. -/
def closeLink (id : String) (generation? : Option Nat) (m : Master L) : Master L :=
  match m.link? id with
  | none => m
  | some l =>
    if l.isConnected ∧ generation?.all (· = l.generation) then
      ((m.onLink id Link.disconnect).cut l.generation).recount
    else m

/-- Ends a session: its tasks are told to, what waited for it is lost, and its link is given up
unless another connection has it by now. -/
def endSession (generation : Nat) (fault : Option Fault) (m : Master L) : Master L :=
  match m.session? generation with
  | none => m
  | some s =>
    (m.onSession generation fun s =>
      { s with stage := .ended fault, connection := s.connection.cancel.abandon }).closeLink
        s.replicaId (some generation)

/-! ### Writes -/

/-- Whether the session is the connection of a streaming link. -/
def isFed (m : Master L) (s : Session) : Bool :=
  m.links.any fun l =>
    l.peer.id = s.replicaId ∧ l.generation = s.generation ∧ l.isStreaming

/-- Hands an entry to every streaming link. -/
def forward (e : Entry) (m : Master L) : Master L :=
  { m with
    sessions := m.sessions.map fun s =>
      if m.isFed s then { s with connection := s.connection.offer e } else s }

/-- Notes a write that came to nothing; gives its number. -/
def refuse (reason : String) (m : Master L) : Master L × Nat :=
  let (quorum, write) := m.quorum.refuse reason
  ({ m with quorum }, write)

def countResolved (offsets : List Nat) (m : Master L) : Master L :=
  { m with tally := { m.tally with resolved := m.tally.resolved + offsets.length } }

/-- Tracks the stored entry, vouches for it, and hands it to the streaming links; gives the number of
the write. -/
def announce (m : Master L) : Master L × Option Nat :=
  match m.unannounced with
  | none => (m, none)
  | some e =>
    let (quorum, write) := m.quorum.track e.offset
    let (quorum, durable) := quorum.credit e.offset .master
    let m := ({ m with quorum, unannounced := none }.forward e).countResolved durable
    ({ m with tally := { m.tally with appends := m.tally.appends + 1 } }, some write)

variable [LocalLog L]

def offset (m : Master L) : Nat := LocalLog.highest m.log

/-- Stores an entry, unless another one is stored and not announced; gives the number of the write if
it came to nothing. A master that was stopped stores nothing. -/
def store (m : Master L) (payload : Bytes) (metadata : Option Bytes) : Master L × Option Nat :=
  if m.stopped then (m.refuse "master stopped").map id some
  else if m.unannounced.isSome then (m, none)
  else match LocalLog.append m.log payload metadata with
    | (log, .ok offset) => ({ m with log, unannounced := some ⟨offset, payload, metadata⟩ }, none)
    | (log, .error fault) =>
      let m := { m with
        log
        tally := { m.tally with appendFailures := m.tally.appendFailures + 1 } }
      (m.refuse ("local append failed: " ++ fault.message)).map id some

/-- Takes a write; gives its number (`append_with_metadata`). Nothing is given only while another
write is under way. -/
def append (m : Master L) (payload : Bytes) (metadata : Option Bytes) : Master L × Option Nat :=
  if m.unannounced.isSome ∧ !m.stopped then (m, none)
  else match m.store payload metadata with
    | (m, some write) => (m, some write)
    | (m, none) => m.announce

/-- Takes the report of a replica that it holds everything up to an offset (`on_replica_ack`). A
report beyond the log, from an unknown replica, or of nothing new changes no credit. -/
def acknowledge (m : Master L) (id : String) (offset : Nat) : Master L :=
  if m.offset < offset then m
  else match m.link? id with
    | none => m
    | some l =>
      let m := m.onLink id (Link.recordAck offset)
      if l.accepts offset then
        let (quorum, durable) := m.quorum.credit offset (.replica id)
        let m := { m with quorum }.countResolved durable
        { m with tally := { m.tally with acks := m.tally.acks + 1 } }
      else m

/-! ### Start and stop -/

/-- Starts to take replicas (`Master.start`). `bind` is what the system makes of the address in the
settings: where the master listens now, or the error number. -/
def start (m : Master L) (bind : Except Nat SocketAddress) :
    Master L × Except Fault SocketAddress :=
  if m.stopped then (m, .error (.stopped .master))
  else if m.running then (m, .error (.replication .masterRunning))
  else match bind with
    | .error number => (m, .error (.io (.system number)))
    | .ok address => ({ m with running := true, address := some address }, .ok address)

/-- Cuts every connection that a link has now. -/
def cutAll (m : Master L) : Master L :=
  { m with
    sessions := m.sessions.map fun s =>
      if m.links.any (·.generation = s.generation) then
        { s with connection := s.connection.cut }
      else s }

/-- Stops for good: every link goes, and writes that wait will wait for ever (`Master.stop`). -/
def stop (m : Master L) : Master L :=
  if m.stopped then m
  else { m.cutAll with links := [], running := false, stopped := true }.recount

def replica (m : Master L) (id : String) : Option LinkReport :=
  (m.link? id).map (·.report m.offset)

def replicas (m : Master L) : List LinkReport := m.links.map (·.report m.offset)

end Master

end QuorumLog
