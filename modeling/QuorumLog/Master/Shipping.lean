import QuorumLog.Master.Basic
import QuorumLog.Wire.Frame

/-! What a master sends to a replica and hears from it. A session welcomes its replica, writes the
log page by page until a page is empty, then has new entries handed over to it, writes what came into
the log in between, and from there on what is handed over. One call to `advance` is one step of that
and writes at most one message. -/

namespace QuorumLog.Master

variable {L : Type}

/-- Writes a message, or ends the session if it fits into no frame. -/
def write (m : Master L) (generation : Nat) (message : Message) :
    Except (Master L) (Option Message) :=
  if Frame.maxPayload < message.payloadSize then
    .error (m.endSession generation
      (some (.protocol (.tooLarge message.payloadSize))))
  else .ok (some message)

def enter (m : Master L) (generation : Nat) (stage : Stage) : Master L :=
  m.onSession generation fun s => { s with stage }

/-- Takes the word of a replica that was welcomed for what it holds. -/
def welcomed (m : Master L) (s : Session) : Master L :=
  let (quorum, durable) := m.quorum.rebase (.replica s.replicaId) (s.next - 1)
  let m := { m with quorum }.countResolved durable
  ({ m with tally := { m.tally with accepted := m.tally.accepted + 1 } }.recount).enter
    s.generation .reading

def countShipped (m : Master L) (id : String) (count : Nat) : Master L :=
  let m := m.onLink id (Link.recordSent count)
  { m with tally := { m.tally with shipped := m.tally.shipped + count } }

/-- Writes the first of some entries (`send_entries`). It has to be the next one: a hole in the log
ends the session. -/
def sendNext (m : Master L) (s : Session) (slice : Slice) (e : Entry) (rest : List Entry)
    (count : Nat) : Master L × Option Message :=
  if e.offset ≠ s.next then
    (m.endSession s.generation
      (some (.replication (.shippingGap s.replicaId s.next e.offset))), none)
  else match m.write s.generation (.entry e) with
    | .error m => (m, none)
    | .ok message =>
      let m := m.onSession s.generation fun s => { s with next := s.next + 1 }
      if rest.isEmpty then
        ((m.countShipped s.replicaId count).enter s.generation slice.after, message)
      else (m.enter s.generation (.sending slice rest count), message)

/-- The stage in which some entries are written. -/
def sendingStage (slice : Slice) (entries : List Entry) : Stage :=
  if entries.isEmpty then slice.after else .sending slice entries entries.length

/-- Writes the entry that was handed over first. When none is left and none can come, the session is
over. -/
def takeFresh (m : Master L) (s : Session) : Master L × Option Message :=
  match s.connection.queue with
  | e :: later =>
    let m := m.onSession s.generation fun s =>
      { s with connection := { s.connection with queue := later } }
    m.sendNext s .fresh e [] 1
  | [] =>
    if s.connection.fed then (m, none) else (m.endSession s.generation none, none)

variable [LocalLog L]

/-- Reads the next page of the log (`stream_to_replica`). -/
def readPage (m : Master L) (s : Session) : Master L :=
  match LocalLog.read m.log s.next m.settings.batchSize with
  | .error fault => m.endSession s.generation (some fault)
  | .ok [] => m.enter s.generation .finishing
  | .ok page => m.enter s.generation (.sending .page page page.length)

/-- Makes the link streaming and reads what is left of the log, both at once (`finish_catch_up`).
Not possible for a connection that the link does not have any more, nor while a stored entry is not
announced. -/
def finishCatchUp (m : Master L) (s : Session) : Master L :=
  if m.unannounced.isSome then m
  else match LocalLog.readTail m.log s.next with
    | .error fault => m.endSession s.generation (some fault)
    | .ok tail =>
      match m.link? s.replicaId with
      | none => m.endSession s.generation (some (.stopped (.superseded s.replicaId)))
      | some l =>
        if l.generation = s.generation ∧ l.phase = .catchingUp then
          ((m.onLink s.replicaId Link.beginStreaming).recount).enter s.generation
            (sendingStage .tail tail)
        else m.endSession s.generation (some (.stopped (.superseded s.replicaId)))

/-- Takes one step on a session; gives the message that it writes, if it writes one. -/
def advance (m : Master L) (generation : Nat) : Master L × Option Message :=
  match m.session? generation with
  | none => (m, none)
  | some s =>
    match s.stage with
    | .welcoming welcome =>
      match m.write generation (.welcome welcome) with
      | .error m => (m, none)
      | .ok message => (m.welcomed s, message)
    | .reading => (m.readPage s, none)
    | .sending slice (e :: rest) count => m.sendNext s slice e rest count
    | .sending slice [] _ => (m.enter generation slice.after, none)
    | .finishing => (m.finishCatchUp s, none)
    | .completing => (m.enter generation .streaming, some (.catchUpComplete (s.next - 1)))
    | .streaming => m.takeFresh s
    | .ended _ => (m, none)

/-- The heartbeat of a streaming session. -/
def heartbeat (m : Master L) (generation : Nat) (timestamp : UInt64) : Option Message :=
  match m.session? generation with
  | some s => if s.stage = .streaming then some (.ping timestamp) else none
  | none => none

/-- Handles a message of a replica: a report, a sign of life, or a failure that ends the session;
anything else means nothing (`read_acks`). -/
def receive (m : Master L) (generation : Nat) (message : Message) : Master L :=
  match m.session? generation with
  | none => m
  | some s =>
    if s.isListening then
      match message with
      | .ack offset => m.acknowledge s.replicaId offset
      | .pong _ => m.onLink s.replicaId Link.touch
      | .failure .. => m.endSession generation none
      | _ => m
    else m

/-- Takes steps on a session for as long as they change something, at most so many; gives what they
write. -/
def ship (m : Master L) (generation : Nat) : (fuel : Nat) → Master L × List Message
  | 0 => (m, [])
  | fuel + 1 =>
    match m.session? generation with
    | none => (m, [])
    | some s =>
      if s.isOver ∨ s.isIdle then (m, [])
      else
        let (m, message) := m.advance generation
        let (m, messages) := m.ship generation fuel
        (m, message.toList ++ messages)

/-- Enough steps to bring a session to rest: each entry of the log is written once at most, and each
page takes one step more. -/
def shipFuel (m : Master L) : Nat := 2 * m.offset + 8

/-- Lets a session that is past the welcome do all that it can: it ends if it was told to, and writes
otherwise. -/
def proceed (m : Master L) (generation : Nat) : Master L × List Message :=
  match m.session? generation with
  | none => (m, [])
  | some s =>
    if s.isOver then (m, [])
    else if s.connection.cancelled ∨ m.stopped then (m.endSession generation none, [])
    else m.ship generation m.shipFuel

/-- Lets a session do all that it can. The welcome is written even if the session was told to end. -/
def work (m : Master L) (generation : Nat) : Master L × List Message :=
  if (m.session? generation).any Session.isWelcoming then
    let (m, message) := m.advance generation
    let (m, messages) := m.proceed generation
    (m, message.toList ++ messages)
  else m.proceed generation

/-- Lets the sessions do all that they can, one after the other; gives what each wrote. -/
def settle (m : Master L) : Master L × List (Nat × List Message) :=
  m.sessions.foldl (fun (m, written) s =>
    let (m, messages) := m.work s.generation
    (m, written ++ [(s.generation, messages)])) (m, [])

end QuorumLog.Master
