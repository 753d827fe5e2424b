import QuorumLog.Master.Handshake
import QuorumLog.Master.Shipping
import QuorumLog.Replica.Session

/-! One connection between a replica and a master, with the messages on their way in both directions.
Each step takes part of the work of one side: the replica dials and later handles the message at the
front, the master greets it, ships, and handles the message at the front. Messages arrive in the order
in which they were sent, and all that is on its way may be lost with the connection. -/

namespace QuorumLog

/-- Where the replica is on a connection. -/
inductive Attempt where
  | greeting (held : Nat)
  | syncing
  | ended (ending : Except Fault Unit)
deriving Repr

/-- Whether the replica is done with the connection. -/
def Attempt.isOver : Attempt → Bool
  | ended _ => true
  | _ => false

/-- A connection between a replica and a master. -/
structure Channel where
  address : SocketAddress
  attempt : Attempt
  welcomed : Option Welcomed := none
  generation : Option Nat := none
  /-- Whether the master will send nothing more than what is on its way. -/
  closed : Bool := false
  /-- Whether everything that is sent is lost. -/
  lost : Bool := false
  /-- What the master sent and the replica did not handle, oldest first. -/
  down : List Message := []
  /-- What the replica sent and the master did not handle, oldest first. -/
  up : List Message := []
deriving Repr

namespace Channel

variable {L : Type}

/-- Puts what the master sends on its way. -/
def send (c : Channel) (messages : List Message) : Channel :=
  if c.lost then c else { c with down := c.down ++ messages }

/-- Puts what the replica sends on its way. -/
def answer (c : Channel) (messages : List Message) : Channel :=
  if c.lost then c else { c with up := c.up ++ messages }

/-- The replica is done with the connection; nothing that it sent is taken back. -/
def leave (c : Channel) (ending : Except Fault Unit) : Channel :=
  { c with attempt := .ended ending, down := [] }

/-- The connection breaks, with everything on its way. The replica finds out at once, the master when
its session ends. -/
def breakOff (c : Channel) : Channel :=
  { c.leave (.error (.io .earlyEnd)) with lost := true, up := [] }

/-- Ends the session that the master has for the connection. -/
def hangUp (m : Master L) (c : Channel) : Master L × Channel :=
  match c.generation with
  | none => (m, { c with closed := true, up := [] })
  | some generation => (m.endSession generation none, { c with closed := true, up := [] })

/-- The replica handles the message at the front, or finds that there will be none. -/
def toReplica [LocalLog L] (r : Replica L) (c : Channel) : Replica L × Channel :=
  match c.attempt, c.down with
  | .ended _, _ => (r, c)
  | .greeting held, [] =>
    if c.closed then
      let (r, result) := r.welcome held (.error (.io .earlyEnd))
      (r, c.leave (result.map fun _ => ()))
    else (r, c)
  | .greeting held, message :: later =>
    match r.welcome held (.ok message) with
    | (r, .error fault) => (r, c.leave (.error fault))
    | (r, .ok w) =>
      (r.beginSync, { c with attempt := .syncing, welcomed := some w, down := later })
  | .syncing, [] => if c.closed then (r, c.leave (.error (.io .earlyEnd))) else (r, c)
  | .syncing, message :: later =>
    match r.receive message with
    | (r, .error fault) => (r, c.leave (.error fault))
    | (r, .ok answers) => (r, { c with down := later }.answer answers.toList)

/-- The replica handles what is on its way, for at most so many messages. -/
def drain [LocalLog L] (r : Replica L) (c : Channel) : (count : Nat) → Replica L × Channel
  | 0 => (r, c)
  | count + 1 =>
    let (r, c) := c.toReplica r
    drain r c count

/-- The replica handles messages that the master sends. -/
def hear [LocalLog L] (r : Replica L) (c : Channel) (messages : List Message) :
    Replica L × Channel :=
  (c.send messages).drain r messages.length

/-- The replica is done with the connection, unless it was before. -/
def finish (c : Channel) (ending : Except Fault Unit) : Channel :=
  if c.attempt.isOver then c else c.leave ending

/-- The fault that the replica finds when nothing arrives for too long. -/
def silence (r : Replica L) (c : Channel) : Fault :=
  match c.attempt with
  | .greeting _ => .replication .welcomeTimeout
  | _ => r.silence

variable [LocalLog L]

/-- The replica connects and says what it holds. -/
def dial (r : Replica L) (address : SocketAddress) : Replica L × Except Fault Channel :=
  match r.dial with
  | (r, .error fault) => (r, .error fault)
  | (r, .ok _) =>
    (r, r.hello.bind fun h =>
      let size := (Message.hello h).payloadSize
      if Frame.maxPayload < size then .error (.protocol (.tooLarge size))
      else .ok { address, attempt := .greeting h.lastOffset, up := [.hello h] })

/-- The master handles the first message of the connection. -/
def greet (m : Master L) (c : Channel) (first : Except Fault Message) (rest : List Message) :
    Master L × Channel :=
  match m.greet c.address first with
  | (m, .error rejection) =>
    (m, { c with closed := true, up := [] }.send rejection.reply.toList)
  | (m, .ok _) => (m, { c with generation := some m.generation, up := rest })

/-- The master handles the message at the front. It waits with all but the first until the replica is
welcomed. -/
def toMaster (m : Master L) (c : Channel) : Master L × Channel :=
  match c.generation, c.up with
  | _, [] => (m, c)
  | none, first :: rest => if c.closed then (m, c) else c.greet m (.ok first) rest
  | some generation, message :: later =>
    if (m.session? generation).any Session.isWelcoming then (m, c)
    else (m.receive generation message, { c with up := later })

/-- The master takes a step on the session; what it writes is on its way then. -/
def ship (m : Master L) (c : Channel) : Master L × Channel :=
  match c.generation with
  | none => (m, c)
  | some generation =>
    let (m, message) := m.advance generation
    let isDone := (m.session? generation).all Session.isOver
    (m, { c with closed := c.closed || isDone }.send message.toList)

/-- Whether nothing is on its way and the master has nothing to write. -/
def isQuiet (m : Master L) (c : Channel) : Bool :=
  c.up.isEmpty && c.down.isEmpty &&
    ((c.generation.bind m.session?).all fun s => s.isOver || s.isIdle)

/-- Lets both sides work until the connection is quiet or the replica leaves it, for at most so many
rounds. -/
def exchange {K : Type} [LocalLog K] (m : Master L) (r : Replica K) (c : Channel) :
    (rounds : Nat) → Master L × Replica K × Channel
  | 0 => (m, r, c)
  | rounds + 1 =>
    if c.attempt.isOver ∨ (c.isQuiet m ∧ !c.closed) then (m, r, c)
    else
      let (m, c) := c.toMaster m
      let (m, c) := c.ship m
      let (r, c) := c.toReplica r
      exchange m r c rounds

/-- Enough rounds for a connection to become quiet if the master takes no write meanwhile. -/
def rounds (m : Master L) : Nat := 8 * m.offset + 32

/-- The replica connects and is served until there is nothing left to do; gives how the attempt
ended, if it did. -/
def follow {K : Type} [LocalLog K] (m : Master L) (r : Replica K) (address : SocketAddress) :
    Master L × Replica K × Option (Except Fault Unit) :=
  match dial r address with
  | (r, .error fault) => (m, r, some (.error fault))
  | (r, .ok c) =>
    match c.exchange m r (rounds m) with
    | (m, r, { attempt := .ended ending, .. }) => (m, r, some ending)
    | (m, r, _) => (m, r, none)

end Channel

end QuorumLog
