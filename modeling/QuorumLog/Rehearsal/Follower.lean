import QuorumLog.Channel
import QuorumLog.Replica.Supervisor

/-! A replica whose master is played by someone else. The replica answers each message before the next
one comes, and its answers are kept until they are looked at. -/

namespace QuorumLog

/-- A replica and the connection that it has. -/
structure Follower (L : Type) where
  replica : Replica L
  /-- The connection; what the replica sent on it waits in `up`. -/
  channel : Channel := { address := Settings.defaultBind, attempt := .ended (.ok ()) }

namespace Follower

variable {L : Type}

def ending? (f : Follower L) : Option (Except Fault Unit) :=
  match f.channel.attempt with
  | .ended ending => some ending
  | _ => none

/-- Nothing that the replica sent is left to look at. -/
def seen (f : Follower L) : Follower L := { f with channel := { f.channel with up := [] } }

/-- The connection ends, unless it did before. -/
def finish (f : Follower L) (ending : Except Fault Unit) : Follower L :=
  { f with channel := f.channel.finish ending }

/-- The operator cuts the connection; only a replica that makes attempts of its own heeds that. -/
def cut (f : Follower L) : Follower L := if f.replica.running then f.finish (.ok ()) else f

/-- A replica whose attempt to connect came to nothing. -/
def unconnected (replica : Replica L) (fault : Fault) : Follower L :=
  { replica, channel := { address := Settings.defaultBind, attempt := .ended (.error fault) } }

/-- The replica tries to connect, and the attempt ends before it is connected. -/
def missed (f : Follower L) (ending : Except Fault Unit) : Follower L :=
  match f.replica.dial with
  | (replica, .ok _) =>
    { replica, channel := { address := Settings.defaultBind, attempt := .ended ending } }
  | (replica, .error fault) => unconnected replica fault

/-- The replica tries to connect, and the system keeps it from that with an error number. -/
def refused (f : Follower L) (number : Nat) : Follower L := f.missed (.error (.io (.system number)))

variable [LocalLog L]

def dial (f : Follower L) : Follower L :=
  match Channel.dial f.replica Settings.defaultBind with
  | (replica, .ok channel) => { replica, channel }
  | (replica, .error fault) => unconnected replica fault

def hear (f : Follower L) (messages : List Message) : Follower L :=
  let (replica, channel) := f.channel.hear f.replica messages
  { replica, channel }

/-- The master is silent for too long. -/
def wait (f : Follower L) : Follower L := f.finish (.error (f.channel.silence f.replica))

/-- The replica takes the end of its attempt and waits for the next one; gives the result if there is
no next one. -/
def next (f : Follower L) : Follower L × Option (Except Fault Unit) :=
  match f.replica.attemptEnded (f.ending?.getD (.ok ())) with
  | (replica, .finished result) => ({ f with replica }, some result)
  | (replica, .retry _) => ({ f with replica := replica.waited.1 }, none)

end Follower

end QuorumLog
