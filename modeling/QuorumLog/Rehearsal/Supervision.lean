import QuorumLog.Rehearsal.Follower

/-! A replica that makes attempts, with everything that may happen to it: the system and the master
decide how an attempt goes, the operator may cut the connection or stop the replica, and waits come to
their end. The attempts that ended are remembered. -/

namespace QuorumLog

/-- What happens to a replica that makes attempts. -/
inductive Happening where
  /-- The system connects it to the address of its master, and it says hello. -/
  | connect
  | hear (messages : List Message)
  /-- The system does not connect it, or the connection breaks. -/
  | fail (fault : Fault)
  /-- Nothing arrives for too long. -/
  | silence
  /-- The operator cuts the connection, or the attempt to make one. -/
  | cut
  /-- The operator stops the replica. -/
  | stop
  /-- The wait for the next attempt is over. -/
  | elapse

/-- Where a replica is with its attempts. -/
inductive WatchStage where
  /-- An attempt began, and the system has yet to connect the replica. -/
  | dialing
  | connected
  | waiting
  | closed (result : Except Fault Unit)
deriving Repr

/-- An attempt that ended. -/
structure Ended where
  /-- Whether a master welcomed the replica. -/
  welcomed : Bool
  ending : Except Fault Unit
  /-- The wait that followed, if one did. -/
  wait : Option Span
deriving Repr

/-- A replica that makes attempts. -/
structure Watch (L : Type) where
  follower : Follower L
  stage : WatchStage
  /-- The attempts that ended, the last one first. -/
  past : List Ended := []

namespace Watch

variable {L : Type}

def replica (w : Watch L) : Replica L := w.follower.replica

/-- The replica is told to make attempts. -/
def start (r : Replica L) : Watch L :=
  match r.run with
  | (replica, none) => { follower := { replica }, stage := .dialing }
  | (replica, some result) => { follower := { replica }, stage := .closed result }

/-- The attempt ended in some way, and the replica goes by it. -/
def conclude (w : Watch L) (f : Follower L) (ending : Except Fault Unit) : Watch L :=
  let welcomed := f.channel.welcomed.isSome
  match f.replica.attemptEnded ending with
  | (replica, .retry wait) =>
    { follower := { f with replica }
      stage := .waiting
      past := ⟨welcomed, ending, some wait⟩ :: w.past }
  | (replica, .finished result) =>
    { follower := { f with replica }
      stage := .closed result
      past := ⟨welcomed, ending, none⟩ :: w.past }

/-- The attempt goes on with a connection, unless it ended. -/
def proceed (w : Watch L) (f : Follower L) : Watch L :=
  match f.ending? with
  | none => { w with follower := f, stage := .connected }
  | some ending => w.conclude f ending

/-- The replica is stopped, which ends its attempts at once. -/
def halt (w : Watch L) : Watch L :=
  let r := w.replica.stop
  match w.stage with
  | .closed _ => { w with follower.replica := r }
  | .waiting => { w with follower.replica := r.waited.1, stage := .closed (r.waited.2.getD (.ok ())) }
  | .dialing | .connected =>
    match r.attemptEnded (.ok ()) with
    | (replica, .finished result) => { w with follower.replica := replica, stage := .closed result }
    | (replica, .retry _) => { w with follower.replica := replica, stage := .waiting }

/-- The wait is over. -/
def resume (w : Watch L) : Watch L :=
  match w.replica.waited with
  | (replica, none) => { w with follower.replica := replica, stage := .dialing }
  | (replica, some result) => { w with follower.replica := replica, stage := .closed result }

variable [LocalLog L]

/-- What a happening makes of the attempt that goes on, if it concerns one. -/
def meet? (w : Watch L) (h : Happening) : Option (Follower L) :=
  match w.stage, h with
  | .dialing, .connect => some w.follower.dial
  | .dialing, .fail fault => some (w.follower.missed (.error fault))
  | .dialing, .cut => some (w.follower.missed (.ok ()))
  | .connected, .hear messages => some (w.follower.hear messages)
  | .connected, .fail fault => some (w.follower.finish (.error fault))
  | .connected, .silence => some w.follower.wait
  | .connected, .cut => some w.follower.cut
  | _, _ => none

def step (w : Watch L) (h : Happening) : Watch L :=
  match w.stage, h with
  | _, .stop => w.halt
  | .waiting, .elapse => w.resume
  | _, h => (w.meet? h).elim w w.proceed

def play (w : Watch L) (happenings : List Happening) : Watch L := happenings.foldl step w

end Watch

end QuorumLog
