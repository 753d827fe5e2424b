import QuorumLog.Channel
import QuorumLog.Node

/-! Nodes that run together. A member has a name and a log that outlives the nodes it runs over it. A
replica follows one run of a master: when that run is over, the replica finds no one at its address,
even if the same member becomes master again. -/

namespace QuorumLog

/-- A member of a cluster. -/
structure Member (L : Type) where
  name : String
  /-- The log that it has while it does not run. -/
  log : L
  node : Option (Node L) := none
  starts : Nat := 0
  /-- The member that it follows, and which of the runs of that one. -/
  follows : Option (String × Nat) := none
  channel : Option Channel := none
  /-- How its attempts to follow ended for good. -/
  ending : Option (Except Fault Unit) := none
  /-- The writes of earlier runs. -/
  past : List Cell := []

namespace Member

variable {L : Type}

def currentLog (m : Member L) : L := (m.node.map Node.log).getD m.log

/-- Its writes, those of all runs. -/
def writes (m : Member L) : Board :=
  match m.node with
  | some (.master master) => ⟨m.past ++ master.quorum.board.cells⟩
  | _ => ⟨m.past⟩

/-- The replica that it runs and that did not give up. -/
def follower? (m : Member L) : Option (Replica L) :=
  match m.node, m.ending with
  | some (.replica r), none => some r
  | _, _ => none

/-- Runs no node any more. No one is left to settle the writes. -/
def halted (m : Member L) : Member L :=
  { m with
    log := m.currentLog
    node := none
    channel := none
    past := m.writes.cells.map Cell.release }

/-- Runs a node. -/
def started (node : Node L) (follows : Option (String × Nat)) (m : Member L) : Member L :=
  { m.halted with node := some node, starts := m.starts + 1, follows, ending := none }

end Member

/-- The members of a cluster, no two with one name. -/
structure Cluster (L : Type) where
  members : List (Member L) := []

namespace Cluster

variable {L : Type}

def get? (c : Cluster L) (name : String) : Option (Member L) := c.members.find? (·.name = name)

/-- Puts a member in the place of the one with its name. -/
def put (c : Cluster L) (m : Member L) : Cluster L :=
  ⟨c.members.map fun old => if old.name = m.name then m else old⟩

/-- The master that a member follows, if that run goes on. -/
def leader? (c : Cluster L) (m : Member L) : Option (Member L × Master L) :=
  match m.follows.bind fun (name, start) => (c.get? name).filter (·.starts = start) with
  | some leader =>
    match leader.node with
    | some (.master master) => if master.running then some (leader, master) else none
    | _ => none
  | none => none

/-- Takes the end of an attempt of a replica. -/
def ended (c : Cluster L) (m : Member L) (r : Replica L) (ending : Except Fault Unit) : Cluster L :=
  match r.attemptEnded ending with
  | (r, .finished result) =>
    c.put { m with node := some (.replica r), channel := none, ending := some result }
  | (r, .retry _) => c.put { m with node := some (.replica r.waited.1), channel := none }

variable [LocalLog L]

/-- Lets a replica and its master work on the connection that they have, or on a new one; gives the
connection and whether the attempt goes on. -/
def meet (c : Cluster L) (m : Member L) (r : Replica L) (leader : Member L) (master : Master L) :
    Cluster L × Bool :=
  let address := master.address.getD Settings.defaultBind
  match m.channel.elim (Channel.dial r address) fun channel => (r, .ok channel) with
  | (r, .error fault) => (c.ended m r (.error fault), false)
  | (r, .ok channel) =>
    let (master, r, channel) := channel.exchange master r (Channel.rounds master)
    match channel.attempt with
    | .ended ending =>
      let (master, _) := channel.hangUp master
      ((c.put { leader with node := some (.master master) }).ended m r ending, false)
    | _ =>
      ((c.put { leader with node := some (.master master) }).put
        { m with node := some (.replica r), channel := some channel }, true)

/-- Lets a member follow its master, for at most so many attempts. -/
def serve (name : String) : (attempts : Nat) → Cluster L → Cluster L
  | 0, c => c
  | attempts + 1, c =>
    match (c.get? name).bind fun m => m.follower?.map (m, ·) with
    | none => c
    | some (m, r) =>
      match c.leader? m with
      | none => if m.channel.isSome then c.ended m r (.error (.io .earlyEnd)) else c
      | some (leader, master) =>
        match c.meet m r leader master with
        | (c, true) => c
        | (c, false) => serve name attempts c

/-- The attempts after which a replica that gets nowhere is left to itself. -/
def patience : Nat := 4

/-- Lets everyone work until nothing is left to do. -/
def settle (c : Cluster L) : Cluster L :=
  c.members.foldl (fun c m => c.serve m.name patience) c

/-- Starts a node over the log of a member. `leader` names the member whose master it follows, if
there is one. -/
def start (c : Cluster L) (name : String) (settings : Settings) (leader : Option String)
    (bind : Except Nat SocketAddress) : Cluster L × Except Fault Unit :=
  match c.get? name with
  | none => (c, .ok ())
  | some m =>
    match Node.start settings m.currentLog bind with
    | .error fault => (c.put m.halted, .error fault)
    | .ok node =>
      let follows := (leader.bind c.get?).map fun l => (l.name, l.starts)
      (c.put (m.started node follows), .ok ())

/-- Stops the node of a member; gives the fault that ended it, if one did. -/
def stop (c : Cluster L) (m : Member L) : Cluster L × Except Fault Unit :=
  (c.put m.halted, m.ending.getD (.ok ()))

/-- Makes the replica of a member master over its log; if that fails, nothing runs any more. -/
def promote (c : Cluster L) (m : Member L) (settings : Settings)
    (bind : Except Nat SocketAddress) : Cluster L × Except Fault Unit :=
  match m.node.map (Node.promote settings bind) with
  | none => (c, .ok ())
  | some (.error fault) => (c.put m.halted, .error fault)
  | some (.ok node) => (c.put (m.started node none), .ok ())

/-- Takes a write at a member; gives its number among the writes of the member. -/
def append (c : Cluster L) (name : String) (payload : Bytes) :
    Cluster L × Except Fault (Option Nat) :=
  match c.get? name with
  | none => (c, .ok none)
  | some m =>
    match m.node.map (Node.append payload) with
    | none => (c, .ok none)
    | some (node, result) =>
      (c.put { m with node := some node }, result.map (·.map (m.past.length + ·)))

def disconnect (c : Cluster L) (m : Member L) : Cluster L :=
  c.put { m with channel := m.channel.map (·.finish (.ok ())) }

end Cluster

end QuorumLog
