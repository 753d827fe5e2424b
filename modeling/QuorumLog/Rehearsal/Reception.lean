import QuorumLog.Master.Handshake
import QuorumLog.Master.Shipping

/-! A master whose replicas are played by someone else. Each connection goes by a name, and a later
one takes the name over. After everything that happens the master does all that it can, and what it
writes is kept until it is looked at. -/

namespace QuorumLog

/-- The other side of an accepted connection. -/
structure Visitor where
  name : String
  generation : Nat
  /-- What the master wrote and was not looked at. -/
  received : List Message := []
deriving DecidableEq, Repr

/-- What a master finds at the beginning of some bytes from an address: the first message, or the
fault of waiting for it, and what follows. Whoever sent them may close the connection then. -/
def Frame.first (address : SocketAddress) (bytes : Bytes) (closes : Bool) :
    Except Fault Message × List Message :=
  match Frame.next bytes with
  | (.error (.io .earlyEnd), _) =>
    (.error (if closes then .io .earlyEnd else Master.silent address), [])
  | (first, rest) => (first, (Frame.readAll rest).messages)

/-- A master and its visitors. -/
structure Reception (L : Type) where
  master : Master L
  visitors : List Visitor := []

namespace Reception

variable {L : Type}

def visitor? (p : Reception L) (name : String) : Option Visitor :=
  p.visitors.find? (·.name = name)

/-- Whether the master closed the connection of a visitor. -/
def isClosed (p : Reception L) (v : Visitor) : Bool :=
  (p.master.session? v.generation).all Session.isOver

/-- Nothing that a visitor received is left to look at. -/
def seen (p : Reception L) (name : String) : Reception L :=
  { p with visitors := p.visitors.map fun v => if v.name = name then { v with received := [] } else v }

variable [LocalLog L]

/-- The master is now this one, and does all that it can. -/
def set (p : Reception L) (m : Master L) : Reception L :=
  let (master, written) := m.settle
  { master
    visitors := p.visitors.map fun v =>
      { v with received := v.received ++ (written.lookup v.generation).getD [] } }

def hear (p : Reception L) (generation : Nat) (message : Message) : Reception L :=
  p.set (p.master.receive generation message)

def hangUp (p : Reception L) (generation : Nat) : Reception L :=
  p.set (p.master.endSession generation none)

/-- A visitor sends messages and may close the connection then. -/
def hearAll (p : Reception L) (generation : Nat) (messages : List Message) (closes : Bool) :
    Reception L :=
  let p := messages.foldl (·.hear generation ·) p
  if closes then p.hangUp generation else p

/-- A connection from an address, with the first message on it or the fault of waiting for that, and
what follows; gives how the master took it and what it wrote before anything else happened. The
connection goes by its name, or else by that of the replica. -/
def connect (p : Reception L) (address : SocketAddress) (name : Option String)
    (first : Except Fault Message) (later : List Message) (closes : Bool) :
    Reception L × Except Fault LinkReport × List Message :=
  match p.master.greet address first with
  | (m, .error rejection) => (p.set m, .error rejection.fault, rejection.reply.toList)
  | (m, .ok report) =>
    let name := name.getD report.id
    let others := p.visitors.filter fun v => v.name ≠ name
    let visitor : Visitor := { name, generation := m.generation }
    let p := { p with visitors := others ++ [visitor] }.set m
    let written := ((p.visitor? name).map Visitor.received).getD []
    ((p.seen name).hearAll m.generation later closes, .ok report, written)

end Reception

end QuorumLog
