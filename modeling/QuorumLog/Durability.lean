import QuorumLog.Fault

/-! The outcome of writes. A board has one cell per write; whoever holds the promise of a cell may
settle it once, and everyone may look. A cell whose promise is gone unsettled stays pending, and
waiting for it without bound fails. -/

namespace QuorumLog

/-- How it stands with a write. -/
inductive Durability where
  | pending
  | durable
  | failed (reason : String)
deriving DecidableEq, Repr

def Durability.isPending (d : Durability) : Bool := d = .pending

/-- One write on a board. -/
structure Cell where
  offset : Option Nat
  state : Durability
  /-- Whether someone still holds the promise to settle it. -/
  held : Bool
deriving DecidableEq, Repr

namespace Cell

/-- A cell that waits to be settled. -/
def opened (offset : Option Nat) : Cell := ⟨offset, .pending, true⟩

/-- A cell that was settled when it was made. -/
def closed (offset : Option Nat) (state : Durability) : Cell := ⟨offset, state, false⟩

/-- Settles a cell that waits; another one stays as it is (`DurabilityPromise.settle`). -/
def settle (outcome : Durability) (c : Cell) : Cell :=
  if c.state.isPending then { c with state := outcome } else c

def release (c : Cell) : Cell := { c with held := false }

/-- What waiting without bound for the write gives: its offset, a fault, or nothing for now
(`DurabilityFuture.into_future`). -/
def outcome? (c : Cell) : Option (Except Fault Nat) :=
  match c.state with
  | .durable => some (.ok (c.offset.getD 0))
  | .failed reason => some (.error (.replication (.other reason)))
  | .pending =>
    if c.held then none else some (.error (.stopped (.abandoned (c.offset.getD 0))))

/-- What whoever waits for a cell to be settled is told: the state, or that no one is left who could settle
it. The last state counts, also if the promise is gone since. Nothing is told while there is hope. -/
def signal? (c : Cell) : Option (Option Durability) :=
  if !c.state.isPending then some (some c.state) else if c.held then none else some none

/-- The state that is seen at the end of a wait that is over at the latest when its time is up
(`DurabilityFuture.settled`). -/
def settled? (timeUp : Bool) (c : Cell) : Option Durability :=
  match c.signal? with
  | some (some state) => some state
  | some none => some c.state
  | none => if timeUp then some c.state else none

/-- Whether the write is durable at the end of such a wait (`DurabilityFuture.wait`). -/
def wait? (timeUp : Bool) (c : Cell) : Option Bool := (c.settled? timeUp).map (· = .durable)

@[simp] theorem offset_settle (outcome : Durability) (c : Cell) :
    (c.settle outcome).offset = c.offset := by
  unfold settle; split <;> rfl

@[simp] theorem state_release (c : Cell) : c.release.state = c.state := rfl

end Cell

/-- The writes of which the outcome is of interest, in the order in which they were made. -/
structure Board where
  cells : List Cell := []
deriving DecidableEq, Repr

namespace Board

instance : Inhabited Board := ⟨{}⟩

def size (b : Board) : Nat := b.cells.length

/-- Adds a cell; its number is the size before. -/
def push (b : Board) (c : Cell) : Board := ⟨b.cells ++ [c]⟩

def state (b : Board) (write : Nat) : Durability :=
  (b.cells[write]?.map (·.state)).getD .pending

/-- Whether a write waits to be settled. -/
def isPending (b : Board) (write : Nat) : Bool := (b.state write).isPending

def settle (b : Board) (write : Nat) (outcome : Durability) : Board :=
  ⟨b.cells.modify write (Cell.settle outcome)⟩

def resolve (b : Board) (write : Nat) : Board := b.settle write .durable

def release (b : Board) (write : Nat) : Board := ⟨b.cells.modify write Cell.release⟩

@[simp] theorem size_push (b : Board) (c : Cell) : (b.push c).size = b.size + 1 := by
  simp [push, size]

@[simp] theorem size_settle (b : Board) (write : Nat) (outcome : Durability) :
    (b.settle write outcome).size = b.size := by
  simp [settle, size]

end Board

end QuorumLog
