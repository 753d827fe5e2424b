import QuorumLog.Durability

/-! The count of copies. Each pending write remembers which sources vouch for it, the master by its
own append and each replica by what it reports, and becomes durable when enough of them do. Credit
is cumulative: a source that vouches for an offset vouches for every pending write up to it. -/

namespace QuorumLog

/-- Who vouches for a copy (`AckSource`). -/
inductive Source where
  | master
  | replica (id : String)
deriving DecidableEq, Repr

/-- A write that too few sources vouch for. -/
structure PendingWrite where
  offset : Nat
  /-- Who vouches for it; nobody twice. -/
  sources : List Source
  /-- The cell that tells the writer. -/
  cell : Nat
deriving DecidableEq, Repr

/-- Adds a source that is not there yet. -/
def PendingWrite.credit (source : Source) (w : PendingWrite) : PendingWrite :=
  if source ∈ w.sources then w else { w with sources := w.sources ++ [source] }

/-- The pending writes, what each source was last credited with, and the board of outcomes
(`QuorumTracker`). -/
structure Quorum where
  required : Nat
  pending : List PendingWrite := []
  /-- The highest offset credited to each source that was ever credited. -/
  marks : List (Source × Nat) := []
  resolved : Nat := 0
  /-- The outcome of every write. -/
  board : Board := {}
deriving DecidableEq, Repr

namespace Quorum

/-- A quorum of so many copies, at least one. -/
def ofCopies (copies : UInt32) : Quorum where
  required := max copies.toNat 1

/-- The highest offset credited to a source, 0 if it has no credit (`QuorumTracker.watermark`). -/
def watermark (q : Quorum) (source : Source) : Nat :=
  (q.marks.lookup source).getD 0

def setWatermark (q : Quorum) (source : Source) (offset : Nat) : Quorum :=
  { q with marks := (source, offset) :: q.marks.filter (·.1 ≠ source) }

def get? (q : Quorum) (offset : Nat) : Option PendingWrite :=
  q.pending.find? (·.offset = offset)

/-- Puts a write among writes of ascending offset, in place of one at the same offset. -/
def insertWrite (w : PendingWrite) : List PendingWrite → List PendingWrite
  | [] => [w]
  | v :: rest =>
    if w.offset < v.offset then w :: v :: rest
    else if w.offset = v.offset then w :: rest
    else v :: insertWrite w rest

/-- Waits for the write at an offset, whose outcome goes to the cell (`QuorumTracker.register`). A
write that waited at this offset is given up. -/
def register (q : Quorum) (offset cell : Nat) : Quorum :=
  { q with
    pending := insertWrite ⟨offset, [], cell⟩ q.pending
    board := match q.get? offset with
      | some replaced => q.board.release replaced.cell
      | none => q.board }

/-- Waits for the write at an offset; gives the number of its cell. -/
def track (q : Quorum) (offset : Nat) : Quorum × Nat :=
  ({ q with board := q.board.push (Cell.opened (some offset)) }.register offset q.board.size,
    q.board.size)

/-- Notes a write that failed before it could be tracked; gives the number of its cell. -/
def refuse (q : Quorum) (reason : String) : Quorum × Nat :=
  ({ q with board := q.board.push (Cell.closed none (.failed reason)) }, q.board.size)

/-- Whether a credit for an offset range completes a write. -/
def completes (q : Quorum) (low high : Nat) (source : Source) (w : PendingWrite) : Bool :=
  low ≤ w.offset ∧ w.offset ≤ high ∧ source ∉ w.sources ∧ q.required ≤ w.sources.length + 1

/-- Credits a source with every pending write in a range of offsets; gives the offsets that became
durable, ascending (`credit_range`). -/
def creditRange (q : Quorum) (low high : Nat) (source : Source) : Quorum × List Nat :=
  let done := q.pending.filter (q.completes low high source)
  let waiting := q.pending.filter (!q.completes low high source ·)
  ({ q with
      pending := waiting.map fun w =>
        if low ≤ w.offset ∧ w.offset ≤ high then w.credit source else w
      resolved := q.resolved + done.length
      board := done.foldl (fun b w => (b.resolve w.cell).release w.cell) q.board },
    done.map (·.offset))

/-- Credits a source with every pending write up to an offset (`QuorumTracker.credit`). A source
that was credited with as much before gains nothing. -/
def credit (q : Quorum) (offset : Nat) (source : Source) : Quorum × List Nat :=
  if offset ≤ q.watermark source then (q, [])
  else (q.setWatermark source offset).creditRange (q.watermark source + 1) offset source

/-- Takes the word of a source for what it holds, higher or lower than before (`rebase_source`).
Credit for writes below is given where it is missing and never taken away. -/
def rebase (q : Quorum) (source : Source) (offset : Nat) : Quorum × List Nat :=
  (q.setWatermark source offset).creditRange 1 offset source

def pendingOffsets (q : Quorum) : List Nat := q.pending.map (·.offset)

theorem watermark_setWatermark (q : Quorum) (source other : Source) (offset : Nat) :
    (q.setWatermark source offset).watermark other =
      if other = source then offset else q.watermark other := by
  simp only [watermark, setWatermark, List.lookup_cons]
  by_cases h : other = source
  · simp [h]
  · have hb : (other == source) = false := by simpa using h
    simp only [hb, h, if_false]
    congr 1
    induction q.marks with
    | nil => rfl
    | cons mark rest ih =>
      obtain ⟨s, n⟩ := mark
      by_cases hs : s = source
      · subst hs
        simpa [List.filter_cons, List.lookup_cons, hb] using ih
      · simp only [List.filter_cons, hs, decide_true, ne_eq, not_false_eq_true, if_true,
          List.lookup_cons]
        rw [ih]

end Quorum

end QuorumLog
