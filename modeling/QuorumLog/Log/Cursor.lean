import QuorumLog.Log.LocalLog

/-! Going through a log page by page. A cursor reads a page when it has none left, so it also finds
entries that were added meanwhile; it ends for good at the first page that is empty or fails. -/

namespace QuorumLog

/-- A place in a log and the page that was read there (`LogIter`). -/
structure Cursor where
  next : Nat
  /-- The entries of the last page that were not given out. -/
  page : List Entry := []
  pageSize : Nat
  /-- Whether an empty page was read, or one that failed. -/
  finished : Bool := false
deriving DecidableEq, Repr

namespace Cursor

/-- The entries that are read at a time if nobody asks for another count. -/
def usualPage : Nat := 256

/-- A cursor at an offset; pages hold at least one entry (`with_batch_size`). -/
def start (offset pageSize : Nat) : Cursor where
  next := max offset 1
  pageSize := max pageSize 1

/-- Gives out the first entry of the page. -/
def take (c : Cursor) : Cursor × Option (Except Fault Entry) :=
  match c.page with
  | [] => (c, none)
  | e :: later => ({ c with next := e.offset + 1, page := later }, some (.ok e))

variable {L : Type} [LocalLog L]

/-- Gives out the next entry of a log, or a fault, or nothing at the end (`LogIter.next`). -/
def step (log : L) (c : Cursor) : Cursor × Option (Except Fault Entry) :=
  if c.page.isEmpty ∧ !c.finished then
    match LocalLog.read log c.next c.pageSize with
    | .error fault => ({ c with finished := true }, some (.error fault))
    | .ok [] => ({ c with finished := true }, none)
    | .ok page => { c with page }.take
  else c.take

/-- Takes at most so many steps, up to the first that gives nothing. -/
def run (log : L) : Nat → Cursor → Cursor × List (Except Fault Entry)
  | 0, c => (c, [])
  | fuel + 1, c =>
    match c.step log with
    | (c, none) => (c, [])
    | (c, some item) =>
      let (c, items) := run log fuel c
      (c, item :: items)

/-- Everything that a cursor still gives. Each entry has a higher offset than the one before, so the
end of the log bounds the steps. -/
def drain (log : L) (c : Cursor) : Cursor × List (Except Fault Entry) :=
  c.run log (LocalLog.highest log + 2)

end Cursor

namespace LocalLog

variable {L : Type} [LocalLog L]

/-- The payloads of all retained entries, or the first fault on the way (`read_all_payloads`). -/
def readAll (log : L) : Except Fault (List Bytes) :=
  ((Cursor.start (oldest log) Cursor.usualPage).drain log).2.mapM fun item =>
    item.map Entry.payload

end LocalLog

end QuorumLog
