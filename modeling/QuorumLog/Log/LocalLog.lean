import QuorumLog.Entry
import QuorumLog.Fault

/-! What every log can do: take entries at its end, give out those that it retains, and forget old
ones. Offsets start at 1; an empty log ends at 0. A call that fails may leave the log in another
state, so calls give both the state and the result. -/

namespace QuorumLog

/-- The calls on a log. -/
class LocalLog (L : Type) where
  /-- Adds an entry behind the last one; gives its offset. -/
  append : L → Bytes → Option Bytes → L × Except Fault Nat
  /-- Adds an entry whose offset was given elsewhere and must be the next one. -/
  appendEntry : L → Entry → L × Except Fault Unit
  /-- At most so many entries from an offset on; offsets that are not retained are skipped. -/
  read : L → (start limit : Nat) → Except Fault (List Entry)
  /-- The offset of the last entry, 0 if there never was one. -/
  highest : L → Nat
  /-- The offset of the first retained entry, or the next offset if none is retained. -/
  oldest : L → Nat
  /-- Forgets entries below an offset as far as the way of storing allows; gives their count. -/
  purge : L → Nat → L × Except Fault Nat

namespace LocalLog

variable {L : Type} [LocalLog L]

/-- The checksum of the entry at an offset, if it is retained (`checksum_at`). -/
def checksumAt (log : L) (offset : Nat) : Except Fault (Option UInt32) :=
  (read log offset 1).map fun entries =>
    (entries.find? (·.offset = offset)).map Entry.checksum

/-- All retained entries from an offset on. -/
def readTail (log : L) (start : Nat) : Except Fault (List Entry) :=
  read log start (highest log)

/-- Adds entries without metadata, one after the other, up to the first that fails; gives the offset
of the last, or `last` if there are none. -/
def appendAll (log : L) (last : Nat) : List Bytes → L × Except Fault Nat
  | [] => (log, .ok last)
  | payload :: later =>
    match append log payload none with
    | (log, .error fault) => (log, .error fault)
    | (log, .ok offset) => appendAll log offset later

end LocalLog

end QuorumLog
