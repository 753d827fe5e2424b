import QuorumLog.Log.Segmented
import QuorumLog.Log.Volatile

/-! A log of either kind, for nodes that choose the kind when they start. -/

namespace QuorumLog

/-- A log of either kind. -/
inductive Store where
  | volatile (log : VolatileLog)
  | segmented (log : SegmentLog)
deriving DecidableEq, Repr

namespace Store

instance : Inhabited Store := ⟨.volatile {}⟩

/-- The log with the result of a call on a log in memory. -/
def ofVolatile {α : Type} (call : VolatileLog × α) : Store × α := (.volatile call.1, call.2)

/-- The log with the result of a call on a log in a directory. -/
def ofSegmented {α : Type} (call : SegmentLog × α) : Store × α := (.segmented call.1, call.2)

/-- How many things the log retains: entries in memory, segments in a directory. -/
def retained : Store → Nat
  | volatile log => log.entries.length
  | segmented log => log.segments.length

instance : LocalLog Store where
  append
    | volatile log, payload, metadata => ofVolatile (LocalLog.append log payload metadata)
    | segmented log, payload, metadata => ofSegmented (LocalLog.append log payload metadata)
  appendEntry
    | volatile log, e => ofVolatile (LocalLog.appendEntry log e)
    | segmented log, e => ofSegmented (LocalLog.appendEntry log e)
  read
    | volatile log, start, limit => LocalLog.read log start limit
    | segmented log, start, limit => LocalLog.read log start limit
  highest
    | volatile log => log.highest
    | segmented log => log.highest
  oldest
    | volatile log => log.oldest
    | segmented log => log.oldest
  purge
    | volatile log, offset => ofVolatile (LocalLog.purge log offset)
    | segmented log, offset => ofSegmented (LocalLog.purge log offset)

end Store

end QuorumLog
