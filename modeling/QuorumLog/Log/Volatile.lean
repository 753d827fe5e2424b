import QuorumLog.Log.LocalLog

/-! A log in memory. It can be told to refuse appends. -/

namespace QuorumLog

/-- A log in memory (`MemoryLog`). -/
structure VolatileLog where
  entries : List Entry := []
  /-- The offset of the last entry, 0 if there never was one. -/
  highest : Nat := 0
  refusing : Bool := false
deriving DecidableEq, Repr

namespace VolatileLog

instance : Inhabited VolatileLog := ⟨{}⟩

def push (log : VolatileLog) (e : Entry) : VolatileLog :=
  { log with entries := log.entries ++ [e], highest := e.offset }

def append (log : VolatileLog) (payload : Bytes) (metadata : Option Bytes) :
    VolatileLog × Except Fault Nat :=
  if log.refusing then (log, .error (.io .appendRefused))
  else (log.push ⟨log.highest + 1, payload, metadata⟩, .ok (log.highest + 1))

def appendEntry (log : VolatileLog) (e : Entry) : VolatileLog × Except Fault Unit :=
  if log.refusing then (log, .error (.io .appendRefused))
  else if e.offset ≠ log.highest + 1 then
    (log, .error (.log (.notContiguous (log.highest + 1) e.offset)))
  else (log.push e, .ok ())

def oldest (log : VolatileLog) : Nat :=
  match log.entries with
  | [] => log.highest + 1
  | e :: _ => e.offset

def read (log : VolatileLog) (start limit : Nat) : List Entry :=
  match log.entries with
  | [] => []
  | first :: _ => (log.entries.drop (start - first.offset)).take limit

def purge (log : VolatileLog) (offset : Nat) : VolatileLog :=
  { log with entries := log.entries.dropWhile (·.offset < offset) }

instance : LocalLog VolatileLog where
  append := append
  appendEntry := appendEntry
  read log start limit := .ok (log.read start limit)
  highest := highest
  oldest := oldest
  purge log offset :=
    (log.purge offset, .ok (log.entries.takeWhile (·.offset < offset)).length)

end VolatileLog

end QuorumLog
