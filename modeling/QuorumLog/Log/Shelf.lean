import QuorumLog.Log.Store

/-! A log that may be closed, and the directory that it leaves when it is. -/

namespace QuorumLog

/-- A place for a log. -/
structure Shelf where
  settings : StoreSettings := .standard
  /-- The directory while no log in it is open. -/
  directory : Directory := {}
  log : Option Store := none
deriving DecidableEq, Repr

namespace Shelf

/-- A shelf with an open log in memory. -/
def volatile : Shelf := { log := some default }

/-- What is in the directory. -/
def files (s : Shelf) : Directory :=
  match s.log with
  | some (.segmented log) => log.directory
  | _ => s.directory

def put (s : Shelf) (log : Store) : Shelf := { s with log := some log }

/-- Opens the log in the directory. -/
def opened (s : Shelf) : Shelf × Except Fault Unit :=
  match SegmentLog.recover s.settings s.files with
  | .ok log => ({ s with directory := log.directory, log := some (.segmented log) }, .ok ())
  | .error fault => ({ s with directory := s.files, log := none }, .error fault)

/-- Closes the log and opens it with segments of another size, or of the same. -/
def reopened (s : Shelf) (size : Option Nat) : Shelf × Except Fault Unit :=
  { s with settings :=
      { s.settings with segmentSize := size.getD s.settings.segmentSize } }.opened

/-- Someone changes a name in the directory, whether the log is open or not. -/
def disturb (s : Shelf) (change : Change) (name : String) : Except Nat Shelf :=
  match s.log with
  | some (.segmented log) => (log.disturb change name).map fun log => s.put (.segmented log)
  | _ => (change.apply name s.directory).map fun d => { s with directory := d }

end Shelf

end QuorumLog
