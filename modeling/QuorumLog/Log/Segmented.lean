import QuorumLog.Log.Change
import QuorumLog.Log.LocalLog
import QuorumLog.Log.Segment
import QuorumLog.Settings.Basic

/-! A log in a directory of segment files. In memory it keeps where each record starts; the records
are read from the files each time. Appends go to the last segment until it is full. A log is brought
back from its directory by a scan of every segment. -/

namespace QuorumLog

/-- What the medium does while the log uses it. -/
structure Medium where
  /-- The error number of making a segment file, if that fails. -/
  create : Option Nat := none
  /-- The bytes that reach a file, and the error number, if a write fails. -/
  write : Option (Nat × Nat) := none
  /-- The error number of waiting until the medium holds what was written, if that fails. -/
  sync : Option Nat := none
  /-- The error number of deleting the file of the segment at an offset, if that fails. -/
  delete : Nat → Option Nat := fun _ => none

def Medium.sound : Medium := {}

/-- A log in a directory (`SegmentedLog`). -/
structure SegmentLog where
  settings : StoreSettings
  directory : Directory
  segments : List Segment
  active : Option Handle
  /-- The offset of the last entry, 0 if there never was one. -/
  highest : Nat
deriving DecidableEq, Repr

namespace SegmentLog

/-- The offsets of which the directory has segments, ascending; one for each spelling. -/
def bases (d : Directory) : List Nat :=
  (d.names.filterMap SegmentName.base?).mergeSort (· ≤ ·)

/-- Adds a segment behind the others, in place of one with the same base. -/
def withSegment (segments : List Segment) (s : Segment) : List Segment :=
  segments.filter (·.base ≠ s.base) ++ [s]

/-- Recovers segments one after the other, each where the one before ends. The first one may start
anywhere, and so may one behind a segment that ends at 0. Limits are
counted without bound; in words they would wrap behind a segment that ends at `2 ^ 64 - 1`. -/
def recoverSegments (path : String) : (d : Directory) → (segments : List Segment) →
    (highest : Nat) → (bases : List Nat) → Except Fault (Directory × List Segment × Nat)
  | d, segments, highest, [] => .ok (d, segments, highest)
  | d, segments, highest, base :: later =>
    if highest ≠ 0 ∧ base ≠ highest + 1 then .error (.log (.segmentGap base highest))
    else match Segment.recover path d base later.isEmpty with
      | .error fault => .error fault
      | .ok (d, s) => recoverSegments path d (withSegment segments s) (s.limit - 1) later

/-- Opens the file of the last segment for appending. -/
def openLast (d : Directory) (segments : List Segment) : Except Fault (Option Handle) :=
  match segments.getLast? with
  | none => .ok none
  | some s =>
    match d.openAppend false s.name with
    | .ok (_, handle) => .ok (some handle)
    | .error number => .error (.io (.system number))

/-- Brings a log back from its directory (`SegmentedLog.open`). -/
def recover (settings : StoreSettings) (d : Directory) : Except Fault SegmentLog :=
  if settings.segmentSize = 0 then .error (.settings .noSegmentSize)
  else match recoverSegments settings.path d [] 0 (bases d) with
    | .error fault => .error fault
    | .ok (d, segments, highest) =>
      (openLast d segments).map fun active => ⟨settings, d, segments, active, highest⟩

/-- Whether the next record goes to a new segment. -/
def needsSegment (log : SegmentLog) : Bool :=
  match log.segments.getLast? with
  | none => true
  | some s => log.settings.segmentSize ≤ s.length ∧ s.positions ≠ []

def startSegment (medium : Medium) (log : SegmentLog) (base : Nat) : Except Fault SegmentLog :=
  match medium.create with
  | some number => .error (.io (.system number))
  | none =>
    match log.directory.openAppend true (SegmentName.ofBase base) with
    | .error number => .error (.io (.system number))
    | .ok (d, handle) =>
      .ok { log with
        directory := d
        segments := withSegment log.segments (.empty base)
        active := some handle }

/-- What a write of some bytes to an open file comes to: the bytes that reach it, and the error
number if not all do or if waiting for the medium fails. -/
def written (medium : Medium) (sync : Bool) (handle : Handle) (bytes : Bytes) :
    Bytes × Option Nat :=
  match handle, medium.write with
  | .fullDevice, _ => ([], some noSpace)
  | _, some (reached, number) => (bytes.take reached, some number)
  | _, none => (bytes, if sync then medium.sync else none)

/-- Writes a record behind those of the last segment (`write_record`). If that fails, what reached
the file is cut off again. -/
def writeRecord (medium : Medium) (log : SegmentLog) (e : Entry) : SegmentLog × Except Fault Unit :=
  match log.segments.getLast?, log.active with
  | some s, some handle =>
    let (bytes, failure) := written medium log.settings.syncOnAppend handle (Record.encode e)
    let d := log.directory.modifyOpen (· ++ bytes) handle
    match failure with
    | some number =>
      ({ log with directory := d.modifyOpen (Directory.fitted s.length) handle },
        .error (.io (.system number)))
    | none =>
      ({ log with
          directory := d
          segments := log.segments.dropLast ++ [s.push (Record.size e)]
          highest := e.offset }, .ok ())
  | _, _ => (log, .error (.internal "No active log segment"))

/-- Stores an entry behind the last one. -/
def store (medium : Medium) (log : SegmentLog) (e : Entry) : SegmentLog × Except Fault Unit :=
  if log.needsSegment then
    match log.startSegment medium e.offset with
    | .error fault => (log, .error fault)
    | .ok log => log.writeRecord medium e
  else log.writeRecord medium e

def append (medium : Medium) (log : SegmentLog) (payload : Bytes) (metadata : Option Bytes) :
    SegmentLog × Except Fault Nat :=
  let (after, result) := log.store medium ⟨log.highest + 1, payload, metadata⟩
  (after, result.map fun _ => log.highest + 1)

def appendEntry (medium : Medium) (log : SegmentLog) (e : Entry) : SegmentLog × Except Fault Unit :=
  if e.offset ≠ log.highest + 1 then
    (log, .error (.log (.notContiguous (log.highest + 1) e.offset)))
  else log.store medium e

def oldest (log : SegmentLog) : Nat :=
  match log.segments.find? (·.positions ≠ []) with
  | some s => s.base
  | none => log.highest + 1

/-- Reads at most `limit` entries of some segments, from an offset on. -/
def readSegments (path : String) (d : Directory) : (start limit : Nat) → List Segment →
    Except Fault (List Entry)
  | _, _, [] => .ok []
  | start, limit, s :: later =>
    if limit = 0 then .ok []
    else match s.read path d (max start s.base) limit with
      | .error fault => .error fault
      | .ok entries =>
        (readSegments path d (max start s.limit) (limit - entries.length) later).map (entries ++ ·)

/-- The segments from the one that may hold an offset on. -/
def segmentsFrom (log : SegmentLog) (offset : Nat) : List Segment :=
  match (log.segments.filter (·.base ≤ offset)).getLast? with
  | none => log.segments
  | some first => log.segments.filter (first.base ≤ ·.base)

def read (log : SegmentLog) (start limit : Nat) : Except Fault (List Entry) :=
  if log.highest < start ∨ limit = 0 then .ok []
  else readSegments log.settings.path log.directory start limit (log.segmentsFrom start)

def deleteFile (medium : Medium) (log : SegmentLog) (s : Segment) : Except Nat SegmentLog :=
  match medium.delete s.base with
  | some number => .error number
  | none =>
    (Change.delete.apply s.name log.directory).map fun d =>
      { log with directory := d, active := log.active.map (Change.delete.follow s.name) }

/-- Drops segments and deletes their files, up to the first that cannot be deleted; gives the count
of entries that went with them. -/
def dropSegments (medium : Medium) : SegmentLog → (count : Nat) → List Segment →
    SegmentLog × Except Fault Nat
  | log, count, [] => (log, .ok count)
  | log, count, s :: later =>
    let log := { log with segments := log.segments.filter (·.base ≠ s.base) }
    match log.deleteFile medium s with
    | .error number => (log, .error (.io (.system number)))
    | .ok log => dropSegments medium log (count + s.positions.length) later

/-- The segments of which every entry is below an offset; the last segment is never among them. -/
def expired (log : SegmentLog) (offset : Nat) : List Segment :=
  log.segments.dropLast.filter fun s => s.positions = [] ∨ s.limit ≤ offset

/-- Forgets the segments of which every entry is below an offset (`purge_before`). -/
def purge (medium : Medium) (log : SegmentLog) (offset : Nat) : SegmentLog × Except Fault Nat :=
  log.dropSegments medium 0 (log.expired offset)

/-- Someone else changes the directory. -/
def disturb (log : SegmentLog) (change : Change) (name : String) : Except Nat SegmentLog :=
  (change.apply name log.directory).map fun d =>
    { log with directory := d, active := log.active.map (change.follow name) }

instance : LocalLog SegmentLog where
  append := append .sound
  appendEntry := appendEntry .sound
  read := read
  highest := highest
  oldest := oldest
  purge := purge .sound

end SegmentLog

end QuorumLog
