import QuorumLog.Log.Directory
import QuorumLog.Log.Record
import QuorumLog.Log.SegmentName

/-! One segment of a stored log: where its records start, and how long they are together. A scan
goes over the bytes of a segment file for as long as they are records of consecutive offsets and
tells why it ended. The last segment is cut there; in any other one nothing may stand behind. -/

namespace QuorumLog

/-- Why a scan ended. -/
inductive ScanEnd where
  | complete
  /-- A record of another offset follows. -/
  | stray (expected actual : Nat)
  | broken (cause : LogCause)
deriving DecidableEq, Repr

/-- The records at the start of a segment file. -/
structure SegmentScan where
  positions : List Nat
  length : Nat
  ending : ScanEnd
deriving DecidableEq, Repr

/-- Scans bytes that start at a position of a file of some size, where the next record should have
the offset `expected` (`scan_segment`). Offsets are counted without bound;
in words they would wrap behind the record at `2 ^ 64 - 1`. -/
def SegmentScan.run (size expected position : Nat) (bytes : Bytes) : SegmentScan :=
  match _h : Record.next (size - position) bytes with
  | .error cause => ⟨[], position, .broken cause⟩
  | .ok none => ⟨[], position, .complete⟩
  | .ok (some (e, rest)) =>
    if e.offset = expected then
      let later := run size (expected + 1) (position + Record.size e) rest
      { later with positions := position :: later.positions }
    else ⟨[], position, .stray expected e.offset⟩
termination_by bytes.length
decreasing_by exact Record.length_lt_of_next _h

/-- A segment of a stored log. -/
structure Segment where
  base : Nat
  /-- Where each record starts, by offset. -/
  positions : List Nat
  length : Nat
deriving DecidableEq, Repr

namespace Segment

def empty (base : Nat) : Segment := ⟨base, [], 0⟩

/-- The offset behind the last record. -/
def limit (s : Segment) : Nat := s.base + s.positions.length

/-- Adds a record of some bytes. -/
def push (size : Nat) (s : Segment) : Segment :=
  { s with positions := s.positions ++ [s.length], length := s.length + size }

def name (s : Segment) : String := SegmentName.ofBase s.base

def path (directory file : String) : String :=
  match directory.toList.getLast? with
  | none => file
  | some '/' => directory ++ file
  | some _ => directory ++ "/" ++ file

/-- Why a scan of a segment is a fault, if it is. Only the last segment may break off. -/
def fault? (file : String) (isLast : Bool) : ScanEnd → Option Fault
  | .complete => none
  | .stray expected actual =>
    if isLast then none else some (.log (.offsetMismatch file expected actual))
  | .broken cause => if isLast then none else some (.log cause)

/-- Reads the segment that starts at an offset from its file, and cuts the file behind the last
record. -/
def recover (directory : String) (d : Directory) (base : Nat) (isLast : Bool) :
    Except Fault (Directory × Segment) :=
  let name := SegmentName.ofBase base
  match d.read name 0 with
  | .error number => .error (.io (.system number))
  | .ok bytes =>
    let size := d.length name
    let scan := SegmentScan.run size base 0 bytes
    match fault? (path directory name) isLast scan.ending with
    | some fault => .error fault
    | none =>
      .ok (if scan.length < size then d.resize name scan.length else d,
        ⟨base, scan.positions, scan.length⟩)

/-- Reads the records at some positions of a segment, one behind the other. -/
def readRecords (file : String) (length : Nat) : (expected : Nat) → (positions : List Nat) → Bytes →
    Except Fault (List Entry)
  | _, [], _ => .ok []
  | expected, position :: later, bytes =>
    match Record.next (length - position) bytes with
    | .error cause => .error (.log cause)
    | .ok none => .error (.log (.truncated file))
    | .ok (some (e, rest)) =>
      if e.offset = expected then
        (readRecords file length (expected + 1) later rest).map (e :: ·)
      else .error (.log (.offsetMismatch file expected e.offset))

/-- Reads at most `count` records of a segment from its file, from an offset on. -/
def read (directory : String) (d : Directory) (s : Segment) (offset count : Nat) :
    Except Fault (List Entry) :=
  match s.positions.drop (offset - s.base) with
  | [] => .ok []
  | position :: later =>
    match d.read s.name position with
    | .error number => .error (.io (.system number))
    | .ok bytes =>
      readRecords (path directory s.name) s.length offset ((position :: later).take count) bytes

end Segment

end QuorumLog
