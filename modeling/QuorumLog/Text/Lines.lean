import QuorumLog.Text.Utf8

/-! The lines of an input. A line ends with a line feed, before which one carriage return is dropped;
the last line may lack its end. -/

namespace QuorumLog.Lines

def lineFeed : UInt8 := 10

def carriageReturn : UInt8 := 13

/-- The bytes up to each line feed, and those behind the last one. -/
def split : Bytes → List Bytes × Bytes
  | [] => ([], [])
  | b :: rest =>
    match split rest with
    | ([], last) => if b = lineFeed then ([[]], last) else ([], b :: last)
    | (line :: later, last) =>
      if b = lineFeed then ([] :: line :: later, last) else ((b :: line) :: later, last)

/-- A line without the carriage return at its end. -/
def trimmed (line : Bytes) : Bytes :=
  if line.getLast? = some carriageReturn then line.dropLast else line

/-- The lines of an input without their ends. -/
def ofInput (input : Bytes) : List Bytes :=
  let (lines, last) := split input
  lines.map trimmed ++ if last.isEmpty then [] else [last]

end QuorumLog.Lines
