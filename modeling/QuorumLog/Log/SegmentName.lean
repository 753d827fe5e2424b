import QuorumLog.Text.Decimal

/-! The names of segment files: the first offset of the segment in twenty digits, then `.log`. A
directory may hold other spellings of the same number, and they are taken for it. -/

namespace QuorumLog.SegmentName

/-- The name of the segment that starts at an offset (`segment_path`). -/
def ofBase (base : Nat) : String :=
  String.ofList (Decimal.padded 20 base ++ ".log".toList)

/-- What stands before `.log`, if something does. -/
def stem? (name : List Char) : Option (List Char) :=
  match name.reverse with
  | 'g' :: 'o' :: 'l' :: '.' :: c :: rest => some (c :: rest).reverse
  | _ => none

/-- The offset at which the segment in a file starts (`parse_segment_name`). Other files give
nothing, and so does the offset 0, which no entry has. -/
def base? (name : String) : Option Nat :=
  ((stem? name.toList).bind (Decimal.read? UInt64.size)).filter (0 < ·)

end QuorumLog.SegmentName
