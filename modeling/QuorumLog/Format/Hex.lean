import QuorumLog.Format.LittleEndian

/-! Bytes as hexadecimal digits, two for each. Writing uses small letters, reading takes both. -/

namespace QuorumLog.Hex

def digits : List Char := "0123456789abcdef".toList

def digit (n : Nat) : Char := digits.getD n '0'

def encode (bytes : Bytes) : String :=
  bytes.foldl (fun text b => (text.push (digit (b.toNat / 16))).push (digit (b.toNat % 16))) ""

/-- The bytes of some digits, unless there is an odd one or something else among them. -/
def decode? : List Char → Option Bytes
  | [] => some []
  | high :: low :: rest =>
    match digits.idxOf? high.toLower, digits.idxOf? low.toLower, decode? rest with
    | some h, some l, some bytes => some (UInt8.ofNat (16 * h + l) :: bytes)
    | _, _, _ => none
  | _ => none

end QuorumLog.Hex
