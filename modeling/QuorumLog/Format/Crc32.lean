import QuorumLog.Format.LittleEndian

/-! The cyclic redundancy check of 32 bits over the reflected polynomial `0xEDB88320`, with the
register preset to ones and complemented at the end. -/

namespace QuorumLog.Crc32

/-- Moves the register by one bit and subtracts the polynomial if a one falls out. -/
def shift (register : UInt32) : UInt32 :=
  if register &&& 1 = 0 then register >>> 1 else (register >>> 1) ^^^ 0xEDB88320

/-- Moves the register by several bits. -/
def shifts : Nat → UInt32 → UInt32
  | 0, register => register
  | n + 1, register => shifts n (shift register)

/-- Takes one byte into the register, its lowest bit first. -/
def absorb (register : UInt32) (byte : UInt8) : UInt32 :=
  shifts 8 (register ^^^ byte.toUInt32)

/-- The register after a byte string, from a given start. -/
def run (register : UInt32) (bytes : Bytes) : UInt32 :=
  bytes.foldl absorb register

/-- The check value of a byte string. -/
def checksum (bytes : Bytes) : UInt32 :=
  run 0xFFFFFFFF bytes ^^^ 0xFFFFFFFF

@[simp] theorem run_append (register : UInt32) (left right : Bytes) :
    run register (left ++ right) = run (run register left) right := by
  simp [run]

end QuorumLog.Crc32
