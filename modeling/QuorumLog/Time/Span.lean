import QuorumLog.Text.Decimal

/-! Lengths of time in whole nanoseconds, of less than `2 ^ 64` seconds. Settings give them in
milliseconds. -/

namespace QuorumLog

/-- A length of time in whole nanoseconds. -/
structure Span where
  nanos : Nat
deriving DecidableEq, Repr, Inhabited

namespace Span

def ofMillis (millis : Nat) : Span := ⟨millis * 1000000⟩

/-- The whole milliseconds of a time. -/
def millis (span : Span) : Nat := span.nanos / 1000000

@[simp]
theorem millis_ofMillis (millis : Nat) : (ofMillis millis).millis = millis := by
  simp [ofMillis, Span.millis]

/-- Whole seconds are counted in 64 bits, so a longer time cannot be held. -/
def limit : Nat := UInt64.size * 1000000000

/-- The time a number of times over, or `none` if it cannot be held. -/
def times? (span : Span) (count : UInt32) : Option Span :=
  if span.nanos * count.toNat < limit then some ⟨span.nanos * count.toNat⟩ else none

/-- So many digits of a fraction, without the zeros at its end. -/
def fraction (width n : Nat) : List Char :=
  ((Decimal.padded width n).reverse.dropWhile (· = '0')).reverse

/-- A number of nanoseconds in a unit of `size` of them, with a fraction of at most `width` digits. -/
def inUnit (nanos size width : Nat) (unit : String) : String :=
  let digits := fraction width (nanos % size)
  if digits.isEmpty then s!"{nanos / size}" ++ unit
  else s!"{nanos / size}." ++ String.ofList digits ++ unit

/-- The time in the largest unit of which it holds one. -/
def text (span : Span) : String :=
  if span.nanos < 1000 then inUnit span.nanos 1 0 "ns"
  else if span.nanos < 1000000 then inUnit span.nanos 1000 3 "µs"
  else if span.nanos < 1000000000 then inUnit span.nanos 1000000 6 "ms"
  else inUnit span.nanos 1000000000 9 "s"

end Span

end QuorumLog
