import QuorumLog.Text.Decimal

/-! Numbers in a TOML document. Digits may be parted by single underscores; a number in decimal has
no leading zero, and one in another base has no sign. -/

namespace QuorumLog.Toml.Number

/-- The digits without the underscores between them. -/
def digits? (isDigit : Char → Bool) : (afterDigit : Bool) → List Char → Option (List Char)
  | afterDigit, [] => if afterDigit then some [] else none
  | afterDigit, c :: rest =>
    if c = '_' then (if afterDigit then digits? isDigit false rest else none)
    else if isDigit c then (digits? isDigit true rest).map (c :: ·)
    else none

def isDecimal (c : Char) : Bool := '0' ≤ c ∧ c ≤ '9'

def digitValue (c : Char) : Nat :=
  if c ≤ '9' then c.toNat - 48 else if c ≤ 'Z' then c.toNat - 55 else c.toNat - 87

/-- Whether a character is a digit of a base up to sixteen. -/
def isDigitOf (base : Nat) (c : Char) : Bool :=
  (isDecimal c ∨ ('a' ≤ c ∧ c ≤ 'f') ∨ ('A' ≤ c ∧ c ≤ 'F')) ∧ digitValue c < base

/-- The number that digits denote in a base. -/
def natural? (base : Nat) (cs : List Char) : Option Nat :=
  (digits? (isDigitOf base) false cs).map (·.foldl (fun n c => base * n + digitValue c) 0)

/-- The number that decimal digits without a leading zero denote. -/
def plain? (cs : List Char) : Option Nat :=
  (digits? isDecimal false cs).bind fun digits =>
    match digits with
    | '0' :: _ :: _ => none
    | digits => Decimal.value? digits

/-- The whole number that a word denotes. -/
def integer? (cs : List Char) : Option Int :=
  match cs with
  | '0' :: 'x' :: rest => (natural? 16 rest).map Int.ofNat
  | '0' :: 'o' :: rest => (natural? 8 rest).map Int.ofNat
  | '0' :: 'b' :: rest => (natural? 2 rest).map Int.ofNat
  | '+' :: rest => (plain? rest).map Int.ofNat
  | '-' :: rest => (plain? rest).map fun n => -(n : Int)
  | rest => (plain? rest).map Int.ofNat

/-- Whether a word is an exponent behind its letter. -/
def isExponent (cs : List Char) : Bool :=
  (digits? isDecimal false (match cs with
    | '+' :: rest => rest
    | '-' :: rest => rest
    | cs => cs)).isSome

def isExponentLetter (c : Char) : Bool := c = 'e' ∨ c = 'E'

/-- Whether a word without sign denotes a real number. -/
def isPlainReal (cs : List Char) : Bool :=
  let mantissa := cs.takeWhile (!isExponentLetter ·)
  let exponent := cs.dropWhile (!isExponentLetter ·)
  let whole := mantissa.takeWhile (· ≠ '.')
  let fraction := mantissa.dropWhile (· ≠ '.')
  (plain? whole).isSome
    ∧ (fraction.isEmpty ∨ (digits? isDecimal false (fraction.drop 1)).isSome)
    ∧ (exponent.isEmpty ∨ isExponent (exponent.drop 1))
    ∧ !(fraction.isEmpty ∧ exponent.isEmpty)

/-- Whether a word denotes a real number. -/
def isReal (cs : List Char) : Bool :=
  let plain := match cs with
    | '+' :: rest => rest
    | '-' :: rest => rest
    | cs => cs
  plain = "inf".toList ∨ plain = "nan".toList ∨ isPlainReal plain

end QuorumLog.Toml.Number
