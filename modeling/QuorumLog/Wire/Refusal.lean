import QuorumLog.Fault
import QuorumLog.Text.Blank

/-! Failures on the wire. A failure message has a code and a text, and the text of a divergence
carries the three offsets that describe it, so that the other side finds the same fault. -/

namespace QuorumLog.Refusal

def wrongToken : UInt32 := 1

def versionMismatch : UInt32 := 2

def diverged : UInt32 := 3

def noPlace : UInt32 := 4

def divergenceText (replica oldest current : Nat) : String :=
  String.ofList <| "replica=".toList ++ Decimal.digits replica ++ " oldest=".toList
    ++ Decimal.digits oldest ++ " current=".toList ++ Decimal.digits current

def divergence (replica oldest current : Nat) : Message :=
  .failure diverged (divergenceText replica oldest current)

/-- The number in a word such as `oldest=12`, cut at its first equals sign. -/
def field? (key : String) (word : List Char) : Option Nat :=
  match word.span (· ≠ '=') with
  | (name, _ :: digits) => if name = key.toList then Decimal.read? UInt64.size digits else none
  | (_, []) => none

/-- The divergence that a text describes in its first three words (`parse_diverged`). -/
def readDivergence? (text : String) : Option Fault :=
  match Blank.words text.toList with
  | first :: second :: third :: _ => do
    let replica ← field? "replica" first
    let oldest ← field? "oldest" second
    let current ← field? "current" third
    some (.divergence replica oldest current)
  | _ => none

/-- The fault that a received message stands for (`into_error`). -/
def toFault : Message → Fault
  | .failure code text =>
    if code = wrongToken then .trust (.other text)
    else if code = diverged then
      (readDivergence? text).getD (.replication (.reported text))
    else .replication (.reportedCode text code)
  | m => .protocol (.unexpected m.kind)

end QuorumLog.Refusal
