import QuorumLog.Text.Decimal

/-! Records as lines of JSON. In a text, a quote and a backslash are written behind a backslash and a
control character by its short name or its number. -/

namespace QuorumLog.Json

def hexDigit (n : Nat) : Char := if n < 10 then Char.ofNat (48 + n) else Char.ofNat (87 + n)

def escape (c : Char) : List Char :=
  match c with
  | '"' => ['\\', '"']
  | '\\' => ['\\', '\\']
  | '\x08' => ['\\', 'b']
  | '\t' => ['\\', 't']
  | '\n' => ['\\', 'n']
  | '\x0c' => ['\\', 'f']
  | '\r' => ['\\', 'r']
  | c => if c < ' ' then ['\\', 'u', '0', '0', hexDigit (c.toNat / 16), hexDigit (c.toNat % 16)]
         else [c]

def quoted (text : String) : List Char := '"' :: text.toList.flatMap escape ++ ['"']

/-- A text, or the word for none. -/
def quotedOrNull : Option String → List Char
  | some text => quoted text
  | none => "null".toList

/-- Fields between braces. -/
def record (fields : List (String × List Char)) : String :=
  String.ofList <| ['\x7b'] ++
    [','].intercalate (fields.map fun (name, value) => quoted name ++ ':' :: value) ++ ['\x7d']

end QuorumLog.Json
