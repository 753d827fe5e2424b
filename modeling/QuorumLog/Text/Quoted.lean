/-! Texts between double quotes, for messages. A quote and a backslash are written behind a
backslash, and a character that cannot be seen by itself is written by name or number. -/

namespace QuorumLog.Quoted

/-- Whether a character has no shape of its own: it is a control, joins to the character before it,
only directs the layout, or is left to private use. -/
def isUnseen (c : Char) : Bool :=
  let n := c.toNat
  n < 0x20 || (0x7F ≤ n && n < 0xA0) || n == 0xAD || (0x300 ≤ n && n < 0x370)
    || (0x200B ≤ n && n < 0x2010) || (0x2028 ≤ n && n < 0x202F) || (0x2060 ≤ n && n < 0x2070)
    || (0xE000 ≤ n && n < 0xF900) || (0xFE00 ≤ n && n < 0xFE10) || n == 0xFEFF
    || (0xFFF0 ≤ n && n < 0xFFFC) || 0xE0000 ≤ n

def escape (c : Char) : List Char :=
  match c with
  | '"' => ['\\', '"']
  | '\\' => ['\\', '\\']
  | '\n' => ['\\', 'n']
  | '\r' => ['\\', 'r']
  | '\t' => ['\\', 't']
  | '\x00' => ['\\', '0']
  | c =>
    if isUnseen c then ['\\', 'u', Char.ofNat 0x7B] ++ Nat.toDigits 16 c.toNat ++ [Char.ofNat 0x7D]
    else [c]

def render (text : String) : String :=
  String.ofList ('"' :: text.toList.flatMap escape ++ ['"'])

end QuorumLog.Quoted
