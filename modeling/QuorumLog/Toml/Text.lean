/-! Texts in a TOML document. There are four forms: between double quotes, where a backslash starts
an escape, and between single quotes, where nothing does, each of them on one line or between tripled
quotes on several. Reading takes a text off the front behind its opening quotes; writing uses the
plainest form that can hold the text. -/

namespace QuorumLog.Toml

/-- A text that was read, and what follows it. -/
abbrev Taken := Option (List Char × List Char)

/-- Puts a character in front of a text that was read. -/
def Taken.push (c : Char) (t : Taken) : Taken := t.map fun (text, rest) => (c :: text, rest)

namespace Text

/-- Whether a character may stand in a text as it is; of the controls only the tab may. -/
def isPlain (c : Char) : Bool := c = '\t' ∨ (' ' ≤ c ∧ c ≠ '\x7f')

def hexDigit? (c : Char) : Option Nat :=
  if '0' ≤ c ∧ c ≤ '9' then some (c.toNat - 48)
  else if 'a' ≤ c ∧ c ≤ 'f' then some (c.toNat - 87)
  else if 'A' ≤ c ∧ c ≤ 'F' then some (c.toNat - 55)
  else none

/-- The character with a hexadecimal number. -/
def scalar? (digits : List Char) : Option Char := do
  let n ← digits.foldlM (fun n c => (hexDigit? c).map (16 * n + ·)) 0
  if n < 0xD800 ∨ (0xE000 ≤ n ∧ n < 0x110000) then some (Char.ofNat n) else none

def escapes : List (Char × Char) :=
  [('b', '\x08'), ('t', '\t'), ('n', '\n'), ('f', '\x0c'), ('r', '\r'), ('e', '\x1b'), ('"', '"'),
    ('\\', '\\')]

/-- Takes a text between double quotes. -/
def takeBasic : List Char → Taken
  | [] => none
  | '"' :: rest => some ([], rest)
  | '\\' :: 'x' :: a :: b :: rest => (scalar? [a, b]).bind fun c => (takeBasic rest).push c
  | '\\' :: 'u' :: a :: b :: c :: d :: rest =>
    (scalar? [a, b, c, d]).bind fun c => (takeBasic rest).push c
  | '\\' :: 'U' :: a :: b :: c :: d :: e :: f :: g :: h :: rest =>
    (scalar? [a, b, c, d, e, f, g, h]).bind fun c => (takeBasic rest).push c
  | '\\' :: c :: rest => (escapes.lookup c).bind fun c => (takeBasic rest).push c
  | c :: rest => if isPlain c ∧ c ≠ '\\' then (takeBasic rest).push c else none

/-- Takes a text between single quotes. -/
def takeLiteral : List Char → Taken
  | [] => none
  | '\'' :: rest => some ([], rest)
  | c :: rest => if isPlain c then (takeLiteral rest).push c else none

/-- Where a text on several lines is: in the text, behind a backslash that has to end its line, or in
the blanks and line ends that such a backslash swallows. -/
inductive Fold where
  /-- In the text. -/
  | none
  /-- On the line of the backslash. -/
  | pending
  /-- On a later line. -/
  | open
deriving DecidableEq, Repr

/-- Takes a text between tripled double quotes. Up to two quotes may stand before the closing
ones. -/
def takeBasicLines (fold : Fold) : List Char → Taken
  | [] => none
  | '"' :: '"' :: '"' :: '"' :: '"' :: rest =>
    if fold = .pending then none else some (['"', '"'], rest)
  | '"' :: '"' :: '"' :: '"' :: rest => if fold = .pending then none else some (['"'], rest)
  | '"' :: '"' :: '"' :: rest => if fold = .pending then none else some ([], rest)
  | '\r' :: '\n' :: rest =>
    if fold = .none then ((takeBasicLines .none rest).push '\n').push '\r'
    else takeBasicLines .open rest
  | '\n' :: rest =>
    if fold = .none then (takeBasicLines .none rest).push '\n' else takeBasicLines .open rest
  | '\\' :: 'x' :: a :: b :: rest =>
    if fold = .pending then none
    else (scalar? [a, b]).bind fun c => (takeBasicLines .none rest).push c
  | '\\' :: 'u' :: a :: b :: c :: d :: rest =>
    if fold = .pending then none
    else (scalar? [a, b, c, d]).bind fun c => (takeBasicLines .none rest).push c
  | '\\' :: 'U' :: a :: b :: c :: d :: e :: f :: g :: h :: rest =>
    if fold = .pending then none
    else (scalar? [a, b, c, d, e, f, g, h]).bind fun c => (takeBasicLines .none rest).push c
  | '\\' :: '\r' :: '\n' :: rest => if fold = .pending then none else takeBasicLines .open rest
  | '\\' :: c :: rest =>
    if fold = .pending then none
    else if c = '\n' then takeBasicLines .open rest
    else if c = ' ' ∨ c = '\t' then takeBasicLines .pending rest
    else (escapes.lookup c).bind fun c => (takeBasicLines .none rest).push c
  | c :: rest =>
    if fold ≠ .none ∧ (c = ' ' ∨ c = '\t') then takeBasicLines fold rest
    else if fold ≠ .pending ∧ isPlain c ∧ c ≠ '\\' then (takeBasicLines .none rest).push c
    else none

/-- Takes a text between tripled single quotes. Up to two quotes may stand before the closing
ones. -/
def takeLiteralLines : List Char → Taken
  | [] => none
  | '\'' :: '\'' :: '\'' :: '\'' :: '\'' :: rest => some (['\'', '\''], rest)
  | '\'' :: '\'' :: '\'' :: '\'' :: rest => some (['\''], rest)
  | '\'' :: '\'' :: '\'' :: rest => some ([], rest)
  | '\r' :: '\n' :: rest => ((takeLiteralLines rest).push '\n').push '\r'
  | '\n' :: rest => (takeLiteralLines rest).push '\n'
  | c :: rest => if isPlain c then (takeLiteralLines rest).push c else none

/-- Leaves out the line end right behind the opening quotes. -/
def dropLineEnd : List Char → List Char
  | '\r' :: '\n' :: rest => rest
  | '\n' :: rest => rest
  | cs => cs

/-- Takes a text on one line, such as may stand for a key. -/
def takeLine : List Char → Taken
  | '"' :: rest => takeBasic rest
  | '\'' :: rest => takeLiteral rest
  | _ => none

/-- Takes a text of any form. -/
def take : List Char → Taken
  | '"' :: '"' :: '"' :: rest => takeBasicLines .none (dropLineEnd rest)
  | '\'' :: '\'' :: '\'' :: rest => takeLiteralLines (dropLineEnd rest)
  | cs => takeLine cs

/-- The forms of a text. -/
inductive Form where
  | basic
  | literal
  | basicLines
  | literalLines
deriving DecidableEq, Repr

/-- Whether a character needs an escape wherever escapes are possible: the controls but for the tab
and the line end. -/
def needsCode (c : Char) : Bool := (c < ' ' ∧ c ≠ '\t' ∧ c ≠ '\n') ∨ c = '\x7f'

def longestRun (quote : Char) (cs : List Char) : Nat :=
  (cs.foldl (fun (best, current) c =>
    if c = quote then (max best (current + 1), current + 1) else (best, 0)) (0, 0)).1

/-- The form in which a text is written: the first that can show it as it is, else one with
escapes. -/
def form (cs : List Char) : Form :=
  let coded := cs.any needsCode
  let escaped := cs.contains '\\'
  let lines := cs.contains '\n'
  let double := longestRun '"' cs
  let single := longestRun '\'' cs
  if !coded ∧ !escaped ∧ double = 0 ∧ !lines then .basic
  else if !coded ∧ single = 0 ∧ !lines then .literal
  else if !coded ∧ !escaped ∧ double ≤ 2 then .basicLines
  else if !coded ∧ single ≤ 2 then .literalLines
  else if lines then .basicLines
  else .basic

def hexDigit (n : Nat) : Char := if n < 10 then Char.ofNat (48 + n) else Char.ofNat (55 + n)

/-- The escape of a character below 256. -/
def code (c : Char) : List Char :=
  ['\\', 'u', '0', '0', hexDigit (c.toNat / 16), hexDigit (c.toNat % 16)]

/-- The written form of a character for which quotes are no matter. -/
def escape (lines : Bool) (c : Char) : List Char :=
  match c with
  | '\x08' => ['\\', 'b']
  | '\t' => ['\\', 't']
  | '\n' => if lines then ['\n'] else ['\\', 'n']
  | '\x0c' => ['\\', 'f']
  | '\r' => ['\\', 'r']
  | '\\' => ['\\', '\\']
  | c => if needsCode c then code c else [c]

/-- The written form of a text in which at most `limit` double quotes may follow each other, `run` of
which were just written. -/
def escapeAll (lines : Bool) (limit : Nat) : (run : Nat) → List Char → List Char
  | _, [] => []
  | run, '"' :: rest =>
    if run < limit then '"' :: escapeAll lines limit (run + 1) rest
    else '\\' :: '"' :: escapeAll lines limit 0 rest
  | _, c :: rest => escape lines c ++ escapeAll lines limit 0 rest

/-- The text with its quotes. A text of several lines starts on a line of its own. -/
def render (cs : List Char) : List Char :=
  let start := if cs.contains '\n' then ['\n'] else []
  match form cs with
  | .basic => ['"'] ++ escapeAll false 0 0 cs ++ ['"']
  | .literal => ['\''] ++ cs ++ ['\'']
  | .basicLines => ['"', '"', '"'] ++ start ++ escapeAll true 2 0 cs ++ ['"', '"', '"']
  | .literalLines => ['\'', '\'', '\''] ++ start ++ cs ++ ['\'', '\'', '\'']

end Text

end QuorumLog.Toml
