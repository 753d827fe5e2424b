import QuorumLog.Toml.Moment
import QuorumLog.Toml.Number
import QuorumLog.Toml.Text
import QuorumLog.Toml.Value

/-! Reading a TOML document, and writing one of plain tables. A document is read statement by
statement: a header opens a table, and a key with a value adds to the table opened last. -/

namespace QuorumLog.Toml

/-- Whether a character only parts others on a line. -/
def isGap (c : Char) : Bool := c = ' ' ∨ c = '\t'

/-- Leaves out what only parts on a line. -/
def skipGap (cs : List Char) : List Char := cs.dropWhile isGap

/-- Leaves out gaps, line ends and comments. -/
def skipSpace (inComment : Bool) : List Char → Option (List Char)
  | [] => some []
  | '\n' :: rest => skipSpace false rest
  | '\r' :: '\n' :: rest => skipSpace false rest
  | c :: rest =>
    if inComment then (if Text.isPlain c then skipSpace true rest else none)
    else if c = '#' then skipSpace true rest
    else if isGap c then skipSpace false rest
    else some (c :: rest)

/-- Leaves out the rest of a line on which nothing but a comment may follow. -/
def skipLine (inComment : Bool) : List Char → Option (List Char)
  | [] => some []
  | '\n' :: rest => some rest
  | '\r' :: '\n' :: rest => some rest
  | c :: rest =>
    if inComment then (if Text.isPlain c then skipLine true rest else none)
    else if c = '#' then skipLine true rest
    else if isGap c then skipLine false rest
    else none

def expect (c : Char) : List Char → Option (List Char)
  | d :: rest => if d = c then some rest else none
  | [] => none

/-! ### Keys -/

/-- Whether a character may stand in a key without quotes. -/
def isBare (c : Char) : Bool :=
  ('a' ≤ c ∧ c ≤ 'z') ∨ ('A' ≤ c ∧ c ≤ 'Z') ∨ ('0' ≤ c ∧ c ≤ '9') ∨ c = '_' ∨ c = '-'

/-- Takes one part of a key. -/
def takePart (cs : List Char) : Option (String × List Char) :=
  match cs.takeWhile isBare with
  | [] => (Text.takeLine cs).map fun (text, rest) => (String.ofList text, rest)
  | word => some (String.ofList word, cs.dropWhile isBare)

/-- Takes a key of at most `fuel` parts between dots: the parts before the last, and the last. -/
def takeKey : (fuel : Nat) → List Char → Option ((List String × String) × List Char)
  | 0, _ => none
  | fuel + 1, cs => do
    let (part, cs) ← takePart cs
    match skipGap cs with
    | '.' :: rest =>
      let ((path, last), rest) ← takeKey fuel (skipGap rest)
      some ((part :: path, last), rest)
    | _ => some (([], part), cs)

/-! ### Values -/

/-- A reader of values, and what it leaves. -/
abbrev Reader := List Char → Option (Value × List Char)

/-- Whether a character may stand in a number, a date or a truth value. -/
def isWord (c : Char) : Bool := isBare c ∨ c = '+' ∨ c = '.' ∨ c = ':'

def ofWord? (word : List Char) : Option Value :=
  if word = "true".toList then some (.truth true)
  else if word = "false".toList then some (.truth false)
  else match Number.integer? word with
    | some n => some (.integer n)
    | none =>
      if Number.isReal word then some .real
      else if Moment.isMoment word then some .moment
      else none

/-- Takes a value without quotes and brackets. A date takes the time behind a blank with it. -/
def takeWord : Reader := fun cs =>
  let word := cs.takeWhile isWord
  match cs.dropWhile isWord with
  | ' ' :: c :: rest =>
    if Moment.takeDate word = some [] ∧ Number.isDecimal c then
      (ofWord? (word ++ ' ' :: (c :: rest).takeWhile isWord)).map (·, (c :: rest).dropWhile isWord)
    else (ofWord? word).map (·, ' ' :: c :: rest)
  | rest => (ofWord? word).map (·, rest)

/-- Takes at most `fuel` items of a list and its closing bracket. -/
def takeItems (item : Reader) : (fuel : Nat) → List Char → Option (List Value × List Char)
  | 0, _ => none
  | fuel + 1, cs => do
    match ← skipSpace false cs with
    | ']' :: rest => some ([], rest)
    | cs =>
      let (v, cs) ← item cs
      match ← skipSpace false cs with
      | ']' :: rest => some ([v], rest)
      | ',' :: rest =>
        let (vs, rest) ← takeItems item fuel rest
        some (v :: vs, rest)
      | _ => none

/-- Takes a key, an equals sign and a value. -/
def takeField (item : Reader) (cs : List Char) :
    Option (((List String × String) × Value) × List Char) := do
  let (key, cs) ← takeKey cs.length cs
  let cs ← expect '=' (skipGap cs)
  let (v, cs) ← item (skipGap cs)
  some ((key, v), cs)

/-- Takes at most `fuel` fields of a table in braces, and the closing brace. -/
def takeFields (item : Reader) : (fuel : Nat) → Fields → List Char → Option (Fields × List Char)
  | 0, _, _ => none
  | fuel + 1, fields, cs => do
    match ← skipSpace false cs with
    | '\x7d' :: rest => some (fields, rest)
    | cs =>
      let (((path, last), v), cs) ← takeField item cs
      let fields ← fields.addAt? path last v
      match ← skipSpace false cs with
      | '\x7d' :: rest => some (fields, rest)
      | ',' :: rest => takeFields item fuel fields rest
      | _ => none

/-- Takes a value with at most `depth` brackets around each other. -/
def takeValue : (depth : Nat) → Reader
  | 0 => fun _ => none
  | depth + 1 => fun cs =>
    match cs with
    | '"' :: _ | '\'' :: _ =>
      (Text.take cs).map fun (text, rest) => (.text (String.ofList text), rest)
    | '[' :: rest =>
      (takeItems (takeValue depth) cs.length rest).map fun (vs, rest) => (.array false vs, rest)
    | '\x7b' :: rest =>
      (takeFields (takeValue depth) cs.length [] rest).map fun (fields, rest) =>
        (.table .braces fields, rest)
    | cs => takeWord cs

/-- The deepest nesting of brackets that is read. -/
def maxDepth : Nat := 80

/-! ### Statements -/

/-- What was read so far. -/
structure Draft where
  root : Fields := []
  opened : List String := []

/-- Takes a header behind its brackets, and the closing ones. -/
def takeHeader (close : List Char → Option (List Char)) (cs : List Char) :
    Option ((List String × String) × List Char) := do
  let (key, cs) ← takeKey cs.length (skipGap cs)
  let cs ← close (skipGap cs)
  some (key, cs)

/-- Takes one statement, which starts here. -/
def takeStatement (draft : Draft) (cs : List Char) : Option (Draft × List Char) := do
  match cs with
  | '[' :: '[' :: rest =>
    let ((path, last), rest) ← takeHeader (fun cs => (expect ']' cs).bind (expect ']')) rest
    let root ← Fields.onPath? (Fields.openItem? last) path draft.root
    some (⟨root, path ++ [last]⟩, rest)
  | '[' :: rest =>
    let ((path, last), rest) ← takeHeader (expect ']') rest
    let root ← Fields.onPath? (Fields.openTable? last) path draft.root
    some (⟨root, path ++ [last]⟩, rest)
  | cs =>
    let (((path, last), v), rest) ← takeField (takeValue maxDepth) cs
    let root ← Fields.onPath? (Fields.addAt? path last v) draft.opened draft.root
    some ({ draft with root }, rest)

/-- Takes at most `fuel` statements, each on its line, up to the end. -/
def takeStatements : (fuel : Nat) → Draft → List Char → Option Fields
  | 0, _, _ => none
  | fuel + 1, draft, cs => do
    match ← skipSpace false cs with
    | [] => some draft.root
    | cs =>
      let (draft, cs) ← takeStatement draft cs
      takeStatements fuel draft (← skipLine false cs)

/-- The fields of a document. A byte order mark at its start means nothing. -/
def read? (text : String) : Option Fields :=
  let cs := match text.toList with
    | '\uFEFF' :: rest => rest
    | cs => cs
  takeStatements (cs.length + 1) {} cs

/-! ### Writing -/

/-- A value that fits on a line. -/
inductive Scalar where
  | text (content : String)
  | natural (n : Nat)
  | truth (b : Bool)
deriving DecidableEq, Repr

/-- A scalar as it is written. -/
def Scalar.render : Scalar → List Char
  | text content => Text.render content.toList
  | natural n => Decimal.digits n
  | truth b => (if b then "true" else "false").toList

/-- The lines of a table: its header and one line for each field. -/
def renderTable (name : String) (fields : List (String × Scalar)) : List Char :=
  '[' :: name.toList ++ [']', '\n'] ++
    fields.flatMap fun (key, v) => key.toList ++ " = ".toList ++ v.render ++ ['\n']

/-- A document of tables, with an empty line between them. -/
def render (tables : List (String × List (String × Scalar))) : String :=
  String.ofList (['\n'].intercalate (tables.map fun (name, fields) => renderTable name fields))

end QuorumLog.Toml
