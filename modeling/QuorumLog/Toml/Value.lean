import QuorumLog.Format.LittleEndian

/-! The values of a TOML document. A document is a table that grows statement by statement, and what
may still be added to a table depends on how it came about: a table behind a header is complete but
for its own statements, one that was only passed through on the way to a deeper header may get a
header of its own, one made by a dotted key takes more dotted keys, and one in braces takes
nothing. -/

namespace QuorumLog.Toml

/-- How a table came about. -/
inductive Origin where
  | header
  /-- On the way to a deeper header. -/
  | passed
  | dotted
  /-- In braces, all at once. -/
  | braces
deriving DecidableEq, Repr

/-- A value. Of real numbers and points in time only the kind is kept. -/
inductive Value where
  | text (content : String)
  | integer (n : Int)
  | real
  | truth (b : Bool)
  | moment
  /-- A list; one made by headers grows with each of them. -/
  | array (growing : Bool) (items : List Value)
  /-- A table with the fields in the order in which they were given. -/
  | table (origin : Origin) (fields : List (String × Value))
deriving Repr

abbrev Fields := List (String × Value)

namespace Fields

/-- Puts a value in the place of the one that a key has, or at the end. -/
def set (key : String) (v : Value) : Fields → Fields
  | [] => [(key, v)]
  | (other, old) :: rest =>
    if other = key then (key, v) :: rest else (other, old) :: set key v rest

def add? (key : String) (v : Value) (fields : Fields) : Option Fields :=
  if (fields.lookup key).isSome then none else some (fields ++ [(key, v)])

/-- Changes the last item of a list if it is a table. -/
def onLastTable (f : Fields → Option Fields) (items : List Value) : Option (List Value) :=
  match items.getLast? with
  | some (.table origin fields) =>
    (f fields).map fun fields => items.dropLast ++ [.table origin fields]
  | _ => none

/-- Adds a value under a dotted key. Every part but the last names a table; a table that is there
takes the rest of the key unless it has a header of its own or stands in braces, and the value goes
only to a table that a dotted key made. -/
def addDotted? (last : String) (v : Value) : (path : List String) → (inDotted : Bool) →
    Fields → Option Fields
  | [], inDotted, fields => if inDotted then add? last v fields else none
  | key :: path, _, fields =>
    match fields.lookup key with
    | none => (addDotted? last v path true []).map fun sub => set key (.table .dotted sub) fields
    | some (.table .dotted sub) =>
      (addDotted? last v path true sub).map fun sub => set key (.table .dotted sub) fields
    | some (.table .passed sub) =>
      (addDotted? last v path false sub).map fun sub => set key (.table .passed sub) fields
    | some (.array true items) =>
      (onLastTable (addDotted? last v path false) items).map fun items =>
        set key (.array true items) fields
    | _ => none

/-- Adds a value under a key of one or more parts. -/
def addAt? (path : List String) (last : String) (v : Value) (fields : Fields) : Option Fields :=
  if path.isEmpty then add? last v fields else addDotted? last v path false fields

/-- Changes the fields behind a path of headers; a table that is missing on the way is made, and a
growing list stands for its last table. -/
def onPath? (f : Fields → Option Fields) : (path : List String) → Fields → Option Fields
  | [], fields => f fields
  | key :: path, fields =>
    match fields.lookup key with
    | none => (onPath? f path []).map fun sub => set key (.table .passed sub) fields
    | some (.table .braces _) => none
    | some (.table origin sub) =>
      (onPath? f path sub).map fun sub => set key (.table origin sub) fields
    | some (.array true items) =>
      (onLastTable (onPath? f path) items).map fun items => set key (.array true items) fields
    | _ => none

/-- Opens the table of a header. A table that was passed through before becomes complete; any other
value of that name stands in the way. -/
def openTable? (key : String) (fields : Fields) : Option Fields :=
  match fields.lookup key with
  | none => some (fields ++ [(key, .table .header [])])
  | some (.table .passed sub) => some (set key (.table .header sub) fields)
  | _ => none

/-- Opens a new table at the end of the list of a doubled header. -/
def openItem? (key : String) (fields : Fields) : Option Fields :=
  match fields.lookup key with
  | none => some (fields ++ [(key, .array true [.table .header []])])
  | some (.array true items) =>
    some (set key (.array true (items ++ [.table .header []])) fields)
  | _ => none

end Fields

end QuorumLog.Toml
