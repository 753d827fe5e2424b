import QuorumLog.Log.Directory

/-! Changes to one name of a directory, made by this program or by anyone else. A file that is open
for appending follows its name when it is renamed and loses it when it is deleted or replaced. -/

namespace QuorumLog

/-- What is done to a name. -/
inductive Change where
  /-- Makes a file of these bytes, in place of the bytes it had. -/
  | create (content : Bytes)
  | append (content : Bytes)
  /-- Puts bytes over those at a position. -/
  | write (position : Nat) (content : Bytes)
  /-- Cuts a file to a length, or fills it up. -/
  | truncate (length : Nat)
  | delete
  | makeFolder
  | rename (target : String)
  | link (target : String)
deriving DecidableEq, Repr

namespace Change

/-- The bytes with others put over those at a position. If there are no others, nothing changes, not
even behind the end. -/
def overwritten (position : Nat) (content old : Bytes) : Bytes :=
  if content.isEmpty then old
  else
    Directory.fitted position (old.take position) ++ content
      ++ old.drop (position + content.length)

/-- Changes the file behind a name, which is made if `create` says so. The device answers with an
error number of its own, or with none if it was asked for nothing. -/
def onFile (d : Directory) (name : String) (create : Bool) (device : Option Nat)
    (f : Bytes → Bytes) : Except Nat Directory :=
  match d.follow name with
  | .file name _ => .ok (d.modifyFile f name)
  | .vacant name => if create then .ok (d.put name (.file (f []))) else .error missing
  | .folder => .error isFolder
  | .fullDevice =>
    match device with
    | none => .ok d
    | some number => .error number
  | .nowhere number => .error number

/-- The device takes no byte. -/
def refusal (content : Bytes) : Option Nat := if content.isEmpty then none else some noSpace

/-- Puts a node in place of what a name stands for. A directory takes the place of a directory
alone. -/
def replace (d : Directory) (name : String) (node : FileNode) : Except Nat Directory :=
  match node, d.get? name with
  | .folder, some (.file _) | .folder, some (.link _) => .error notFolder
  | .file _, some .folder | .link _, some .folder => .error isFolder
  | _, _ => .ok (d.put name node)

/-- Makes a node where there is none. -/
def make (d : Directory) (name : String) (node : FileNode) : Except Nat Directory :=
  if (d.get? name).isSome then .error nameTaken else .ok (d.put name node)

/-- The directory after the change of a name, or why it fails. -/
def apply (change : Change) (name : String) (d : Directory) : Except Nat Directory :=
  match change with
  | .create content => onFile d name true (refusal content) fun _ => content
  | .append content => onFile d name true (refusal content) (· ++ content)
  | .write position content =>
    onFile d name false (refusal content) (overwritten position content)
  | .truncate length => onFile d name false (some senseless) (Directory.fitted length)
  | .delete =>
    match d.get? name with
    | none => .error missing
    | some .folder => .error isFolder
    | some _ => .ok (d.erase name)
  | .makeFolder => make d name .folder
  | .rename target =>
    match d.get? name with
    | none => .error missing
    | some node => replace (d.erase name) target node
  | .link target => make d name (.link target)

/-- Where a file that is open for appending is after the change of a name. -/
def follow (change : Change) (name : String) : Handle → Handle
  | .file current =>
    match change with
    | .delete => if current = name then .nameless else .file current
    | .rename target =>
      if current = name then .file target
      else if current = target then .nameless
      else .file current
    | _ => .file current
  | handle => handle

end Change

end QuorumLog
