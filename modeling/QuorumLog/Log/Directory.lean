import QuorumLog.Format.LittleEndian

/-! A directory of files, and the calls on it. A name may lead on to another name, or to the device
that is always full: it takes no byte and gives zeros without end. A handle stays with its file when
the file is renamed or deleted. Calls fail with the error number of the system. -/

namespace QuorumLog

/-- What a name stands for. -/
inductive FileNode where
  | file (content : Bytes)
  | folder
  | link (target : String)
deriving DecidableEq, Repr

/-- The names in a directory, none of them twice. -/
structure Directory where
  nodes : List (String × FileNode) := []
deriving DecidableEq, Repr

/-- Where a name leads in the end. -/
inductive Place where
  | file (name : String) (content : Bytes)
  /-- To a name that is free. -/
  | vacant (name : String)
  | folder
  | fullDevice
  /-- To nothing that could be opened, with the error number for trying. -/
  | nowhere (number : Nat)
deriving DecidableEq, Repr

/-- A file that is open for appending. -/
inductive Handle where
  | file (name : String)
  /-- A file that no name leads to any more. -/
  | nameless
  | fullDevice
deriving DecidableEq, Repr

/-- The error numbers of the system that are told apart. -/
def missing : Nat := 2
def nameTaken : Nat := 17
def notFolder : Nat := 20
def isFolder : Nat := 21
/-- The call makes no sense for what the name stands for. -/
def senseless : Nat := 22
def noSpace : Nat := 28
def linkLoop : Nat := 40

namespace Directory

instance : Inhabited Directory := ⟨{}⟩

def get? (d : Directory) (name : String) : Option FileNode := d.nodes.lookup name

/-- Puts a node in the place of one in a list. -/
def putNode (name : String) (node : FileNode) : List (String × FileNode) → List (String × FileNode)
  | [] => [(name, node)]
  | (other, old) :: rest =>
    if other = name then (name, node) :: rest else (other, old) :: putNode name node rest

def put (d : Directory) (name : String) (node : FileNode) : Directory := ⟨putNode name node d.nodes⟩

def erase (d : Directory) (name : String) : Directory := ⟨d.nodes.filter (·.1 ≠ name)⟩

def names (d : Directory) : List String := d.nodes.map (·.1)

/-- Follows at most so many names. -/
def followFor (d : Directory) : Nat → String → Place
  | 0, _ => .nowhere linkLoop
  | fuel + 1, name =>
    match d.get? name with
    | none => .vacant name
    | some (.file content) => .file name content
    | some .folder => .folder
    | some (.link target) =>
      if target = "/dev/full" then .fullDevice
      else if target.toList.contains '/' then .nowhere missing
      else d.followFor fuel target

/-- Where a name leads. -/
def follow (d : Directory) (name : String) : Place := d.followFor 41 name

/-- What the full device gives. No one looks at more of it than the header of a record, for zeros
are no record. -/
def zeros : Bytes := List.replicate 17 0

/-- The bytes behind a name from a position on. -/
def read (d : Directory) (name : String) (position : Nat) : Except Nat Bytes :=
  match d.follow name with
  | .file _ content => .ok (content.drop position)
  | .fullDevice => .ok zeros
  | .folder => .error isFolder
  | .vacant _ => .error missing
  | .nowhere number => .error number

/-- The length of what is behind a name; the device has none. -/
def length (d : Directory) (name : String) : Nat :=
  match d.follow name with
  | .file _ content => content.length
  | _ => 0

/-- Opens the file behind a name for appending, and makes it if `create` says so. -/
def openAppend (d : Directory) (create : Bool) (name : String) : Except Nat (Directory × Handle) :=
  match d.follow name with
  | .file name _ => .ok (d, .file name)
  | .fullDevice => .ok (d, .fullDevice)
  | .folder => .error isFolder
  | .vacant name => if create then .ok (d.put name (.file []), .file name) else .error missing
  | .nowhere number => .error number

/-- The bytes cut to a length, or filled up to it with zeros. -/
def fitted (length : Nat) (content : Bytes) : Bytes :=
  content.take length ++ List.replicate (length - content.length) 0

/-- Changes the bytes of the file that has a name. -/
def modifyFile (d : Directory) (f : Bytes → Bytes) (name : String) : Directory :=
  match d.get? name with
  | some (.file content) => d.put name (.file (f content))
  | _ => d

/-- Changes the bytes behind a handle; no one sees those of a file without a name. -/
def modifyOpen (d : Directory) (f : Bytes → Bytes) : Handle → Directory
  | .file name => d.modifyFile f name
  | .nameless | .fullDevice => d

/-- Cuts the file behind a name, or fills it up. -/
def resize (d : Directory) (name : String) (length : Nat) : Directory :=
  match d.follow name with
  | .file name _ => d.modifyFile (fitted length) name
  | _ => d

end Directory

end QuorumLog
