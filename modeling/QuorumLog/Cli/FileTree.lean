import QuorumLog.Cli.Program
import QuorumLog.Text.Path

/-! A host of which all files are known beforehand, so that a run of the program is a function of
them. -/

namespace QuorumLog

/-- The files of a host, by the names that lead to them. -/
structure FileTree where
  home : List String
  /-- The files outside the directories of logs. -/
  files : List (List String × Bytes)
  logs : List (List String × Directory) := []

namespace FileTree

/-- Whether a place is a directory, because it is known or on the way to something known. -/
def isFolder (t : FileTree) (place : List String) : Bool :=
  place.isPrefixOf t.home || t.files.any (fun f => place.isPrefixOf f.1 && place ≠ f.1)
    || t.logs.any (fun l => place.isPrefixOf l.1)

def settingsAt (t : FileTree) (path : String) : SettingsFile :=
  let place := Path.resolve t.home path
  match t.files.lookup place with
  | some content => .content content
  | none => if t.isFolder place then .unreadable else .absent

def filesIn (t : FileTree) (place : List String) : List (String × FileNode) :=
  t.files.filterMap fun (names, content) =>
    if names.dropLast = place then names.getLast?.map fun name => (name, .file content) else none

/-- The directory at a path. An empty path leads nowhere, and a file holds no directory. -/
def directoryAt (t : FileTree) (path : String) : Option Directory :=
  let place := Path.resolve t.home path
  if path = "" ∨ t.files.any (·.1.isPrefixOf place) then none
  else some ⟨((t.logs.lookup place).getD {}).nodes ++ t.filesIn place⟩

def host (t : FileTree) (bind : SocketAddress → Except Nat SocketAddress) : Host Id where
  settingsAt := t.settingsAt
  directoryAt := t.directoryAt
  bind := bind

/-- The tree after a job left its log behind. -/
def leave (t : FileTree) (o : Outcome) : FileTree :=
  { t with logs := (Path.resolve t.home o.log.settings.path, o.log.directory) :: t.logs }

end FileTree

end QuorumLog
