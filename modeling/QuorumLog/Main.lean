import QuorumLog.Cli.Program

/-! The program on a real host: files, lines of input and output, and nothing decided here. It has no
network; whoever wants nodes to talk carries the messages of a `Channel`. So a master here stores what
it is given, and a replica never reaches its master. -/

namespace QuorumLog

def readSettings (path : String) : IO SettingsFile := do
  try
    return .content (← IO.FS.readBinFile path).data.toList
  catch fault =>
    match fault with
    | .noFileOrDirectory .. => return .absent
    | _ => return .unreadable

def readDirectory (path : String) : IO (Option Directory) := do
  try
    IO.FS.createDirAll path
    let place ← IO.FS.realPath path
    let nodes ← (← place.readDir).toList.filterMapM fun entry => do
      match (← entry.path.metadata).type with
      | .dir => return some (entry.fileName, FileNode.folder)
      | .file =>
        return some (entry.fileName, .file (← IO.FS.readBinFile entry.path).data.toList)
      | _ => return none
    return some ⟨nodes⟩
  catch _ => return none

def appendToFile (path : String) (bytes : Bytes) : IO Unit := do
  let handle ← IO.FS.Handle.mk path .append
  handle.write ⟨bytes.toArray⟩

/-- Brings the directory at a path from one state to another. -/
def writeDirectory (path : String) (before after : Directory) : IO Unit := do
  for (name, node) in after.nodes do
    let file := s!"{path}/{name}"
    match before.get? name, node with
    | some (.file old), .file new =>
      if old.isPrefixOf new then
        if old.length < new.length then appendToFile file (new.drop old.length)
      else IO.FS.writeBinFile file ⟨new.toArray⟩
    | none, .file new => IO.FS.writeBinFile file ⟨new.toArray⟩
    | _, _ => pure ()
  for (name, _) in before.nodes do
    if (after.get? name).isNone then IO.FS.removeFile s!"{path}/{name}"

/-- Brings the files of a log up to date. -/
def keep (before after : SegmentLog) : IO Unit :=
  writeDirectory after.settings.path before.directory after.directory

def drawName : IO String := do
  let words ← (List.range 4).mapM fun _ => IO.rand 0 0xFFFFFFFF
  return "-".intercalate (words.map fun word => String.ofList (Nat.toDigits 16 word))

/-- Reads bytes up to the end of a line, or of the input. -/
partial def readLine (input : IO.FS.Stream) (line : ByteArray) : IO ByteArray := do
  let next ← input.read 1
  if next.isEmpty then return line
  if next.data.contains Lines.lineFeed then return line ++ next
  readLine input (line ++ next)

/-- Hands every line of the input to a master, until there is no more or one is no text. -/
partial def runMaster (input : IO.FS.Stream) (m : Master SegmentLog) : IO (Option Failure) := do
  let line ← readLine input .empty
  if line.isEmpty then return none
  match m.takeLines (Lines.ofInput line.data.toList) with
  | (_, some failure) => return some failure
  | (after, none) =>
    keep m.log after.log
    runMaster input after

/-- The error number of a network that cannot be reached. -/
def networkUnreachable : Nat := 101

/-- Makes the attempts of a replica, none of which reaches a master. -/
partial def runReplica (r : Replica SegmentLog) : IO (Option Failure) := do
  match r.dial.1.attemptEnded (.error (.io (.system networkUnreachable))) with
  | (r, .retry wait) =>
    IO.sleep wait.millis.toUInt32
    runReplica r.waited.1
  | (r, .finished (.error fault)) => return some (.replica r.settings.nodeId fault)
  | (_, .finished (.ok ())) => return none

/-- Cuts the files of a log where opening it cut them. -/
def keepOpened (log : SegmentLog) : IO Unit := do
  let found ← readDirectory log.settings.path
  writeDirectory log.settings.path (found.getD log.directory) log.directory

/-- Does a job until it is done. -/
def Job.perform : Job → IO (Option Failure)
  | dump log => do
    let (lines, failure) := log.describe
    lines.forM IO.println
    return failure
  | master m => do runMaster (← IO.getStdin) m
  | replica r => runReplica r

def usageText : String :=
  "usage: quorum-log [--config FILE] [--verbose] [--stats-interval SECONDS] COMMAND\n"
    ++ "  master  [--bind ADDRESS] [--replicas COUNT] [--token TEXT] [--data-dir DIR]\n"
    ++ "  replica [--master ADDRESS] [--node-id ID] [--token TEXT] [--data-dir DIR]\n"
    ++ "  dump    [--data-dir DIR]"

/-- Tells why the program ends. -/
def Failure.tell (failure : Failure) : IO Unit :=
  match failure with
  | usage .help => IO.println usageText
  | usage .wrong => IO.eprintln usageText
  | failure => IO.eprintln ("Error: " ++ failure.message?.getD "")

def readEnvironment : IO Environment := do
  let names := "REPLOG_CONFIG" :: Variable.all.map (·.name)
  let found ← names.filterMapM fun name => return (← IO.getEnv name).map (name, ·)
  return fun name => found.lookup name

/-- The host, which listens nowhere but says that it does. -/
def realHost : Host IO where
  settingsAt := readSettings
  directoryAt := readDirectory
  bind a := return .ok a

def runProgram (arguments : List String) : IO UInt32 := do
  let job ← Job.ofArguments realHost (← readEnvironment) (← drawName) arguments
  let failure ← match job with
    | .error failure => pure (some failure)
    | .ok job => do
      keepOpened job.log
      job.perform
  failure.forM Failure.tell
  return UInt32.ofNat ((failure.map Failure.code).getD 0)

end QuorumLog

/-- Runs the command line. -/
def main (arguments : List String) : IO UInt32 := QuorumLog.runProgram arguments
