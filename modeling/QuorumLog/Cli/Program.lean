import QuorumLog.Channel
import QuorumLog.Cli.Arguments
import QuorumLog.Log.Cursor
import QuorumLog.Log.Segmented
import QuorumLog.Replica.Supervisor
import QuorumLog.Text.Json
import QuorumLog.Text.Lines

/-! What becomes of a command line: settings are gathered, the log is opened, and a node or a dump of
the log begins. Everything before that can fail, and the first failure is the one that is told. The
host answers what the program asks about its surroundings, one question after the other. -/

namespace QuorumLog

/-- What a host answers. -/
structure Host (M : Type → Type) where
  settingsAt : String → M SettingsFile
  /-- The directory at a path, made if it was missing, or nothing if it cannot be had. -/
  directoryAt : String → M (Option Directory)
  /-- Where the host listens when asked to listen at an address, or the error number. -/
  bind : SocketAddress → M (Except Nat SocketAddress)

/-- Why the program ends early. -/
inductive Failure where
  | usage (usage : Usage)
  | settings (fault : SourceFault)
  | log (path : String)
  | line
  | work (fault : Fault)
  | replica (id : String) (fault : Fault)
deriving DecidableEq, Repr

namespace Failure

/-- The code with which the program ends. -/
def code : Failure → Nat
  | usage .help => 0
  | usage .wrong => 2
  | _ => 1

/-- What is told about it; wrong usage is answered by a text of its own. -/
def message? : Failure → Option String
  | usage _ => none
  | settings fault => some fault.message
  | log path => some ("Failed to open log at " ++ Quoted.render path)
  | line => some "invalid utf-8"
  | work fault => some fault.message
  | replica id fault => some s!"Replica {id} failed: {fault.message}"

end Failure

/-- What the program does once it was set up. -/
inductive Job where
  | dump (log : SegmentLog)
  | master (m : Master SegmentLog)
  | replica (r : Replica SegmentLog)

namespace Job

def log : Job → SegmentLog
  | dump log => log
  | master m => m.log
  | replica r => r.log

variable {M : Type → Type} [Monad M]

/-- The settings of a command line: those of the command, over the environment, over the file. -/
def settings (host : Host M) (environment : Environment) (nodeId : String) (a : Arguments) :
    M (Except SourceFault NodeSettings) := do
  let path := a.settingsPath.getD ""
  let file ← if a.settingsPath.isSome then host.settingsAt path else pure .absent
  return (NodeSettings.load nodeId path file environment).map a.command.override

def openLog (host : Host M) (s : StoreSettings) : M (Except Failure SegmentLog) := do
  match ← host.directoryAt s.path with
  | none => return .error (.log s.path)
  | some d =>
    match SegmentLog.recover s d with
    | .error _ => return .error (.log s.path)
    | .ok log => return .ok log

def startMaster (host : Host M) (s : Settings) (log : SegmentLog) : M (Except Failure Job) := do
  match Master.create s log with
  | .error fault => return .error (.work fault)
  | .ok m =>
    match m.start (← host.bind s.bindAddress) with
    | (_, .error fault) => return .error (.work fault)
    | (m, .ok _) => return .ok (.master m)

def startReplica (s : Settings) (log : SegmentLog) : Except Failure Job :=
  match Replica.create s log with
  | .error fault => .error (.work fault)
  | .ok r => .ok (.replica r.run.1)

/-- Begins what a command asks for, with these settings. -/
def begin (host : Host M) (command : Command) (s : NodeSettings) : M (Except Failure Job) := do
  match ← openLog host s.store with
  | .error failure => return .error failure
  | .ok log =>
    match command with
    | .master .. => startMaster host s.replication log
    | .replica .. => return startReplica s.replication log
    | .dump .. => return .ok (.dump log)

/-- Sets up the job that a command line asks for (`async_main`). A node without a name draws
`nodeId`. -/
def ofArguments (host : Host M) (environment : Environment) (nodeId : String)
    (arguments : List String) : M (Except Failure Job) := do
  match Cli.parse environment arguments with
  | .error usage => return .error (.usage usage)
  | .ok a =>
    match ← settings host environment nodeId a with
    | .error fault => return .error (.settings fault)
    | .ok s => begin host a.command s

end Job

/-- Takes a line of the input as a write; an empty line is none. -/
def Master.takeLine (m : Master SegmentLog) (line : Bytes) :
    Except Failure (Master SegmentLog) :=
  if (Utf8.decode? line).isNone then .error .line
  else if line.isEmpty then .ok m
  else .ok (m.append line none).1

/-- Takes lines up to the first that is no text. -/
def Master.takeLines (m : Master SegmentLog) : List Bytes → Master SegmentLog × Option Failure
  | [] => (m, none)
  | line :: later =>
    match m.takeLine line with
    | .error failure => (m, some failure)
    | .ok m => m.takeLines later

def Entry.describe (e : Entry) : String :=
  Json.record
    [("metadata", Json.quotedOrNull (e.metadata.map Utf8.decodeLossy)),
      ("offset", Decimal.digits e.offset), ("payload", Json.quoted (Utf8.decodeLossy e.payload))]

/-- The lines that show all retained entries, up to the first that cannot be read (`dump`). -/
def SegmentLog.describe (log : SegmentLog) : List String × Option Failure :=
  let items := ((Cursor.start log.oldest Cursor.usualPage).drain log).2
  (items.filterMap fun item => (item.map Entry.describe).toOption,
    items.findSome? fun item =>
      match item with
      | .ok _ => none
      | .error fault => some (.work fault))

/-- What a job came to. -/
structure Outcome where
  log : SegmentLog
  lines : List String := []
  failure : Option Failure := none

/-- Runs a job until it is done, or until someone ends it because nothing is left to do: a master
when its input is over, a replica when it holds what its master has (`run_master`, `run_replica`).
Nothing ends a replica that reaches no master, or one that has to try again and again. -/
def Job.run {L : Type} [LocalLog L] (job : Job) (input : Bytes)
    (master : Option (Master L × SocketAddress)) : Option Outcome :=
  match job with
  | dump log => some { log, lines := log.describe.1, failure := log.describe.2 }
  | .master m =>
    let (m, failure) := m.takeLines (Lines.ofInput input)
    some { log := m.log, failure }
  | replica r =>
    match master with
    | none => none
    | some (m, address) =>
      match Channel.follow m r address with
      | (_, r, none) => some { log := r.log }
      | (_, r, some ending) =>
        match r.attemptEnded ending with
        | (r, .finished (.error fault)) =>
          some { log := r.log, failure := some (.replica r.settings.nodeId fault) }
        | _ => none

end QuorumLog
