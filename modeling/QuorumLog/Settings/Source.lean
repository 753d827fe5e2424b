import QuorumLog.Settings.File
import QuorumLog.Text.Utf8

/-! Where the settings of a node come from: usual values, under those of a file, under those of
variables of the environment. A bad variable ends the reading; those before it have been taken. -/

namespace QuorumLog

/-- Why the settings of a node could not be read. -/
inductive SourceFault where
  | unreadable (path : String)
  | notSettings (path : String)
  | badVariable (name value : String)
deriving DecidableEq, Repr

def SourceFault.message : SourceFault → String
  | unreadable path => "Failed to read config file " ++ Quoted.render path
  | notSettings path => "Failed to parse config file " ++ Quoted.render path
  | badVariable name value => s!"Invalid {name}: {value}"

/-- What is found where the settings should be. -/
inductive SettingsFile where
  /-- Nothing, or no place was given. -/
  | absent
  | unreadable
  | content (bytes : Bytes)
deriving DecidableEq, Repr

/-- The variables of the environment: what each holds, if it is set. -/
abbrev Environment := String → Option String

/-- A variable that changes settings: its name, and the settings with its value unless the value
means nothing. -/
structure Variable where
  name : String
  set? : String → NodeSettings → Option NodeSettings

namespace Variable

/-- A variable that always means something. -/
def plain (name : String) (set : String → NodeSettings → NodeSettings) : Variable :=
  ⟨name, fun text s => some (set text s)⟩

/-- A variable of which the text has to be read first. -/
def read {α : Type} (name : String) (read? : String → Option α)
    (set : α → NodeSettings → NodeSettings) : Variable :=
  ⟨name, fun text s => (read? text).map (set · s)⟩

def onReplication {α : Type} (f : α → Settings → Settings) (a : α) (s : NodeSettings) :
    NodeSettings :=
  { s with replication := f a s.replication }

def onStore {α : Type} (f : α → StoreSettings → StoreSettings) (a : α) (s : NodeSettings) :
    NodeSettings :=
  { s with store := f a s.store }

/-- All variables, in the order in which they are looked at. -/
def all : List Variable :=
  [plain "REPLOG_NODE_ID" (onReplication fun id s => { s with nodeId := id }),
    read "REPLOG_BIND_ADDR" SocketAddress.read?
      (onReplication fun a s => { s with bindAddress := a }),
    read "REPLOG_MASTER_ADDR" SocketAddress.read?
      (onReplication fun a s => { s with masterAddress := some a }),
    plain "REPLOG_TOKEN" (onReplication fun token s => { s with token }),
    read "REPLOG_REPLICAS" (fun text => Decimal.read? UInt32.size text.toList)
      (onReplication fun n s => { s with copies := UInt32.ofNat n }),
    plain "REPLOG_DATA_DIR" (onStore fun path s => { s with path }),
    read "REPLOG_SEGMENT_SIZE" (fun text => Decimal.read? UInt64.size text.toList)
      (onStore fun n s => { s with segmentSize := n })]

/-- Takes the values of some variables, up to the first that means nothing; the settings have those
before it (`apply_env`). -/
def applyAll (environment : Environment) : List Variable → NodeSettings →
    NodeSettings × Except SourceFault Unit
  | [], s => (s, .ok ())
  | v :: later, s =>
    match environment v.name with
    | none => applyAll environment later s
    | some value =>
      match v.set? value s with
      | none => (s, .error (.badVariable v.name value))
      | some s => applyAll environment later s

end Variable

namespace NodeSettings

/-- The file to which settings were saved (`NodeConfig.save`). -/
def saved (s : NodeSettings) : SettingsFile := .content (Utf8.encode s.render)

/-- The settings in a file, or the usual ones if there is none. -/
def ofFile (nodeId path : String) : SettingsFile → Except SourceFault NodeSettings
  | .absent => .ok (standard nodeId)
  | .unreadable => .error (.unreadable path)
  | .content bytes =>
    match Utf8.decode? bytes with
    | none => .error (.unreadable path)
    | some text =>
      match read? nodeId text with
      | none => .error (.notSettings path)
      | some s => .ok s

/-- The settings in a file, under those of the environment (`NodeConfig.load`). The node draws the
name `nodeId` if nothing gives it one. -/
def load (nodeId path : String) (file : SettingsFile) (environment : Environment) :
    Except SourceFault NodeSettings := do
  let s ← ofFile nodeId path file
  match Variable.applyAll environment Variable.all s with
  | (s, .ok ()) => .ok s
  | (_, .error fault) => .error fault

end NodeSettings

end QuorumLog
