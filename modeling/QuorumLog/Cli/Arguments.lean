import QuorumLog.Settings.Source

/-! The command line. Options for all commands may stand before or behind the command; behind it they
count more. An option takes its value from behind an equals sign or from the next argument, which then
must not look like an option, and none may be given twice in one place. -/

namespace QuorumLog

/-- What the program is asked to do, with the settings that are given for it. -/
inductive Command where
  | master (bind : Option SocketAddress) (copies : Option UInt32) (token dataDir : Option String)
  | replica (master : Option SocketAddress) (nodeId token dataDir : Option String)
  | dump (dataDir : Option String)
deriving DecidableEq, Repr

/-- A command line. -/
structure Arguments where
  settingsPath : Option String
  verbose : Bool
  statsInterval : Nat
  command : Command
deriving DecidableEq, Repr

/-- Why a command line asks for nothing. -/
inductive Usage where
  | wrong
  | help
deriving DecidableEq, Repr

namespace Cli

/-- An option. -/
structure Flag where
  long : String
  short : Option Char := none
  /-- Which values it takes, if it takes one. -/
  accepts : Option (String → Bool)

/-- The value of a count of copies; a sign may stand before it. -/
def readCopies? (text : String) : Option UInt32 :=
  match text.toList with
  | '-' :: digits =>
    match Decimal.value? digits with
    | some 0 => some 0
    | _ => none
  | cs => (Decimal.read? UInt32.size cs).map UInt32.ofNat

def readSeconds? (text : String) : Option Nat := Decimal.read? UInt64.size text.toList

def isPath (text : String) : Bool := text ≠ ""

def commonFlags : List Flag :=
  [⟨"config", some 'c', some isPath⟩, ⟨"verbose", some 'v', none⟩, ⟨"help", some 'h', none⟩,
    ⟨"stats-interval", none, some fun text => (readSeconds? text).isSome⟩]

def textFlag (long : String) : Flag := ⟨long, none, some fun _ => true⟩

def addressFlag (long : String) : Flag :=
  ⟨long, none, some fun text => (SocketAddress.read? text).isSome⟩

def dataDirFlag : Flag := ⟨"data-dir", none, some isPath⟩

def commandFlags : List (String × List Flag) :=
  [("master", [addressFlag "bind",
      ⟨"replicas", none, some fun text => (readCopies? text).isSome⟩, textFlag "token",
      dataDirFlag]),
    ("replica", [addressFlag "master", textFlag "node-id", textFlag "token", dataDirFlag]),
    ("dump", [dataDirFlag])]

/-- The options that were given, by their long names. -/
abbrev Given := List (String × String)

/-- Notes an option. It must be new, and its value one that it takes; to ask for help ends it all. -/
def note (flag : Flag) (value : String) (given : Given) : Except Usage Given :=
  if flag.long = "help" then .error .help
  else if (given.lookup flag.long).isSome then .error .wrong
  else if flag.accepts.all (· value) then .ok (given ++ [(flag.long, value)])
  else .error .wrong

def looksLikeFlag (argument : String) : Bool :=
  match argument.toList with
  | '-' :: _ :: _ => true
  | _ => false

/-- What an argument asks for: options, the last of which may still lack its value. -/
def takeLetters (flags : List Flag) (given : Given) : List Char → Except Usage (Given × Option Flag)
  | [] => .ok (given, none)
  | c :: rest =>
    match flags.find? (·.short = some c) with
    | none => .error .wrong
    | some flag =>
      match flag.accepts, rest with
      | none, rest => (note flag "" given).bind fun given => takeLetters flags given rest
      | some _, [] => .ok (given, some flag)
      | some _, '=' :: value => (note flag (String.ofList value) given).map (·, none)
      | some _, value => (note flag (String.ofList value) given).map (·, none)

/-- What an argument behind two dashes asks for. -/
def takeName (flags : List Flag) (given : Given) (text : List Char) :
    Except Usage (Given × Option Flag) :=
  match text.span (· ≠ '='), flags.find? (·.long.toList = (text.span (· ≠ '=')).1) with
  | _, none => .error .wrong
  | (_, []), some flag =>
    if flag.accepts.isSome then .ok (given, some flag)
    else (note flag "" given).map (·, none)
  | (_, _ :: value), some flag =>
    if flag.accepts.isSome then (note flag (String.ofList value) given).map (·, none)
    else .error .wrong

/-- What an argument that looks like an option asks for. -/
def takeFlag (flags : List Flag) (given : Given) (argument : String) :
    Except Usage (Given × Option Flag) :=
  match argument.toList with
  | '-' :: '-' :: text => takeName flags given text
  | '-' :: letters => takeLetters flags given letters
  | _ => .error .wrong

/-- Reads options up to the first argument that is none; gives what is left from there on. Behind two
dashes alone nothing is an option. -/
def takeFlags (flags : List Flag) : Given → List String → Except Usage (Given × List String)
  | given, [] => .ok (given, [])
  | given, argument :: later =>
    if argument = "--" then (if later.isEmpty then .ok (given, []) else .error .wrong)
    else if looksLikeFlag argument then
      match takeFlag flags given argument with
      | .error usage => .error usage
      | .ok (given, none) => takeFlags flags given later
      | .ok (given, some flag) =>
        match later with
        | [] => .error .wrong
        | value :: later =>
          if looksLikeFlag value then .error .wrong
          else match note flag value given with
            | .error usage => .error usage
            | .ok given => takeFlags flags given later
    else .ok (given, argument :: later)

/-- Whether the words behind the command for help name a command, or nothing. -/
def helps (words : List String) : Bool :=
  match words with
  | [] => true
  | [word] => word = "help" ∨ (commandFlags.lookup word).isSome
  | _ => false

/-- The command with the options that were given for it. -/
def command? (name : String) (given : Given) : Option Command :=
  let text (name : String) := given.lookup name
  let address (name : String) := (text name).bind SocketAddress.read?
  match name with
  | "master" =>
    some (.master (address "bind") ((text "replicas").bind readCopies?) (text "token")
      (text "data-dir"))
  | "replica" =>
    some (.replica (address "master") (text "node-id") (text "token") (text "data-dir"))
  | "dump" => some (.dump (text "data-dir"))
  | _ => none

/-- The value of an option for all commands: behind the command if it stands there, else before
it. -/
def common (before behind : Given) (name : String) : Option String :=
  (behind.lookup name).orElse fun _ => before.lookup name

/-- Reads a command line. The variable for the path of the settings stands in for the option. -/
def parse (environment : Environment) (arguments : List String) : Except Usage Arguments :=
  match takeFlags commonFlags [] arguments with
  | .error usage => .error usage
  | .ok (_, []) => .error .wrong
  | .ok (before, name :: later) =>
    if name = "help" then .error (if helps later then .help else .wrong)
    else match commandFlags.lookup name with
      | none => .error .wrong
      | some flags =>
        match takeFlags (commonFlags ++ flags) [] later with
        | .error usage => .error usage
        | .ok (behind, rest) =>
          let fromEnvironment := environment "REPLOG_CONFIG"
          if !rest.isEmpty ∨ fromEnvironment = some "" then .error .wrong
          else match command? name behind with
            | none => .error .wrong
            | some command =>
              .ok
                { settingsPath := (common before behind "config").orElse fun _ => fromEnvironment
                  verbose := (common before behind "verbose").isSome
                  statsInterval := ((common before behind "stats-interval").bind
                    readSeconds?).getD 30
                  command }

end Cli

namespace Command

/-- The settings with those that a command line gives. -/
def override (c : Command) (s : NodeSettings) : NodeSettings :=
  let inDirectory (dataDir : Option String) (r : Settings) : NodeSettings :=
    { replication := r, store := { s.store with path := dataDir.getD s.store.path } }
  let r := s.replication
  match c with
  | master bind copies token dataDir =>
    inDirectory dataDir
      { r with
        role := .master
        bindAddress := bind.getD r.bindAddress
        copies := copies.getD r.copies
        token := token.getD r.token }
  | replica address nodeId token dataDir =>
    inDirectory dataDir
      { r with
        role := .replica
        masterAddress := address.orElse fun _ => r.masterAddress
        nodeId := nodeId.getD r.nodeId
        token := token.getD r.token }
  | dump dataDir => inDirectory dataDir r

end Command

end QuorumLog
