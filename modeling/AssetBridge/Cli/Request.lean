import AssetBridge.Cli.Arguments

/-!
# Requests

What a list of arguments asks for. The options in front of the name of a command belong to the
program, those behind it to the command.

## Main definitions

* `Cli.Command`: the commands with their arguments.
* `Cli.Opening.read`: the options of the program and the command that they open.
* `Cli.Request.read`: what a command is asked to do.
-/

namespace AssetBridge.Cli

/-- A command with its arguments. -/
inductive Command where
  | configSet (flag value : Text)
  | configGet (flag : Text)
  | configList
  | convertVersion (version : Text)
  | convertRange (range : Text)
  | convertName (name : Text) (kind : Option Text) (reverse : Bool)
  | convertManifest (path : Text) (kind : Option Text)
  | check (range version : Text) (versions : List Text)
deriving DecidableEq, Repr

/-- What is asked for: help, nothing that makes sense, or a command. -/
inductive Request where
  | help
  | misuse
  | run (command : Command)
deriving DecidableEq, Repr

/-! ## Names -/

/-- The names of the commands. -/
inductive CommandName where
  | config
  | convertVersion
  | convertRange
  | convertName
  | convertManifest
  | check
deriving DecidableEq, Repr

/-- The names of the commands, as they are written. -/
def CommandName.byText : List (Text × CommandName) :=
  [("config".toList, .config), ("convert-version".toList, .convertVersion),
    ("convert-range".toList, .convertRange), ("convert-name".toList, .convertName),
    ("convert-manifest".toList, .convertManifest), ("check".toList, .check)]

/-- The names of the commands that manage settings. -/
inductive ConfigName where
  | set
  | get
  | list
deriving DecidableEq, Repr

/-- The names of the commands that manage settings, as they are written. -/
def ConfigName.byText : List (Text × ConfigName) :=
  [("set".toList, .set), ("get".toList, .get), ("list".toList, .list)]

/-- What a name stands for. -/
def named? {α : Type} (names : List (Text × α)) (s : Text) : Option α :=
  (names.find? fun (name, _) => name = s).map Prod.snd

/-! ## Commands -/

/-- Reads the arguments of a command: help comes before everything but an unknown option. -/
def readArguments (known : List Flag) (args : List Text)
    (command? : List Given → List Text → Option Command) : Request :=
  match scan? (.help :: known) true args with
  | none => .misuse
  | some (given, rest) =>
    if isGiven .help given then .help
    else
      match command? given rest with
      | some command => .run command
      | none => .misuse

/-- The command that takes one argument. -/
def one? (command : Text → Command) : List Text → Option Command
  | [a] => some (command a)
  | _ => none

/-- The command that takes two arguments. -/
def two? (command : Text → Text → Command) : List Text → Option Command
  | [a, b] => some (command a b)
  | _ => none

/-- A request for the settings. -/
def readConfigCommand (name : ConfigName) (args : List Text) : Request :=
  match name with
  | .set => readArguments [] args fun _ rest => two? .configSet rest
  | .get => readArguments [] args fun _ rest => one? .configGet rest
  | .list => readArguments [] args fun _ rest => if rest.isEmpty then some .configList else none

/-- What follows the name of the group of commands for the settings. -/
def readConfig (args : List Text) : Request :=
  match scan? [.help] false args with
  | none => .misuse
  | some (given, rest) =>
    if isGiven .help given then .help
    else
      match rest with
      | [] => .misuse
      | name :: args =>
        match named? ConfigName.byText name with
        | some name => readConfigCommand name args
        | none => .misuse

/-- The range and at least one version to check it on. -/
def check? : List Text → Option Command
  | range :: version :: versions => some (.check range version versions)
  | _ => none

/-- **What a command is asked to do.** -/
def Request.read (name : CommandName) (args : List Text) : Request :=
  match name with
  | .config => readConfig args
  | .convertVersion => readArguments [] args fun _ rest => one? .convertVersion rest
  | .convertRange => readArguments [] args fun _ rest => one? .convertRange rest
  | .convertName =>
    readArguments [.assetType, .reverse] args fun given rest =>
      one? (.convertName · (valueOf .assetType given) (isGiven .reverse given)) rest
  | .convertManifest =>
    readArguments [.assetType] args fun given rest =>
      one? (.convertManifest · (valueOf .assetType given)) rest
  | .check => readArguments [] args fun _ rest => check? rest

/-! ## The program -/

/-- What the arguments in front of a command say. -/
inductive Opening where
  | help
  | misuse
  | command (verbose : Bool) (name : CommandName) (args : List Text)
deriving DecidableEq, Repr

/-- **The options of the program**, and the command behind them. -/
def Opening.read (args : List Text) : Opening :=
  match scan? [.help, .verbose] false args with
  | none => .misuse
  | some (given, rest) =>
    if isGiven .help given then .help
    else
      match rest with
      | [] => .misuse
      | name :: args =>
        match named? CommandName.byText name with
        | some name => .command (isGiven .verbose given) name args
        | none => .misuse

end AssetBridge.Cli
