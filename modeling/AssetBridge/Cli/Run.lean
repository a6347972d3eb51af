import AssetBridge.Agreement
import AssetBridge.Asset.Manifest
import AssetBridge.Cli.Console
import AssetBridge.Cli.Request
import AssetBridge.Json.Parser
import AssetBridge.Settings.Surroundings

/-!
# Running a command line

A run reads its arguments, sets the level of the log and carries out one command. All it may change
around it is the settings file, and only the command that sets a setting does.

## Main definitions

* `Cli.State`, `Cli.Report`: what lasts between two runs, and what one run shows.
* `Cli.Command.execute`: carrying out a command.
* `Cli.run`: a whole run.
-/

namespace AssetBridge.Cli

/-! ## Failures -/

/-- An error that ends a run without having been reported by the command. -/
inductive Crash where
  /-- A number cannot be read or written. -/
  | numeral (cause : Numeral.Error)
  /-- A file is no text. -/
  | undecodable
  /-- A side of a hyphen range has no shape. -/
  | hyphenSide
  /-- The version in a manifest is no text. -/
  | manifestVersion
  /-- A path holds a character that no path can hold. -/
  | path
deriving DecidableEq, Repr

/-- The wording of a crash. -/
def Crash.message : Crash → Text
  | .numeral .tooLong => "A number has too many digits.".toList
  | .numeral .malformed => "A text is no number.".toList
  | .undecodable => "A file is not written in UTF-8.".toList
  | .hyphenSide => "A side of a hyphen range is no version.".toList
  | .manifestVersion => "The version in the manifest is not a string.".toList
  | .path => "A path holds a null character.".toList

/-- Why a command does not come to its end. -/
inductive Failure where
  /-- The command reports why it refuses. -/
  | refused (message : Text)
  /-- Nothing reports why. -/
  | crashed (crash : Crash)
deriving DecidableEq, Repr

/-- A failure to read the settings. -/
def ofSettings : Surroundings.Error → Failure := fun _ => .crashed .undecodable

/-- A failure to convert. -/
def ofNumeral (e : Numeral.Error) : Failure := .crashed (.numeral e)

/-- A name that belongs to no kind. -/
def ofUnknownKind (e : Asset.UnknownKind) : Failure := .refused e.message

/-- A failure to convert a manifest. -/
def ofManifest : Asset.ManifestError → Failure
  | .numeral e => ofNumeral e
  | .version _ => .crashed .manifestVersion

/-- A failure to check a range. -/
def ofAgreement : Agreement.Error → Failure
  | .numeral e => ofNumeral e
  | .constraint (.version (.numeral e)) => ofNumeral e
  | .constraint e => .refused e.message
  | .npm (.hyphenSide _) => .crashed .hyphenSide
  | .npm e => .refused e.message

/-! ## Commands -/

/-- What a command that comes to its end leaves behind. -/
structure Done where
  out : List Output
  exit : Nat := 0
  /-- The settings file that it writes. -/
  written : Option ByteArray := none

/-- One printed line. -/
def printed (s : Text) : Done := { out := [.line s] }

/-- The lines about a name that no setting has. -/
def unknownFlag (flag : Text) : Done where
  out := [.line ("Unknown config key: ".toList ++ shownQuoted flag),
    .line ("Valid keys: ".toList ++ Text.join ", ".toList (Setting.all.map Setting.flag))]

/-- The lines about a value that a setting does not accept. -/
def invalidValue (e : Setting.InvalidValue) : Done where
  out := [.line (shown e.message), .line ("Accepted: ".toList ++ e.accepted)]

/-- Sets a setting: a value is checked before anything is written. -/
def configSet (w : Surroundings) (flag value : Text) : Except Failure Done :=
  match Setting.ofFlag? flag with
  | none => return unknownFlag flag
  | some s =>
    match s.normalize value with
    | .error e => return invalidValue e
    | .ok stored => do
      let file ← (w.updatedFile s stored).mapError ofSettings
      return {
        out := [.line ("Set ".toList ++ shownQuoted flag ++ " = ".toList ++ shownQuoted stored)]
        written := some file }

/-- A value as it is shown to a user. -/
def displayed (value : Text) : Text := if value.isEmpty then "(empty)".toList else shown value

/-- Shows a setting. -/
def configGet (w : Surroundings) (flag : Text) : Except Failure Done :=
  match Setting.ofFlag? flag with
  | none => return unknownFlag flag
  | some s => do
    let entry ← (w.get s).mapError ofSettings
    return printed (flag ++ " = ".toList ++ displayed entry.value ++ "  (source: ".toList ++
      entry.origin.name ++ [')'])

/-- Shows all settings. -/
def configList (w : Surroundings) : Except Failure Done := do
  let entries ← w.list.mapError ofSettings
  return { out := [.table "assetver Configuration".toList
    ["Key".toList, "Value".toList, "Source".toList]
    (entries.map fun e => [e.setting.flag, displayed e.value, e.origin.name])] }

/-- Converts a version. -/
def convertVersion (version : Text) : Except Failure Done := do
  return printed (shown (← (Source.convertVersion version).mapError ofNumeral))

/-- Converts a range. -/
def convertRange (range : Text) : Except Failure Done := do
  return printed (shown (← (Source.convertRange range).mapError ofNumeral))

/-- The name of a kind that is asked for, or the one in the settings. -/
def kindName (w : Surroundings) (asked : Option Text) : Except Failure Text :=
  match asked with
  | some (c :: s) => return c :: s
  | _ => do return (← w.load.mapError ofSettings) .assetType

/-- Converts the name of a package, or converts it back. -/
def convertName (w : Surroundings) (name : Text) (asked : Option Text) (reverse : Bool) :
    Except Failure Done := do
  let kind ← (Asset.Kind.ofName (← kindName w asked)).mapError ofUnknownKind
  return printed (shown (if reverse then kind.registryName name else kind.packageName name))

/-- The members of the manifest at a path. -/
def readManifest (folder : Folder) (path : Path) : Except Failure (Table Json) :=
  match folder path with
  | .file bytes =>
    match Text.decode? bytes with
    | none => .error (.crashed .undecodable)
    | some s =>
      match Json.parse s with
      | .error .malformed => .error (.refused ("Invalid JSON in ".toList ++ path.text))
      | .error (.numeral e) => .error (ofNumeral e)
      | .ok (.obj members) => .ok members
      | .ok _ =>
        .error (.refused ("Manifest ".toList ++ path.text ++ " must contain a JSON object".toList))
  | _ => .error (.refused ("Cannot read manifest ".toList ++ path.text))

/-- The path of the manifest: a folder is one that holds it. -/
def manifestPath (folder : Folder) (kind : Asset.Kind) (path : Path) : Path :=
  match folder path with
  | .folder => path.child kind.filename
  | _ => path

/-- The kind, the domains and the manifest to convert. The settings are read first. -/
def manifestInput (w : Surroundings) (path : Text) (asked : Option Text) :
    Except Failure (Asset.Kind × Asset.Domains × Table Json) := do
  if '\x00' ∈ path then .error (.crashed .path)
  let settings ← w.load.mapError ofSettings
  let kind ← (Asset.Kind.ofName (← kindName w asked)).mapError ofUnknownKind
  let members ← readManifest w.folder (manifestPath w.folder kind (Path.parse path))
  return (kind, settings.domains, members)

/-- Converts a manifest. -/
def convertManifest (w : Surroundings) (path : Text) (asked : Option Text) :
    Trail Failure Done := do
  let (kind, domains, members) ← Trail.ofExcept (manifestInput w path asked)
  let package ← (Asset.convertManifest kind domains members).mapError ofManifest
  return { out := [.json package.config.render] }

/-- A word for an answer. -/
def yesOrNo (b : Bool) : Text := if b then "yes".toList else "no".toList

/-- The row of a verdict. -/
def verdictRow (v : Agreement.Verdict) : List Text :=
  [shown v.version, yesOrNo v.source, yesOrNo v.target]

/-- The report on a range. -/
def reported (r : Agreement.Report) : Done where
  out := [.table (shown r.range ++ " -> ".toList ++ shown r.constraint)
      ["Version".toList, "npm".toList, "Translated".toList] (r.verdicts.map verdictRow),
    .line (if r.isConsistent then "The translated constraint agrees with the npm range.".toList
      else "The translated constraint disagrees with the npm range.".toList)]
  exit := if r.isConsistent then 0 else 1

/-- Checks a range. -/
def check (range : Text) (versions : List Text) : Trail Failure Done :=
  reported <$> (checkRange range versions).mapError ofAgreement

/-- **Carrying out a command.** -/
def Command.execute (w : Surroundings) : Command → Trail Failure Done
  | .configSet flag value => Trail.ofExcept (Cli.configSet w flag value)
  | .configGet flag => Trail.ofExcept (Cli.configGet w flag)
  | .configList => Trail.ofExcept (Cli.configList w)
  | .convertVersion version => Trail.ofExcept (Cli.convertVersion version)
  | .convertRange range => Trail.ofExcept (Cli.convertRange range)
  | .convertName name kind reverse => Trail.ofExcept (Cli.convertName w name kind reverse)
  | .convertManifest path kind => Cli.convertManifest w path kind
  | .check range version versions => Cli.check range (version :: versions)

/-! ## Runs -/

/-- What lasts between two runs: the surroundings, and the level of the log. -/
structure State where
  surroundings : Surroundings := {}
  level : Level := .usual

/-- What a run shows: its exit code or what made it crash, what it printed, and the events that pass
the level of the log. -/
structure Report where
  exit : Except Crash Nat
  out : List Output := []
  events : List Event := []
  /-- Whether the user is told what the arguments may be. -/
  usage : Bool := false

/-- The exit code for arguments that make no sense. -/
def misuse : Nat := 2

/-- The events that pass a level. -/
def passing (level : Level) (events : List Event) : List Event :=
  events.filter fun e => level.rank ≤ e.level.rank

/-- The end of a command. -/
def finish (state : State) (trail : Trail Failure Done) : State × Report :=
  let events := passing state.level trail.events
  match trail.outcome with
  | .ok done =>
    ({ state with surroundings := { state.surroundings with
        settings := done.written <|> state.surroundings.settings } },
      { exit := .ok done.exit, out := done.out, events })
  | .error (.refused message) => (state, { exit := .ok 1, out := [.line (shown message)], events })
  | .error (.crashed crash) => (state, { exit := .error crash, events })

/-- The level of the log: everything when the run is verbose, and else the one in the settings. -/
def logLevel (w : Surroundings) (verbose : Bool) : Except Surroundings.Error Level :=
  if verbose then return .debug else do return (← w.load).level

/-- What a request does once the level of the log is set. -/
def fulfil (state : State) : Request → State × Report
  | .help => (state, { exit := .ok 0, usage := true })
  | .misuse => (state, { exit := .ok Cli.misuse, usage := true })
  | .run command => finish state (command.execute state.surroundings)

/-- **A run.** The level of the log is set once the command is known to exist. -/
def run (state : State) (args : List Text) : State × Report :=
  match Opening.read args with
  | .help => (state, { exit := .ok 0, usage := true })
  | .misuse => (state, { exit := .ok Cli.misuse, usage := true })
  | .command verbose name args =>
    match logLevel state.surroundings verbose with
    | .error _ => (state, { exit := .error .undecodable })
    | .ok level => fulfil { state with level } (Request.read name args)

end AssetBridge.Cli
