import AssetBridge.Cli.Run

/-!
# The program

The outermost layer finds out what a run needs to know, carries the run out, and shows and stores
what comes of it. It decides nothing: a run is a function of its arguments and its surroundings.

## Main definitions

* `Program.gather`: the surroundings of a run.
* `Program.present`, `Program.store`: what a run shows, and the settings file it leaves behind.
* `main`: the program.
-/

namespace AssetBridge.Program

/-! ## What a run looks at -/

/-- The paths at which a command looks. -/
def pathsOf : Cli.Command → List Path
  | .convertManifest path _ =>
    Path.parse path :: Asset.Kind.all.map fun kind => (Path.parse path).child kind.filename
  | _ => []

/-- The command among the arguments, when they ask for one. -/
def command? (args : List Text) : Option Cli.Command :=
  match Cli.Opening.read args with
  | .command _ name args =>
    match Cli.Request.read name args with
    | .run command => some command
    | _ => none
  | _ => none

/-- The folder in which nothing but the nodes at hand is found. -/
def folderOf (nodes : List (Path × Node)) : Folder := fun path =>
  ((nodes.find? fun node => node.1 = path).map Prod.snd).getD .absent

/-! ## The settings file -/

/-- The folder of the settings file. -/
def settingsFolder (home : String) : String := home ++ "/.assetver"

/-- The path of the settings file. -/
def settingsPath (home : String) : String := settingsFolder home ++ "/config"

/-! ## Around a run -/

/-- What a path leads to: only a folder has itself as a name below it. -/
def look (path : String) : IO Node := do
  try
    let _ ← IO.FS.realPath (path ++ "/.")
    return .folder
  catch _ =>
    try
      return .file (← IO.FS.readBinFile path)
    catch _ => return .absent

/-- The bytes of a file, when there is one. -/
def bytes? (path : String) : IO (Option ByteArray) := do
  match ← look path with
  | .file bytes => return some bytes
  | _ => return none

/-- The variable of a setting, when it is set. -/
def fromEnvironment (s : Setting) : IO (Option (Text × Text)) := do
  let value ← IO.getEnv (String.ofList s.envName)
  return value.map fun v => (s.envName, v.toList)

/-- **The surroundings of a run.** -/
def gather (home : String) (args : List Text) : IO Surroundings := do
  let environment ← Setting.all.filterMapM fromEnvironment
  let nodes ← ((command? args).elim [] pathsOf).mapM fun path => do
    return (path, ← look (String.ofList path.text))
  return { settings := ← bytes? (settingsPath home), environment, folder := folderOf nodes }

/-- The way in which the program is called. -/
def usage : List String :=
  ["Usage: assetver [--verbose] COMMAND [ARGS]...",
    "  config set KEY VALUE",
    "  config get KEY",
    "  config list",
    "  convert-version VERSION",
    "  convert-range RANGE",
    "  convert-name [--asset-type TEXT] [--reverse] NAME",
    "  convert-manifest [--asset-type TEXT] PATH",
    "  check RANGE VERSIONS..."]

/-- Shows what a run shows, all of it on the console. -/
def present (report : Cli.Report) : IO UInt32 := do
  for event in report.events do
    IO.eprintln (String.ofList (event.level.name ++ ' ' :: event.message))
  for line in report.out.flatMap Cli.Output.lines do
    IO.eprintln (String.ofList line)
  if report.usage then
    usage.forM IO.eprintln
  match report.exit with
  | .ok code => return UInt32.ofNat code
  | .error crash =>
    IO.eprintln (String.ofList crash.message)
    return 1

/-- Writes the settings file, when a run changes it. -/
def store (home : String) (before after : Option ByteArray) : IO Unit := do
  match after with
  | none => return
  | some bytes =>
    if before.map ByteArray.toList ≠ some bytes.toList then
      IO.FS.createDirAll (settingsFolder home)
      IO.FS.writeBinFile (settingsPath home) bytes

end AssetBridge.Program

open AssetBridge in
/-- **The program.** -/
def main (args : List String) : IO UInt32 := do
  let home := (← IO.getEnv "HOME").getD "."
  let args := args.map String.toList
  let surroundings ← Program.gather home args
  let (after, report) := Cli.run { surroundings } args
  Program.store home surroundings.settings after.surroundings.settings
  Program.present report
