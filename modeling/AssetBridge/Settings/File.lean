import AssetBridge.Settings.Basic
import AssetBridge.Table
import AssetBridge.Text.Lines

/-!
# The settings file

Every line of the settings file gives a name and a value around an equals sign. Blanks around the
two do not count, lines that start with a hash are comments, and lines without an equals sign say
nothing. A name that is given again keeps its place and takes the new value.

## Main definitions

* `SettingsFile.entry?`: the entry on a line.
* `SettingsFile.parse`, `SettingsFile.render`: the entries of a file, and a file for entries.
-/

namespace AssetBridge.SettingsFile

/-- The entry on a line, if there is one. -/
def entry? (line : Text) : Option (Text × Text) :=
  match Text.strip line with
  | [] => none
  | '#' :: _ => none
  | s =>
    match Text.cut '=' s with
    | (name, some value) => some (Text.strip name, Text.strip value)
    | (_, none) => none

/-- **Reading** a settings file. -/
def parse (s : Text) : Table Text := Table.ofList ((Text.lines s).filterMap entry?)

/-- The line of an entry. -/
def lineOf (entry : Text × Text) : Text := entry.1 ++ '=' :: entry.2 ++ ['\n']

/-- **Writing** a settings file. -/
def render (entries : Table Text) : Text := entries.flatMap lineOf

@[simp] theorem render_append (a b : Table Text) : render (a ++ b) = render a ++ render b := by
  simp [render]

example : parse " A = 1 = 2 \n# B=3\nC\nA=4\n".toList = [(['A'], ['4'])] := by decide +kernel

end AssetBridge.SettingsFile
