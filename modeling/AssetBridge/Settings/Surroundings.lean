import AssetBridge.Files.Folder
import AssetBridge.Settings.File
import AssetBridge.Text.Encoding
import AssetBridge.Text.Raw

/-!
# Where settings come from

The environment counts more than the settings file, and the file more than the defaults. A variable
that is set to the empty text is set.

## Main definitions

* `Surroundings`: the settings file, the environment and the folder that a program runs in.
* `Surroundings.load`, `Surroundings.get`, `Surroundings.list`: reading settings.
* `Surroundings.set`: writing one into the file, which may fail half-way.
-/

namespace AssetBridge

/-- What a program finds around it. -/
structure Surroundings where
  /-- The bytes of the settings file, when there is one. -/
  settings : Option ByteArray := none
  /-- The variables of the environment. -/
  environment : Table Text := []
  /-- The folder in which it runs. -/
  folder : Folder := Folder.empty

namespace Surroundings

/-- Why a setting cannot be read or written. -/
inductive Error where
  /-- The settings file is no text. -/
  | undecodable
  /-- The value is no text, and the settings file is one. -/
  | unencodable
  /-- There is no setting with this name. -/
  | unknownKey (key : Text)
deriving DecidableEq, Repr

/-- Where the value of a setting comes from. -/
inductive Origin where
  | environment
  | file
  | default
deriving DecidableEq, Repr

/-- The name of an origin. -/
def Origin.name : Origin → Text
  | .environment => "env".toList
  | .file => "file".toList
  | .default => "default".toList

/-- A setting with its value and where that comes from. -/
structure Entry where
  setting : Setting
  value : Text
  origin : Origin
deriving DecidableEq, Repr

/-! ## Reading -/

/-- The entries of the settings file; a missing file has none. -/
def entries (w : Surroundings) : Except Error (Table Text) :=
  match w.settings with
  | none => .ok []
  | some bytes =>
    match Text.decode? bytes with
    | some s => .ok (SettingsFile.parse s)
    | none => .error .undecodable

/-- **All settings**: the file over the defaults, and the environment over both. -/
def load (w : Surroundings) : Except Error Settings := do
  let entries ← w.entries
  return (Settings.default.overlay fun s => entries.get? s.envName).overlay fun s =>
    w.environment.get? s.envName

/-- **One setting**. The file is opened only when the environment does not give the value. -/
def get (w : Surroundings) (s : Setting) : Except Error Entry :=
  match w.environment.get? s.envName with
  | some value => .ok ⟨s, value, .environment⟩
  | none => do
    let entries ← w.entries
    return match entries.get? s.envName with
      | some value => ⟨s, value, .file⟩
      | none => ⟨s, s.default, .default⟩

/-- The setting with a name inside the program. -/
def getKey (w : Surroundings) (key : Text) : Except Error Entry :=
  match Setting.ofKey? key with
  | some s => w.get s
  | none => .error (.unknownKey key)

/-- All settings, each on its own. -/
def list (w : Surroundings) : Except Error (List Entry) := Setting.all.mapM w.get

/-! ## Writing -/

/-- A settings file for entries of which one has a new value. -/
def fileWith (entries : Table Text) (s : Setting) (value : Text) : ByteArray :=
  Text.encode (SettingsFile.render (entries.insert s.envName value))

/-- The settings file once a setting has a new value. -/
def updatedFile (w : Surroundings) (s : Setting) (value : Text) : Except Error ByteArray := do
  let entries ← w.entries
  return fileWith entries s value

/-- **Writing** a setting into the file: what is there afterwards, and whether it went well. The
file is emptied before its new text is stored. That text has no stored form when the value is no
text, as all else in it comes from the old file; the new file then stays empty. -/
def set (w : Surroundings) (s : Setting) (value : RawText) : Surroundings × Except Error Unit :=
  match w.entries, value.text? with
  | .error e, _ => (w, .error e)
  | .ok entries, some value => ({ w with settings := some (fileWith entries s value) }, .ok ())
  | .ok _, none => ({ w with settings := some .empty }, .error .unencodable)

/-- Writes the setting with a name inside the program. The file is read before the name is. -/
def setKey (w : Surroundings) (key : Text) (value : RawText) :
    Surroundings × Except Error Unit :=
  match w.entries, Setting.ofKey? key with
  | .error e, _ => (w, .error e)
  | .ok _, some s => w.set s value
  | .ok _, none => (w, .error (.unknownKey key))

/-- Gives a variable of the environment a value, or removes it. -/
def setVariable (w : Surroundings) (name : Text) (value : Option Text) : Surroundings :=
  { w with environment :=
    match value with
    | some v => w.environment.insert name v
    | none => w.environment.erase name }

end Surroundings

end AssetBridge
