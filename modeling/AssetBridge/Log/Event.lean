import AssetBridge.Json.Printer
import AssetBridge.Log.Level
import AssetBridge.Text.Quoted

/-!
# Events

What the conversions report while they run: how a dependency is classified, which entries are left
out, and where a range and the constraint for it disagree.

## Main definitions

* `Event`, `Event.level`, `Event.message`: an event, its level and its wording.
-/

namespace AssetBridge

/-- Something worth reporting. -/
inductive Event where
  /-- A repository serves a dependency. -/
  | served (name url : Text)
  /-- A dependency is downloaded as a file, under a name of its own. -/
  | downloaded (name url file : Text)
  /-- A specifier is resolved: the name and the version it had, the version and the name it gets. -/
  | resolved (name written version newName : Text)
  /-- An entry is left out because its version restates its name. -/
  | dropped (name version : Text)
  /-- An entry is left out because its version is no text. -/
  | skipped (name : Text) (version : Json)
  /-- A range and the constraint for it disagree on a version. -/
  | disagreement (range constraint version : Text)

namespace Event

open Text (inQuotes)

/-- The level of an event: only a skipped entry is a warning. -/
def level : Event → Level
  | skipped .. => .warning
  | _ => .debug

/-- The wording of an event. -/
def message : Event → Text
  | served name url =>
    "Dependency ".toList ++ inQuotes name ++ " is served by the VCS repository ".toList ++
      inQuotes url
  | downloaded name url file =>
    "Dependency ".toList ++ inQuotes name ++ " is downloaded from ".toList ++ inQuotes url ++
      " as ".toList ++ inQuotes file
  | resolved name written version newName =>
    "Resolved dependency ".toList ++ inQuotes name ++ ": ".toList ++ inQuotes written ++
      " -> ".toList ++ inQuotes version ++ " as ".toList ++ inQuotes newName
  | dropped name version =>
    "Dropping dependency ".toList ++ inQuotes name ++ " with version ".toList ++ inQuotes version
  | skipped name version =>
    "Skipping dependency ".toList ++ inQuotes name ++ ": version ".toList ++ version.describe ++
      " is not a string".toList
  | disagreement range constraint version =>
    inQuotes range ++ " and ".toList ++ inQuotes constraint ++ " disagree on ".toList ++ version

end Event

end AssetBridge
