import AssetBridge.Table

/-!
# Manifest values

The values that a manifest can hold. Objects keep the order of their members, integers are exact
and other numbers are floating-point numbers.

## Main definitions

* `Json`: the values.
* `Json.isEmptyValue`: the values that count as absent.
-/

namespace AssetBridge

/-- A value of a manifest. -/
inductive Json where
  | null
  | bool (b : Bool)
  | int (i : Int)
  | real (x : Float)
  | str (s : Text)
  | arr (items : List Json)
  | obj (members : List (Text × Json))
deriving Inhabited

namespace Json

/-- Whether a value counts as absent: `null`, `false`, zero, and whatever is empty. -/
def isEmptyValue : Json → Bool
  | null => true
  | bool b => !b
  | int i => i = 0
  | real x => x == 0
  | str s => s.isEmpty
  | arr items => items.isEmpty
  | obj members => members.isEmpty

/-- The text of a value that is one. -/
def text? : Json → Option Text
  | str s => some s
  | _ => none

/-- The members of a value that has them. -/
def members? : Json → Option (Table Json)
  | obj members => some members
  | _ => none

end Json

end AssetBridge
