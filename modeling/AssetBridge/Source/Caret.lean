import AssetBridge.Source.Version

/-!
# Caret ranges

A caret keeps the leftmost component that is not zero. The target grammar gets the two bounds
themselves: the version with its wildcards at their least, and the version with that component
raised by one and zeros behind it. A wildcard behind a zero raises the zero, so that `^0.0.x` stops
before `0.1.0`.

## Main definitions

* `Source.splitUpperBound`, `Source.standardize`: components taken apart and put together.
* `Source.raiseLeftmost`: the components of the upper bound.
* `Source.expandCaret`: the two bounds of a caret range.
-/

namespace AssetBridge.Source

/-- The components of an upper bound: the prerelease is dropped and wildcards are as large as they
get. -/
def splitUpperBound (s : Text) : List Text :=
  Text.fields '.' (Text.substitute isWildcard greatestComponent (Text.cut '-' s).1)

/-- A version of at least three components. -/
def standardize (parts : List Text) : Text :=
  Text.join ['.'] (parts ++ List.replicate (3 - parts.length) leastComponent)

/-- The number after the one that a component opens with. -/
def raised (part : Text) : Except Numeral.Error Text := do
  Numeral.writeInt ((← Numeral.leading part) + 1)

/-- A raised component and a zero for each one behind it. -/
def raisedBefore (part : Text) (behind : List Text) : Except Numeral.Error (List Text) := do
  return (← raised part) :: behind.map fun _ => leastComponent

/-- The least number that only a wildcard has, less one. -/
def greatestNumber : Int := 9999998

/-- **Upper bound**: raises the leftmost component that is not zero or stands before a wildcard, and
otherwise the last one or the one behind as many as given. -/
def raiseLeftmost : Nat → List Text → Except Numeral.Error (List Text)
  | _, [] => return []
  | 0, part :: behind => raisedBefore part behind
  | _ + 1, [part] => raisedBefore part []
  | n + 1, part :: next :: behind => do
    if 0 < (← Numeral.leading part) then raisedBefore part (next :: behind)
    else if greatestNumber < (← Numeral.leading next) then raisedBefore part (next :: behind)
    else return part :: (← raiseLeftmost n (next :: behind))

/-- The components behind the fourth never decide which one is raised. -/
def decidingComponents : Nat := 3

/-- **Caret range**: the bounds of the versions that keep the leftmost component which is not
zero. -/
def expandCaret (atom : Text) : Except Numeral.Error Text := do
  let lowerBound := standardize (Text.fields '.' (fillWildcards .lower (← convertVersion atom)))
  let upperBound ← convertVersion
    (standardize (← raiseLeftmost decidingComponents (splitUpperBound atom)))
  return ">=".toList ++ lowerBound ++ ",<".toList ++ upperBound

example : expandCaret "0.2.3".toList = .ok ">=0.2.3,<0.3.0".toList := rfl

end AssetBridge.Source
