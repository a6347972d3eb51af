import AssetBridge.Numeral
import AssetBridge.Source.Suffix

/-!
# Source versions

One version of the source dialect, converted into the target grammar. Converting is the step at
every atom of a range; it fails only on numerals beyond the digit limit.

## Main definitions

* `Source.convertVersion`: the converted version.
* `Source.convertDate`: date stamps, whose later components are padded with zeros.
* `Source.Side`, `Source.fillWildcards`: wildcards made concrete on either side of a bound.
-/

namespace AssetBridge.Source

/-- The constraint that every version meets. -/
def anyVersion : Text := "*".toList

/-- The source's word for the newest version. -/
def latest : Text := "latest".toList

/-- What the newest version becomes: the default branch, or any version. -/
def latestConstraint : Text := "default || ".toList ++ anyVersion

/-! ## Wildcards -/

/-- The two sides a version can bound. -/
inductive Side where
  | lower
  | upper
deriving DecidableEq, Repr

/-- The side that a comparator bounds. -/
def Side.ofComparator (s : Text) : Side := if s = ">".toList then .lower else .upper

/-- The number that stands for a wildcard as a lower bound. -/
def leastComponent : Text := "0".toList

/-- The number that stands for a wildcard as an upper bound. -/
def greatestComponent : Text := "9999999".toList

/-- The number that stands for a wildcard on a side. -/
def Side.component : Side → Text
  | .lower => leastComponent
  | .upper => greatestComponent

/-- The wildcards of the source dialect. -/
def isWildcard (c : Char) : Bool := c = '*' || c = 'x' || c = 'X'

/-- The wildcards of a converted version, which has no capital ones. -/
def isSmallWildcard (c : Char) : Bool := c = 'x' || c = '*'

/-- Makes the wildcards of a converted version concrete. -/
def fillWildcards (side : Side) (s : Text) : Text :=
  Text.substitute isSmallWildcard side.component s

/-- Writes zeros for the wildcards of a source version. -/
def zeroWildcards (s : Text) : Text := Text.substitute isWildcard leastComponent s

/-- Whether a text holds a wildcard. -/
def hasWildcard (s : Text) : Bool := s.any isWildcard

/-! ## Date stamps -/

/-- The first number of a component, at three digits or more. -/
def paddedComponent (s : Text) : Except Numeral.Error Text :=
  Numeral.padded 3 <$> Numeral.leading s

/-- **Date version**: behind a stamp of seven or more digits, the first two components are padded
to three digits and written as one, so that their order is that of the numbers. -/
def convertDate (s : Text) : Except Numeral.Error Text :=
  match s.dropWhile Text.isDecimal with
  | '.' :: rest =>
    if 7 ≤ (s.takeWhile Text.isDecimal).length then do
      let parts := Text.fields '.' rest
      let minor ← paddedComponent (parts.headD [])
      let revision ← paddedComponent (parts.tail.headD [])
      return s.takeWhile Text.isDecimal ++ '.' :: (minor ++ revision)
    else return s
  | _ => return s

/-! ## Conversion -/

/-- What opens the name of a development branch. -/
def branchPrefix : Text := "dev-".toList

/-- The single small letter in front of a version, unless it opens a branch name, and the rest. -/
def splitLetter (s : Text) : Text × Text :=
  match s with
  | c :: r => if Text.isSmall c && !Text.startsWith branchPrefix s then ([c], r) else ([], s)
  | [] => ([], [])

/-- **Converted version**: no version is any version, an en dash counts as a hyphen, and a single
letter in front of the version is carried through. -/
def convertVersion (s : Text) : Except Numeral.Error Text :=
  if s.isEmpty then return anyVersion
  else if s = latest then return latestConstraint
  else do
    let (letter, body) := splitLetter (Text.substitute (· = '–') ['-'] s)
    return letter ++ (← convertDate (convertSuffix body))

example : convertVersion "v2.0.0-rc1".toList = .ok "v2.0.0-RC1".toList := rfl
example : convertVersion "20170124.1".toList = .ok "20170124.001000".toList := rfl

end AssetBridge.Source
