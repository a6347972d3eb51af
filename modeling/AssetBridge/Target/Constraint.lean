import AssetBridge.Target.Bound
import AssetBridge.Text.Quoted

/-!
# Constraints

A constraint is a list of alternatives, each a list of bounds that have to hold together. A resolver
must not guess, so a text is a constraint only when every part of it is understood: any version, a
branch, a version with wildcards, a tilde or caret range, or a comparison.

## Main definitions

* `Target.ConstraintError`: why a text is no constraint.
* `Target.parsePart`: the bounds of one part.
* `Target.Constraint`, `Constraint.parse`: the alternatives of a text.
* `Constraint.accepts`, `Constraint.matchesText`: whether a version meets a constraint.
-/

namespace AssetBridge.Target

open Text (inQuotes)

/-- Why a constraint cannot be read or applied. -/
inductive ConstraintError where
  /-- There is nothing to read. -/
  | empty
  /-- An alternative has no part. -/
  | emptyAlternative (whole : Text)
  /-- A part has an unknown shape. -/
  | unrecognized (part : Text)
  /-- What should be a version is none. -/
  | version (cause : VersionError)
  /-- The version in a part of a constraint is none. -/
  | invalidPart (part whole : Text) (cause : VersionError)
  /-- The version to be matched is none. -/
  | cannotMatch (candidate source : Text) (cause : VersionError)
deriving DecidableEq, Repr

/-- The wording of an error. -/
def ConstraintError.message : ConstraintError → Text
  | .empty => "Constraint cannot be empty".toList
  | .emptyAlternative whole => "Empty alternative in constraint ".toList ++ inQuotes whole
  | .unrecognized part => "Unrecognized constraint ".toList ++ inQuotes part
  | .version cause => cause.message
  | .invalidPart part whole cause =>
    "Invalid constraint ".toList ++ inQuotes part ++ " in ".toList ++ inQuotes whole ++
      ": ".toList ++ cause.message
  | .cannotMatch candidate source cause =>
    "Cannot match ".toList ++ inQuotes candidate ++ " against ".toList ++ inQuotes source ++
      ": ".toList ++ cause.message

/-- A number that cannot be read keeps its cause wherever it stands. -/
def readNumber (s : Text) : Except ConstraintError Nat :=
  (Numeral.read s).mapError fun e => .version (.numeral e)

/-- The version that a part names. -/
def readVersion (s : Text) : Except ConstraintError Version := (Version.parse s).mapError .version

/-! ## Numbers with points -/

/-- The text behind a small letter v that may open it. -/
def dropSmallVersionLetter : Text → Text
  | 'v' :: s => s
  | s => s

/-- The numbers that open a version, at most as many as given, and what follows them. -/
def numbers? (most : Nat) (s : Text) : Option (List Text × Text) :=
  let s := dropSmallVersionLetter s
  if (s.takeWhile Text.isDecimal).isEmpty then none
  else
    let (further, r) := pointNumbers (most - 1) (s.dropWhile Text.isDecimal)
    some (s.takeWhile Text.isDecimal :: further, r)

/-! ## Ranges of releases -/

/-- The numbers up to a position, the last one raised. -/
def bump (numbers : List Nat) (position : Nat) : List Nat :=
  numbers.take position ++ [numbers.getD position 0 + 1]

/-- Whether a text is one or more wildcard components, up to its end. -/
def isWildcardTail : Text → Bool
  | '.' :: c :: r => (c = 'x' || c = 'X' || c = '*') && (Text.isFinal r || isWildcardTail r)
  | _ => false

/-- The numbers in front of the wildcards of a version such as `1.2.x`. -/
def wildcardNumbers? (s : Text) : Option (List Text) :=
  match numbers? 3 s with
  | some (numbers, r) => if isWildcardTail r then some numbers else none
  | none => none

/-- The versions of a release prefix: from its lowest one up to the next prefix. -/
def wildcardBounds (numbers : List Nat) : List Bound :=
  [⟨.ge, .lowestOf numbers⟩, ⟨.lt, .lowestOf (bump numbers (numbers.length - 1))⟩]

/-- Whether a text is nothing (`false`) or a hyphen and what it introduces (`true`), on one line and
up to its end. -/
def partialSuffix? (s : Text) : Option Bool :=
  if Text.isFinal s then some false
  else
    match s with
    | '-' :: r =>
      if !(r.takeWhile (· != '\n')).isEmpty && Text.isFinal (r.dropWhile (· != '\n')) then some true
      else none
    | _ => none

/-- The numbers of a version behind a tilde or caret, and whether it has a suffix. -/
def partialVersion? (s : Text) : Option (List Text × Bool) :=
  match numbers? 4 s with
  | some (numbers, r) => (partialSuffix? r).map fun suffixed => (numbers, suffixed)
  | none => none

/-- The position that a tilde range raises: the one before the last, or the first. -/
def tildePosition (numbers : List Nat) : Nat := max 1 (numbers.length - 1) - 1

/-- The position that a caret range raises: the first number that is not zero, or the last, and not
behind the third. -/
def caretPosition (numbers : List Nat) : Nat :=
  min ((numbers.findIdx? (0 < ·)).getD (numbers.length - 1)) 2

/-- The bounds of a range that starts at a version and raises the number at a position. Without a
suffix the range starts at the lowest version of the release. -/
def partialBounds (position : List Nat → Nat) (version part : Text) :
    Except ConstraintError (List Bound) :=
  match partialVersion? version with
  | none => .error (.unrecognized part)
  | some (numbers, suffixed) => do
    let numbers ← numbers.mapM readNumber
    let lower ← readVersion version
    return [⟨.ge, if suffixed then lower else lower.asDev⟩,
      ⟨.lt, .lowestOf (bump numbers (position numbers))⟩]

/-! ## Comparisons -/

/-- The signs that can open a comparison, the longer ones first. -/
def signs : List (Text × Operator) :=
  [("<>".toList, .ne), ("!=".toList, .ne), (">=".toList, .ge), (">".toList, .gt),
    ("<=".toList, .le), ("<".toList, .lt), ("==".toList, .eq), ("=".toList, .eq)]

/-- The word that a text is, behind blanks and up to its end. -/
def word? (s : Text) : Option Text :=
  let r := s.dropWhile Text.isBlank
  let word := r.takeWhile fun c => !Text.isBlank c
  if !word.isEmpty && Text.isFinal (r.dropWhile fun c => !Text.isBlank c) then some word else none

/-- **Comparisons**: the longest sign that leaves a word behind it, and that word. A sign that
leaves none belongs to the word. -/
def comparison? (s : Text) : Option (Operator × Text) :=
  (signs.findSome? fun (sign, operator) =>
    ((Text.dropPrefix? sign s).bind word?).map fun word => (operator, word)) <|>
  (word? s).map fun word => (.eq, word)

/-- Whether a bound without a suffix is one of its release's lowest version. -/
def Operator.startsRelease : Operator → Bool
  | .lt | .ge => true
  | _ => false

/-- The bound of a comparison. `<` and `>=` speak of the lowest version of a release unless the
version has a suffix. -/
def comparisonBound (operator : Operator) (word : Text) : Except ConstraintError Bound := do
  let version ← readVersion word
  let normal ← (normalize word).mapError ConstraintError.version
  return ⟨operator,
    if operator.startsRelease && '-' ∉ normal && !version.isBranch then version.asDev else version⟩

/-! ## Parts -/

/-- The parts that every version meets. -/
def anyParts : List Text := ["*".toList, "x".toList, "X".toList]

/-- **One part** of a constraint, as the bounds it implies. -/
def parsePart (part : Text) : Except ConstraintError (List Bound) :=
  if Text.isOneOf anyParts part then return []
  else if Text.startsWith branchPrefix part then return [⟨.eq, ← readVersion part⟩]
  else
    match part with
    | '~' :: version => partialBounds tildePosition version part
    | '^' :: version => partialBounds caretPosition version part
    | _ =>
      match wildcardNumbers? part with
      | some numbers => return wildcardBounds (← numbers.mapM readNumber)
      | none =>
        match comparison? part with
        | some (operator, word) => return [← comparisonBound operator word]
        | none => .error (.unrecognized part)

/-! ## Whole constraints -/

/-- A constraint with the text it was read from. Alternatives without bounds match every version. -/
structure Constraint where
  source : Text
  alternatives : List (List Bound)
deriving DecidableEq, Repr

namespace Constraint

/-- Splits at single and double bars; `pending` says that a bar has just been passed, which takes a
second one in. -/
def splitBars (pending : Bool) : Text → List Text
  | [] => [[]]
  | c :: cs =>
    if c = '|' then
      if pending then splitBars false cs else [] :: splitBars true cs
    else Text.extendFirst c (splitBars false cs)

/-- Whether a character separates the parts of an alternative. -/
def isPartSeparator (c : Char) : Bool := c = ',' || Text.isBlank c

/-- The error of a part, told with the constraint that it stands in. -/
def locate (part whole : Text) : ConstraintError → ConstraintError
  | .version (.invalid written) => .invalidPart part whole (.invalid written)
  | e => e

/-- The bounds of one alternative. -/
def parseAlternative (whole alternative : Text) : Except ConstraintError (List Bound) :=
  let parts := Text.words isPartSeparator alternative
  if parts.isEmpty then .error (.emptyAlternative whole)
  else List.flatten <$> parts.mapM fun part => (parsePart part).mapError (locate part whole)

/-- **Reading a constraint**: bars separate alternatives, commas and blanks join their parts. -/
def parse (s : Text) : Except ConstraintError Constraint :=
  if (Text.strip s).isEmpty then .error .empty
  else do
    return ⟨s, ← (splitBars false (Text.strip s)).mapM (parseAlternative s)⟩

/-- Whether a version meets one of the alternatives. -/
def accepts (c : Constraint) (v : Version) : Bool :=
  c.alternatives.any fun bounds => bounds.all (·.matches v)

/-- The error of the version that is matched, told with the constraint. -/
def locateVersion (version source : Text) : VersionError → ConstraintError
  | .invalid written => .cannotMatch version source (.invalid written)
  | e => .version e

/-- **Matching**: whether the version that a text names meets a constraint. -/
def matchesText (c : Constraint) (version : Text) : Except ConstraintError Bool :=
  match Version.parse version with
  | .ok v => return c.accepts v
  | .error e => .error (locateVersion version c.source e)

end Constraint

end AssetBridge.Target
