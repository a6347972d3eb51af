import AssetBridge.Stability
import AssetBridge.Text.Digit

/-!
# Version suffixes

A source version may carry a suffix behind its numbers: a prerelease keyword, glued on or behind a
hyphen, or build metadata behind a plus sign. The target grammar knows one shape, a hyphen, a
stability keyword and a number, and every suffix is folded into it: `1.2.3beta` becomes
`1.2.3-beta1`, `1.2.3+build2012` becomes `1.2.3-patch2012`.

## Main definitions

* `Source.versionHead?`: the one to three components in front of a suffix.
* `Source.firstNumber?`: the number a suffix keeps.
* `Source.collapseWildcards`: one `.x` for a run of them.
* `Source.convertSuffix`: a version with its suffix converted.
-/

namespace AssetBridge.Source

/-! ## The head of a version -/

/-- A component of a version, a number or a wildcard, and what follows it. -/
def component? (s : Text) : Option (Text × Text) :=
  match s with
  | 'x' :: r => some (['x'], r)
  | '*' :: r => some (['*'], r)
  | _ =>
    if (s.takeWhile Char.isDigit).isEmpty then none
    else some (s.takeWhile Char.isDigit, s.dropWhile Char.isDigit)

/-- Whether a suffix starts here: a letter, or a hyphen or plus sign before a letter or digit. -/
def opensSuffix : Text → Bool
  | [] => false
  | c :: r => Text.isLetter c ||
    ((c = '-' || c = '+') && (r.head?.any fun d => Text.isLetter d || d.isDigit))

/-- The components, at most as many as given, in front of a suffix, and the suffix. -/
def headUpTo : Nat → Text → Option (Text × Text)
  | 0, _ => none
  | n + 1, s =>
    match component? s with
    | none => none
    | some (c, r) =>
      if opensSuffix r then some (c, r)
      else
        match r with
        | '.' :: r => (headUpTo n r).map fun (head, suffix) => (c ++ '.' :: head, suffix)
        | _ => none

/-- **Head of a version**: the one to three components in front of its suffix, and the suffix. A
version without a suffix has no head. -/
def versionHead? (s : Text) : Option (Text × Text) := headUpTo 3 s

/-! ## The number of a suffix -/

/-- A point and the digits behind it. -/
def fraction : Text → Text
  | '.' :: r => if (r.takeWhile Char.isDigit).isEmpty then [] else '.' :: r.takeWhile Char.isDigit
  | _ => []

/-- **First number**: the first run of digits with its fraction; at the very end of the text a
fraction alone will do. -/
def firstNumber? : Text → Option Text
  | [] => none
  | c :: cs =>
    if c.isDigit then
      some (c :: cs.takeWhile Char.isDigit ++ fraction (cs.dropWhile Char.isDigit))
    else if c = '.' && !(cs.takeWhile Char.isDigit).isEmpty &&
        Text.isFinal (cs.dropWhile Char.isDigit) then
      some ('.' :: cs.takeWhile Char.isDigit)
    else firstNumber? cs

/-! ## Wildcard runs -/

/-- Two wildcard components in a row. -/
def wildcardPair : Text := ".x.x".toList

/-- One pass: pairs that do not overlap become single wildcards. -/
def collapseOnce (s : Text) : Text := Text.replaceAll wildcardPair ".x".toList s

/-- Passes, at most as many as given, as long as a pair is left. -/
def collapseWithin : Nat → Text → Text
  | 0, s => s
  | n + 1, s => if Text.contains wildcardPair s then collapseWithin n (collapseOnce s) else s

/-- **Collapsed wildcards**: repeated passes until no pair is left. A pass that finds a pair
shortens the text, so there are never more passes than characters. -/
def collapseWildcards (s : Text) : Text := collapseWithin s.length s

/-! ## The converted suffix -/

/-- The endings that registries append to the versions of packages they copy. -/
def registryMarkers : List Text := ["-npm-packages".toList, "-bower-packages".toList]

/-- The version without registry markers. -/
def dropRegistryMarkers (s : Text) : Text :=
  registryMarkers.foldl (fun t marker => Text.replaceAll marker [] t) s

/-- The suffix without the sign in front of it. -/
def dropSuffixSign : Text → Text
  | '-' :: s => s
  | '+' :: s => s
  | s => s

/-- The suffix in the target grammar, for one in small letters without its sign. A suffix that
needs a number and has none is numbered one. -/
def targetSuffix (s : Text) : Text :=
  let (stability, numbered) := Stability.classify (Stability.normalizeKeyword
    (s.takeWhile Text.isSmall))
  stability ++
    (if numbered then (firstNumber? (s.dropWhile Text.isSmall)).getD ['1'] else [])

/-- **Converted suffix**: the head, a hyphen and the suffix of the target grammar. A version
without a head is left as it is, up to its markers and wildcard runs. -/
def convertSuffix (s : Text) : Text :=
  let s := dropRegistryMarkers s
  collapseWildcards <|
    match versionHead? s with
    | none => s
    | some (head, _) =>
      head ++ '-' :: targetSuffix (dropSuffixSign ((Text.lower s).drop head.length))

example : convertSuffix "1.2.3beta".toList = "1.2.3-beta1".toList := by decide +kernel
example : convertSuffix "1.x.x-SNAPSHOT.5".toList = "1.x-dev".toList := by decide +kernel

end AssetBridge.Source
