import AssetBridge.Numeral
import AssetBridge.Target.Branch
import AssetBridge.Target.Suffix

/-!
# Normal forms

A version of the target grammar has one normal form: four numeric components, or a date, and a
canonical suffix, or the name of a branch behind `dev-`. Aliases, stability flags and build metadata
are left out of it.

## Main definitions

* `Target.VersionError`: why a text is no version.
* `Target.classical?`, `Target.dated?`: the two numeric shapes.
* `Target.normalize`: the normal form.
-/

namespace AssetBridge.Target

/-- Why a text cannot be read as a version. -/
inductive VersionError where
  /-- It has none of the shapes of a version. -/
  | invalid (written : Text)
  /-- One of its numbers cannot be read. -/
  | numeral (cause : Numeral.Error)
deriving DecidableEq, Repr

/-- The wording of an error. -/
def VersionError.message : VersionError → Text
  | .invalid written => "Invalid version string '".toList ++ written ++ "'".toList
  | .numeral _ => "A number of the version has too many digits".toList

/-! ## What is left out -/

/-- Whether a character may stand in the name of an aliased version. -/
def isNameChar (c : Char) : Bool := c != ',' && !Text.isBlank c

/-- The version in front of an alias, `1.0 as 2.0`. -/
def dropAlias (s : Text) : Text :=
  let name := s.takeWhile isNameChar
  let alias? := do
    let r ← Text.dropPrefix? [' '] (s.dropWhile isNameChar)
    let r ← Text.dropPrefix? "as ".toList (r.dropWhile (· = ' '))
    let r := r.dropWhile (· = ' ')
    guard (!name.isEmpty && !(r.takeWhile isNameChar).isEmpty &&
      Text.isFinal (r.dropWhile isNameChar))
  if alias?.isSome then name else s

/-- The stabilities that a flag can name. -/
def flagKeywords : List Text :=
  ["stable".toList, "rc".toList, "beta".toList, "alpha".toList, "dev".toList]

/-- Whether a text is the name of a flag, up to its end. -/
def isFlag (s : Text) : Bool := flagKeywords.any fun k => (Text.dropKeyword? k s).any Text.isFinal

/-- The version in front of a stability flag, `1.0@beta`. -/
def dropFlag : Text → Text
  | [] => []
  | c :: cs => if c = '@' && isFlag cs then [] else c :: dropFlag cs

/-- Whether a character may stand in front of build metadata. -/
def isBuiltChar (c : Char) : Bool := isNameChar c && c != '+'

/-- The version in front of build metadata, `1.0+build`. -/
def dropBuild (s : Text) : Text :=
  match s.dropWhile isBuiltChar with
  | '+' :: r =>
    if !(s.takeWhile isBuiltChar).isEmpty && !(r.takeWhile fun c => !Text.isBlank c).isEmpty &&
        Text.isFinal (r.dropWhile fun c => !Text.isBlank c) then s.takeWhile isBuiltChar
    else s
  | _ => s

/-! ## Numeric versions -/

/-- A point with a number behind it, and what follows. There is none unless the text goes on so. -/
def pointNumber (s : Text) : Option Text × Text :=
  match s with
  | '.' :: r =>
    if (r.takeWhile Text.isDecimal).isEmpty then (none, s)
    else (some ('.' :: r.takeWhile Text.isDecimal), r.dropWhile Text.isDecimal)
  | _ => (none, s)

/-- Further numbers behind points, at most as many as given, and what follows them. -/
def pointNumbers : Nat → Text → List Text × Text
  | 0, s => ([], s)
  | n + 1, s =>
    match pointNumber s with
    | (some digits, r) => (digits.drop 1 :: (pointNumbers n r).1, (pointNumbers n r).2)
    | (none, _) => ([], s)

/-- A component that is missing. -/
def missingComponent : Text := ".0".toList

/-- **Classical versions**: one to four numbers, the first of at most five digits. Missing ones are
zero. -/
def classical? (s : Text) : Option Text :=
  let s := dropVersionLetter s
  let major := s.takeWhile Text.isDecimal
  let (second, r) := pointNumber (s.dropWhile Text.isDecimal)
  let (third, r) := pointNumber r
  let (fourth, r) := pointNumber r
  if major.isEmpty || 5 < major.length then none
  else (suffix? r).map fun suffix =>
    major ++ second.getD missingComponent ++ third.getD missingComponent ++
      fourth.getD missingComponent ++ suffix.render

/-- Whether a character may separate the parts of a date. -/
def isDateSeparator (c : Char) : Bool := c = '.' || c = ':' || c = '-'

/-- The text behind the separator that may open it. -/
def dropDateSeparator (s : Text) : Text :=
  match s with
  | c :: r => if isDateSeparator c then r else s
  | [] => []

/-- What follows `n` digits, when the text opens with that many. -/
def afterDigits? (n : Nat) (s : Text) : Option Text :=
  if n ≤ s.length && (s.take n).all Text.isDecimal then some (s.drop n) else none

/-- Whether a text is at most as many groups as given, of one to three digits each. -/
def isDateTail : Nat → Text → Bool
  | _, [] => true
  | 0, _ :: _ => false
  | n + 1, s =>
    [1, 2, 3].any fun k => (afterDigits? k (dropDateSeparator s)).any (isDateTail n)

/-- Whether a text is one group of two digits or more of them, at most as many as given, and up to
two groups of one to three digits. -/
def isDateBody : Nat → Text → Bool
  | 0, _ => false
  | n + 1, s =>
    (afterDigits? 2 (dropDateSeparator s)).any fun r => isDateTail 2 r || isDateBody n r

/-- Whether a text is a date: a year of four digits and the groups behind it. -/
def isDate (s : Text) : Bool := (afterDigits? 4 s).any (isDateBody 6)

/-- **Dated versions**: a date, whose separators all become points, and a suffix. The date goes on
to the last digit before the suffix. -/
def dated? (s : Text) : Option Text :=
  let s := dropVersionLetter s
  let span := s.takeWhile fun c => Text.isDecimal c || isDateSeparator c
  let date := Text.dropEndWhile (fun c => !Text.isDecimal c) span
  if isDate date then
    (suffix? (s.drop date.length)).map fun suffix =>
      (date.map fun c => if Text.isDecimal c then c else '.') ++ suffix.render
  else none

/-! ## Development versions -/

/-- The text without the line feed that may end it. -/
def dropFinalFeed (s : Text) : Text := if Text.endsWith ['\n'] s then s.dropLast else s

/-- The branch name in front of a final `dev`, on one line, and of the separator between them. -/
def beforeDev? (s : Text) : Option Text :=
  let r := (dropFinalFeed s).reverse
  match Text.dropKeyword? "ved".toList r with
  | some r =>
    let name := (dropOne ['.', '-'] r).reverse
    if '\n' ∈ name then none else some name
  | none => none

/-- A branch in development is a version only when the branch is numeric. -/
def development? (s : Text) : Option Text :=
  match beforeDev? s with
  | some name =>
    if Text.contains branchPrefix (normalizeBranch name) then none else some (normalizeBranch name)
  | none => none

/-! ## The normal form -/

/-- The shape of a version that is no branch name. -/
def numeric? (s : Text) : Option Text := classical? s <|> dated? s <|> development? s

/-- The text with the branch prefix in front of it when it names a default branch. -/
def nameDefault (s : Text) : Text := if Text.isOneOf defaultBranches s then branchPrefix ++ s else s

/-- **Normal form**: branch names keep what stands behind their prefix, whatever its case; every
other version has to be numeric. -/
def normalize (written : Text) : Except VersionError Text :=
  let s := nameDefault (dropFlag (dropAlias (Text.strip written)))
  match Text.dropKeyword? branchPrefix s with
  | some name => .ok (branchPrefix ++ name)
  | none =>
    match numeric? (dropBuild s) with
    | some version => .ok version
    | none => .error (.invalid written)

example : normalize "1.0.0-beta2".toList = .ok "1.0.0.0-beta2".toList := rfl
example : normalize "20170124.5".toList = .ok "20170124.5".toList := rfl

end AssetBridge.Target
