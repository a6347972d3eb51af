import AssetBridge.Numeral
import AssetBridge.Text.Quoted

/-!
# Versions of the npm dialect

Source ranges speak of versions with three numbers, a prerelease and build data. This reading of
them is independent of the conversion, so that the two can be held against each other.

## Main definitions

* `Npm.Release`, `Npm.Identifier`, `Npm.Version`: the parts of a version.
* `Npm.Version.parse`: reading a version; a small letter v may stand in front.
* `Npm.Version.text`: writing it.
* The orders `<` and `≤` on versions, which disregard build data.
-/

namespace AssetBridge.Npm

/-- Why an npm version or range cannot be used. -/
inductive Error where
  /-- The text is no version. -/
  | version (written : Text)
  /-- The text is no range. -/
  | range (written : Text)
  /-- A side of a hyphen range does not have the shape of a block. -/
  | hyphenSide (written : Text)
deriving DecidableEq, Repr

/-- The wording of an error. -/
def Error.message : Error → Text
  | .version written => "Invalid semver version: ".toList ++ Text.quoted written
  | .range written => "Invalid npm range: ".toList ++ Text.quoted written
  | .hyphenSide written => "Not a side of a hyphen range: ".toList ++ Text.quoted written

/-! ## Releases -/

/-- The three numbers of a version. -/
structure Release where
  major : Nat
  minor : Nat
  patch : Nat
deriving DecidableEq, Repr

namespace Release

/-- Releases are ordered by their numbers from left to right. -/
instance : LT Release :=
  ⟨fun a b => a.major < b.major ∨ (a.major = b.major ∧
    (a.minor < b.minor ∨ (a.minor = b.minor ∧ a.patch < b.patch)))⟩

instance (a b : Release) : Decidable (a < b) :=
  inferInstanceAs (Decidable (a.major < b.major ∨ (a.major = b.major ∧
    (a.minor < b.minor ∨ (a.minor = b.minor ∧ a.patch < b.patch)))))

theorem lt_iff {a b : Release} : a < b ↔ a.major < b.major ∨ (a.major = b.major ∧
    (a.minor < b.minor ∨ (a.minor = b.minor ∧ a.patch < b.patch))) :=
  Iff.rfl

/-- The first release with the next major number. -/
def nextMajor (r : Release) : Release := ⟨r.major + 1, 0, 0⟩

/-- The first release with the next minor number. -/
def nextMinor (r : Release) : Release := ⟨r.major, r.minor + 1, 0⟩

/-- The next release. -/
def nextPatch (r : Release) : Release := ⟨r.major, r.minor, r.patch + 1⟩

end Release

/-! ## Prereleases -/

/-- An identifier of a prerelease. -/
inductive Identifier where
  | number (n : Nat)
  | name (s : Text)
deriving DecidableEq, Repr

namespace Identifier

/-- Whether one identifier comes before another: numbers by value, names letter by letter, and every
number before every name. -/
def Before : Identifier → Identifier → Prop
  | number m, number n => m < n
  | number _, name _ => True
  | name _, number _ => False
  | name s, name t => s < t

instance : LT Identifier := ⟨Before⟩

instance : (a b : Identifier) → Decidable (a < b)
  | number m, number n => inferInstanceAs (Decidable (m < n))
  | number _, name _ => inferInstanceAs (Decidable True)
  | name _, number _ => inferInstanceAs (Decidable False)
  | name s, name t => inferInstanceAs (Decidable (s < t))

/-- The text of an identifier. -/
def text : Identifier → Text
  | number n => Numeral.digits n
  | name s => s

/-- Reads an identifier. A number has no leading zero. -/
def parse? (s : Text) : Option Identifier :=
  if s.isEmpty then none
  else if s.all Text.isDecimal then
    if s.head? = some '0' ∧ s ≠ ['0'] then none else number <$> (Numeral.read s).toOption
  else some (name s)

end Identifier

/-- Whether a prerelease comes before another. Every prerelease comes before none at all, and one
that opens another comes before it. -/
def Precedes : List Identifier → List Identifier → Prop
  | [], _ => False
  | _ :: _, [] => True
  | a :: as, b :: bs => a :: as < b :: bs

instance : (p q : List Identifier) → Decidable (Precedes p q)
  | [], _ => inferInstanceAs (Decidable False)
  | _ :: _, [] => inferInstanceAs (Decidable True)
  | a :: as, b :: bs => inferInstanceAs (Decidable (a :: as < b :: bs))

/-! ## Versions -/

/-- A version of the npm dialect. -/
structure Version where
  release : Release
  prerelease : List Identifier := []
  build : List Text := []
deriving DecidableEq, Repr

namespace Version

/-- **Precedence**: releases first, then prereleases. Build data has no say. -/
instance : LT Version :=
  ⟨fun a b => a.release < b.release ∨
    (a.release = b.release ∧ Precedes a.prerelease b.prerelease)⟩

instance (a b : Version) : Decidable (a < b) :=
  inferInstanceAs (Decidable (a.release < b.release ∨
    (a.release = b.release ∧ Precedes a.prerelease b.prerelease)))

/-- A version is at most another when it comes before it or differs in its build data only. -/
instance : LE Version :=
  ⟨fun a b => a < b ∨ (a.release = b.release ∧ a.prerelease = b.prerelease)⟩

instance (a b : Version) : Decidable (a ≤ b) :=
  inferInstanceAs (Decidable (a < b ∨ (a.release = b.release ∧ a.prerelease = b.prerelease)))

theorem lt_iff {a b : Version} : a < b ↔ a.release < b.release ∨
    (a.release = b.release ∧ Precedes a.prerelease b.prerelease) :=
  Iff.rfl

/-- Between releases without prerelease only the numbers count. -/
theorem lt_iff_of_releases {a b : Version} (ha : a.prerelease = []) :
    a < b ↔ a.release < b.release := by
  simp [lt_iff, ha, Precedes]

/-! ## Writing -/

/-- A sign and identifiers between points, or nothing when there are none. -/
def signed (sign : Char) (identifiers : List Text) : Text :=
  if identifiers.isEmpty then [] else sign :: Text.join ['.'] identifiers

/-- **Writing** a version. -/
def text (v : Version) : Text :=
  Numeral.digits v.release.major ++ '.' :: Numeral.digits v.release.minor ++
    '.' :: Numeral.digits v.release.patch ++
    signed '-' (v.prerelease.map Identifier.text) ++ signed '+' v.build

/-! ## Reading -/

/-- The number without leading zeros that opens a text, and what follows its digits. -/
def number? (s : Text) : Option (Nat × Text) :=
  let digits := s.takeWhile Text.isDecimal
  if digits.isEmpty ∨ (digits.head? = some '0' ∧ digits ≠ ['0']) then none
  else (Numeral.read digits).toOption.map fun n => (n, s.dropWhile Text.isDecimal)

/-- The three numbers that open a text, and what follows them. -/
def release? (s : Text) : Option (Release × Text) := do
  let (major, s) ← number? s
  let (minor, s) ← number? (← Text.dropPrefix? ['.'] s)
  let (patch, s) ← number? (← Text.dropPrefix? ['.'] s)
  return (⟨major, minor, patch⟩, s)

/-- The characters of identifiers and of the points between them. -/
def isSectionChar (c : Char) : Bool := c.isAlphanum || c = '-' || c = '.'

/-- The identifiers behind a sign, and what follows them; without the sign there are none. -/
def identifiers? (sign : Char) (s : Text) : Option (List Text × Text) :=
  match Text.dropPrefix? [sign] s with
  | none => some ([], s)
  | some r =>
    let identifiers := Text.fields '.' (r.takeWhile isSectionChar)
    if identifiers.any List.isEmpty then none
    else some (identifiers, r.dropWhile isSectionChar)

/-- An identifier of build data. A number may have leading zeros, but it has to be readable. -/
def buildIdentifier? (s : Text) : Option Text :=
  if s.isEmpty || s.all Text.isDecimal && Numeral.maxDigits < s.length then none else some s

/-- The version that a text is. -/
def parse? (s : Text) : Option Version := do
  let (release, s) ← release? (Text.trimPrefix ['v'] s)
  let (prerelease, s) ← identifiers? '-' s
  let (build, s) ← identifiers? '+' s
  guard (Text.isFinal s)
  return ⟨release, ← prerelease.mapM Identifier.parse?, ← build.mapM buildIdentifier?⟩

/-- **Reading** a version. -/
def parse (s : Text) : Except Error Version :=
  match parse? s with
  | some v => return v
  | none => .error (.version s)

example : parse "v1.2.3-rc.1+x".toList =
    .ok ⟨⟨1, 2, 3⟩, [.name "rc".toList, .number 1], ["x".toList]⟩ := rfl

example : text ⟨⟨1, 2, 3⟩, [.name "rc".toList, .number 1], ["x".toList]⟩ =
    "1.2.3-rc.1+x".toList := rfl

end Version

end AssetBridge.Npm
