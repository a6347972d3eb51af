import AssetBridge.Target.Normal

/-!
# Versions of the target grammar

A normal form is split into the parts that versions are ordered by: the numbers of the release, the
rank of the stability, and the numbers behind the keyword. A named branch has no place among them
that a comparison would look at.

## Main definitions

* `Target.Place`: the place of a version in the order, which is lexicographic.
* `Target.Version`: a place, or the name of a branch.
* `Version.ofNormal`, `Version.parse`: splitting a normal form, and any text.
* `Version.asDev`: the lowest version of a release.
-/

namespace AssetBridge.Target

/-- The place of a version in the order. -/
structure Place where
  release : List Nat
  rank : Nat
  number : List Nat
deriving DecidableEq, Repr

namespace Place

/-- **The order**: releases first, then stabilities, then the numbers behind the keyword. A list of
numbers comes before every longer one that it opens. -/
instance : LT Place :=
  ⟨fun a b => a.release < b.release ∨
    (a.release = b.release ∧ (a.rank < b.rank ∨ (a.rank = b.rank ∧ a.number < b.number)))⟩

instance (a b : Place) : Decidable (a < b) :=
  inferInstanceAs (Decidable (a.release < b.release ∨
    (a.release = b.release ∧ (a.rank < b.rank ∨ (a.rank = b.rank ∧ a.number < b.number)))))

instance : LE Place := ⟨fun a b => a < b ∨ a = b⟩

instance (a b : Place) : Decidable (a ≤ b) := inferInstanceAs (Decidable (a < b ∨ a = b))

theorem lt_iff {a b : Place} : a < b ↔ a.release < b.release ∨
    (a.release = b.release ∧ (a.rank < b.rank ∨ (a.rank = b.rank ∧ a.number < b.number))) :=
  Iff.rfl

end Place

/-- A version of the target grammar; `branch` is the name of a branch. -/
structure Version where
  place : Place
  branch : Option Text := none
deriving DecidableEq, Repr

namespace Version

/-- How many numbers a release has at least. -/
def releaseLength : Nat := 4

/-- The numbers of a release, filled up with zeros. -/
def padRelease (numbers : List Nat) : List Nat :=
  numbers ++ List.replicate (releaseLength - numbers.length) 0

/-- The place that a branch is given. -/
def branchPlace : Place := ⟨[], Stability.stable.rank, []⟩

/-- The version of a named branch. -/
def ofBranch (name : Text) : Version := ⟨branchPlace, some name⟩

/-- The lowest version of the same release. -/
def asDev (v : Version) : Version :=
  { v with place := { v.place with rank := Stability.dev.rank, number := [] } }

/-- The lowest version of the release with the given numbers. -/
def lowestOf (numbers : List Nat) : Version :=
  ⟨⟨padRelease numbers, Stability.dev.rank, []⟩, none⟩

/-! ## Reading -/

/-- The parts between points, empty ones left out. -/
def pointParts (s : Text) : List Text := Text.words (· = '.') s

/-- A suffix between hyphens: the rank of its keyword and its numbers. A suffix of another shape
says nothing. -/
def suffixPlace? (s : Text) : Option (Nat × Except Numeral.Error (List Nat)) :=
  let keyword := s.takeWhile Text.isLetter
  let numbers := dropOne ['.'] (s.dropWhile Text.isLetter)
  let isNumber := fun c => Text.isDecimal c || c = '.'
  if keyword.isEmpty || !Text.isFinal (numbers.dropWhile isNumber) then none
  else some (Stability.rankOf keyword,
    (pointParts (numbers.takeWhile isNumber)).mapM Numeral.read)

/-- The place of a release behind which the suffixes stand; the last one that says something
counts. -/
def applySuffix (place : Place) (s : Text) : Except Numeral.Error Place :=
  match suffixPlace? s with
  | none => return place
  | some (rank, numbers) => return { place with rank := rank, number := ← numbers }

/-- **Splitting a normal form** into the parts that count in the order. -/
def ofNormal (s : Text) : Except Numeral.Error Version :=
  match Text.dropPrefix? branchPrefix s with
  | some name => return ofBranch name
  | none => do
    let parts := Text.fields '-' s
    let release ← (pointParts (parts.headD [])).mapM Numeral.literal
    let place : Place := ⟨padRelease (release.map Int.toNat), Stability.stable.rank, []⟩
    return ⟨← parts.tail.foldlM applySuffix place, none⟩

/-- **Reading a version**: its normal form, split. -/
def parse (s : Text) : Except VersionError Version := do
  (ofNormal (← normalize s)).mapError .numeral

/-- Whether a version is a named branch. -/
def isBranch (v : Version) : Bool := v.branch.isSome

example : parse "1.0.0-RC2".toList = .ok ⟨⟨[1, 0, 0, 0], 3, [2]⟩, none⟩ := rfl

end Version

end AssetBridge.Target
