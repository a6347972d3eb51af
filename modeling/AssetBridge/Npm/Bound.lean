import AssetBridge.Npm.Version

/-!
# Bounds of the npm dialect

A bound compares a version with its target. A prerelease is let through only when it belongs to the
very release that the target names, unless the bound admits prereleases of every release.

## Main definitions

* `Npm.Comparison`: the five comparisons.
* `Npm.Bound`, `Npm.Bound.matches`: a bound and the versions it lets through.
-/

namespace AssetBridge.Npm

/-- A comparison. -/
inductive Comparison where
  | eq
  | lt
  | le
  | gt
  | ge
deriving DecidableEq, Repr

/-- Whether a comparison holds between two versions. -/
def Comparison.holds : Comparison → Version → Version → Bool
  | .eq, a, b => a = b
  | .lt, a, b => a < b
  | .le, a, b => a ≤ b
  | .gt, a, b => b < a
  | .ge, a, b => b ≤ a

/-- A bound: a comparison with a target. -/
structure Bound where
  comparison : Comparison
  target : Version
  /-- Whether prereleases of every release may pass. -/
  anyPrerelease : Bool := false
deriving DecidableEq, Repr

/-- The version as a bound sees it: without build data, unless the target has some. -/
def Bound.view (b : Bound) (v : Version) : Version :=
  if b.target.build.isEmpty then { v with build := [] } else v

/-- Whether a bound lets a version take part in the comparison. -/
def Bound.admits (b : Bound) (v : Version) : Bool :=
  v.prerelease.isEmpty || b.anyPrerelease || v.release = b.target.release

/-- **Matching**: whether a version meets a bound. -/
def Bound.matches (b : Bound) (v : Version) : Bool :=
  b.admits v && b.comparison.holds (b.view v) b.target

/-- A version without prerelease and build data is only compared. -/
theorem Bound.matches_of_release (b : Bound) (r : Release) :
    b.matches ⟨r, [], []⟩ = b.comparison.holds ⟨r, [], []⟩ b.target := by
  simp [Bound.matches, Bound.admits, Bound.view]

end AssetBridge.Npm
