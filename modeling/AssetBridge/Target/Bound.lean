import AssetBridge.Target.Version

/-!
# Bounds

A bound compares a version with one it names. Branches are equal or not; they are neither above nor
below anything.

## Main definitions

* `Target.Operator`: the six comparisons.
* `Target.Bound`, `Bound.matches`: a bound and the versions it lets through.
-/

namespace AssetBridge.Target

/-- A comparison. -/
inductive Operator where
  | eq
  | ne
  | lt
  | le
  | gt
  | ge
deriving DecidableEq, Repr

/-- The sign of a comparison. -/
def Operator.sign : Operator → Text
  | .eq => "==".toList
  | .ne => "!=".toList
  | .lt => "<".toList
  | .le => "<=".toList
  | .gt => ">".toList
  | .ge => ">=".toList

/-- The comparisons, in the order in which they are listed. -/
def Operator.all : List Operator := [.eq, .ne, .lt, .le, .gt, .ge]

/-- Whether a comparison holds between two places. -/
def Operator.holds : Operator → Place → Place → Bool
  | .eq, a, b => a = b
  | .ne, a, b => a ≠ b
  | .lt, a, b => a < b
  | .le, a, b => a ≤ b
  | .gt, a, b => b < a
  | .ge, a, b => b ≤ a

/-- Whether a comparison holds where a branch is involved, given that both are the same branch. -/
def Operator.holdsForBranch : Operator → Bool → Bool
  | .eq, same => same
  | .ne, same => !same
  | _, _ => false

/-- A bound: a comparison with a version. -/
structure Bound where
  operator : Operator
  version : Version
deriving DecidableEq, Repr

/-- **Matching**: whether a version meets a bound. -/
def Bound.matches (b : Bound) (v : Version) : Bool :=
  if v.isBranch || b.version.isBranch then b.operator.holdsForBranch (v.branch = b.version.branch)
  else b.operator.holds v.place b.version.place

/-- Between numeric versions only their places count. -/
theorem Bound.matches_of_numeric {b : Bound} {v : Version} (hv : v.branch = none)
    (hb : b.version.branch = none) :
    b.matches v = b.operator.holds v.place b.version.place := by
  simp [Bound.matches, Version.isBranch, hv, hb]

end AssetBridge.Target
