import AssetBridge.Log.Trail
import AssetBridge.Npm.Range
import AssetBridge.Source.Range
import AssetBridge.Target.Constraint

/-!
# Agreement

A range and the constraint for it are held against each other on concrete versions: the range by the
rules of the npm dialect, the constraint by those of the target grammar.

## Main definitions

* `Agreement.Verdict`, `Agreement.Report`: how one version fares, and all of them.
* `checkRange`: the report on a range.
-/

namespace AssetBridge

namespace Agreement

/-- Why a range cannot be checked. -/
inductive Error where
  /-- A number is beyond the digit limit. -/
  | numeral (cause : Numeral.Error)
  /-- The converted range is no constraint, or a version is none of the target grammar. -/
  | constraint (cause : Target.ConstraintError)
  /-- The range or a version is none of the npm dialect. -/
  | npm (cause : Npm.Error)
deriving DecidableEq, Repr

/-- How a version fares under a range and under the constraint for it. -/
structure Verdict where
  version : Text
  source : Bool
  target : Bool
deriving DecidableEq, Repr

/-- Whether the two sides agree. -/
def Verdict.agrees (v : Verdict) : Bool := v.source = v.target

/-- A range, the constraint for it and the verdicts on some versions. -/
structure Report where
  range : Text
  constraint : Text
  verdicts : List Verdict
deriving DecidableEq, Repr

/-- Whether the two sides agree everywhere. -/
def Report.isConsistent (r : Report) : Bool := r.verdicts.all (·.agrees)

/-- The verdict on one version; the range is asked before the constraint. -/
def judge (range : Text) (c : Target.Constraint) (version : Text) : Except Error Verdict := do
  let source ← (Npm.Range.matchesText range version).mapError .npm
  let target ← (c.matchesText version).mapError .constraint
  return ⟨version, source, target⟩

/-- The verdict on one version, with an event when the two sides disagree. -/
def judgeAloud (range : Text) (c : Target.Constraint) (version : Text) : Trail Error Verdict := do
  let verdict ← Trail.ofExcept (judge range c version)
  Trail.noteWhen (!verdict.agrees) (.disagreement range c.source version)
  return verdict

@[simp] theorem outcome_judgeAloud (range : Text) (c : Target.Constraint) (version : Text) :
    (judgeAloud range c version).outcome = judge range c version := by
  rw [judgeAloud, Trail.outcome_bind, Trail.outcome_ofExcept]
  cases judge range c version with
  | error e => rfl
  | ok v => rfl

end Agreement

/-- The constraint that a range is converted into. -/
def constraintFor (range : Text) : Except Agreement.Error Target.Constraint := do
  let converted ← (Source.convertRange range).mapError .numeral
  (Target.Constraint.parse converted).mapError .constraint

/-- **Checking** a range on some versions. -/
def checkRange (range : Text) (versions : List Text) :
    Trail Agreement.Error Agreement.Report := do
  let c ← Trail.ofExcept (constraintFor range)
  return ⟨range, c.source, ← versions.mapM (Agreement.judgeAloud range c)⟩

end AssetBridge
