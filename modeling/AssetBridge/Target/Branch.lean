import AssetBridge.Text.Blank
import AssetBridge.Text.Case
import AssetBridge.Text.Digit

/-!
# Branches

A branch of the target grammar is named behind `dev-`. The name of a numeric branch, such as `1.x`,
is a version of its own: the components it leaves open are as large as they get.

## Main definitions

* `Target.branchPrefix`, `Target.defaultBranches`: how branches are told from versions.
* `Target.numericBranch?`: the four components of a numeric branch.
* `Target.normalizeBranch`: the version that a branch name stands for.
-/

namespace AssetBridge.Target

/-- What opens the version of a named branch. -/
def branchPrefix : Text := "dev-".toList

/-- The names under which repositories keep their main branch. -/
def defaultBranches : List Text := ["master".toList, "trunk".toList, "default".toList]

/-- The largest component, which stands for one that is left open. -/
def openComponent : Text := "9999999".toList

/-- The text behind the letter v, small or capital, that may open it. -/
def dropVersionLetter : Text → Text
  | 'v' :: s => s
  | 'V' :: s => s
  | s => s

/-- Whether a character leaves a component of a branch name open. -/
def isOpenMark (c : Char) : Bool := c = 'x' || c = 'X' || c = '*'

/-- A further component of a branch name, with its point, and what follows it. There is none
unless the text goes on with a point and a number or an open mark. -/
def branchComponent (s : Text) : Option Text × Text :=
  match s with
  | '.' :: c :: r =>
    if isOpenMark c then (some ('.' :: openComponent), r)
    else if Text.isDecimal c then
      (some ('.' :: (c :: r).takeWhile Text.isDecimal), (c :: r).dropWhile Text.isDecimal)
    else (none, s)
  | _ => (none, s)

/-- **Numeric branch**: a number behind an optional letter v, and up to three further components.
The result has four components with their points; one that is left open is the largest. -/
def numericBranch? (s : Text) : Option Text :=
  let s := dropVersionLetter s
  let (second, r) := branchComponent (s.dropWhile Text.isDecimal)
  let (third, r) := branchComponent r
  let (fourth, r) := branchComponent r
  if (s.takeWhile Text.isDecimal).isEmpty || !Text.isFinal r then none
  else
    let opened := '.' :: openComponent
    some (s.takeWhile Text.isDecimal ++ second.getD opened ++ third.getD opened ++
      fourth.getD opened)

/-- **Branch version**: the upper end of a numeric branch, marked as being in development, or the
name behind the branch prefix. -/
def normalizeBranch (name : Text) : Text :=
  match numericBranch? (Text.strip name) with
  | some version => version ++ "-dev".toList
  | none => branchPrefix ++ Text.strip name

example : normalizeBranch "v2.0.*".toList = "2.0.9999999.9999999-dev".toList := rfl
example : normalizeBranch " feature/foo".toList = "dev-feature/foo".toList := rfl

end AssetBridge.Target
