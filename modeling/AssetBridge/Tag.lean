import AssetBridge.Source.Version
import AssetBridge.Target.Normal

/-!
# Tags and branches

A name found in a repository is a tag when it is a version of the source dialect whose conversion
has a normal form. The names of default branches are never tags. A branch whose version is an upper
end of a numeric one cannot serve as a branch name.

## Main definitions

* `validateTag`: the normal form of a tag.
* `validateBranch`: the version of a branch that is not numeric.
-/

namespace AssetBridge

/-- **Tags**: the normal form of the converted version, if the name is a tag. -/
def validateTag (tag : Text) : Except Numeral.Error (Option Text) :=
  if Text.isOneOf Target.defaultBranches tag then return none
  else do return (Target.normalize (← Source.convertVersion tag)).toOption

/-- The end of the versions of numeric branches that leave their last component open. -/
def openBranchMark : Text := '.' :: Target.openComponent ++ "-dev".toList

/-- **Branches**: the version of a branch, unless it is that of an open numeric one. -/
def validateBranch (branch : Text) : Option Text :=
  if Text.contains openBranchMark (Target.normalizeBranch branch) then none
  else some (Target.normalizeBranch branch)

end AssetBridge
