import AssetBridge.Asset.Dependency
import AssetBridge.Source.Range

/-!
# Requirements

The dependencies of a manifest become a table of requirements. Each entry is converted on its own
and contributes at most one requirement and at most one repository; a requirement that is written
again keeps its place and takes the new constraint.

## Main definitions

* `Asset.Contribution`, `Asset.convertEntry`: what one entry contributes.
* `Asset.Requirements`, `Requirements.ofContributions`: what all of them add up to.
* `Asset.convertDependencies`: the requirements of a map of dependencies.
-/

namespace AssetBridge.Asset

/-- What an entry contributes: the constraint on a package, and the repository that serves it. -/
structure Contribution where
  requirement : Option (Text × Text) := none
  repository : Option SideRepository := none
deriving DecidableEq, Repr

/-- The constraints on packages, and the repositories in which to look for them. -/
structure Requirements where
  require : Table Text := []
  repositories : List SideRepository := []
deriving DecidableEq, Repr

namespace Requirements

/-- Adds what one entry contributes. -/
def add (r : Requirements) (c : Contribution) : Requirements where
  require := r.require.insertAll c.requirement.toList
  repositories := r.repositories ++ c.repository.toList

/-- **What all entries add up to.** -/
def ofContributions (cs : List Contribution) : Requirements := cs.foldl add {}

/-- Lists of contributions may be added part by part. -/
theorem ofContributions_append (a b : List Contribution) :
    ofContributions (a ++ b) = b.foldl add (ofContributions a) := by
  simp [ofContributions]

end Requirements

/-- What a resolved dependency contributes. A constraint that restates the name is no requirement,
but its repository stays. -/
def contribution (kind : Kind) (d : Resolved) (constraint : Text) : Contribution where
  requirement :=
    if Text.startsWith d.name constraint then none
    else some (kind.vendorPrefix ++ d.name, constraint)
  repository := d.repository

/-- **One entry**: resolved, converted and moved into the namespace of its kind. A value that is no
text contributes nothing. -/
def convertEntry (context : Context) : Text × Json → Trail Numeral.Error Contribution
  | (name, .str specifier) => do
    let d ← resolve context ⟨name, specifier⟩
    let constraint ← Trail.ofExcept (Source.convertRange d.version)
    Trail.noteWhen (Text.startsWith d.name constraint) (.dropped d.name constraint)
    return contribution context.kind d constraint
  | (name, value) => do
    Trail.note (.skipped name value)
    return {}

/-- **All entries**, in their order. -/
def convertDependencies (context : Context) (dependencies : Table Json) :
    Trail Numeral.Error Requirements :=
  Requirements.ofContributions <$> dependencies.mapM (convertEntry context)

end AssetBridge.Asset
