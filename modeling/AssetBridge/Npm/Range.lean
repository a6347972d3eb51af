import AssetBridge.Npm.Block

/-!
# Ranges of the npm dialect

Double bars separate the alternatives of a range. An alternative is a hyphen range or a list of
blocks between single blanks; it holds when all its bounds do, where a bound on a prerelease counts
twice: once for the prereleases of its release, once for everything else.

## Main definitions

* `Npm.Alternative`, `Npm.Alternative.parse`: the bounds of one alternative.
* `Npm.Range`, `Npm.Range.parse`, `Npm.Range.accepts`: a range and the versions it accepts.
-/

namespace AssetBridge.Npm

/-! ## Alternatives -/

/-- The bounds of an alternative: those for the prereleases of the releases it names, when it names
any, and those for all other versions. -/
structure Alternative where
  onPrereleases : List Bound
  onReleases : List Bound
deriving DecidableEq, Repr

/-- The release of a bound's target, to be compared in the same way. -/
def Bound.truncated (b : Bound) : Bound := ⟨b.comparison, ⟨b.target.release, [], []⟩, false⟩

/-- What keeps prereleases near the target of a bound: a lower bound stays below the next release,
an upper bound above the first release of its minor number. -/
def Bound.fence (b : Bound) : List Bound :=
  match b.comparison with
  | .gt | .ge => [⟨.lt, ⟨b.target.release.nextPatch, [], []⟩, true⟩]
  | .lt | .le => [⟨.ge, ⟨⟨b.target.release.major, b.target.release.minor, 0⟩, [], []⟩, true⟩]
  | .eq => []

namespace Alternative

/-- Whether the target of a bound is a prerelease. -/
def namesPrerelease (b : Bound) : Bool := !b.target.prerelease.isEmpty

/-- The alternative that a list of bounds makes. -/
def ofBounds (bounds : List Bound) : Alternative where
  onPrereleases := (bounds.filter namesPrerelease).flatMap fun b => b.fence ++ [b]
  onReleases := bounds.map fun b => if namesPrerelease b then b.truncated else b

/-- **Acceptance**: whether a version meets an alternative. -/
def accepts (a : Alternative) (v : Version) : Bool :=
  (!a.onPrereleases.isEmpty && a.onPrereleases.all (·.matches v)) || a.onReleases.all (·.matches v)

/-- Without a prerelease among the targets all bounds have to hold. -/
theorem accepts_ofBounds {bounds : List Bound} (h : ∀ b ∈ bounds, b.target.prerelease = [])
    (v : Version) : (ofBounds bounds).accepts v = bounds.all (·.matches v) := by
  have hn : ∀ b ∈ bounds, namesPrerelease b = false := fun b hb => by
    simp [namesPrerelease, h b hb]
  have hf : bounds.filter namesPrerelease = [] := List.filter_eq_nil_iff.2 fun b hb => by
    simp [hn b hb]
  have hm : bounds.map (fun b => if namesPrerelease b then b.truncated else b) = bounds := by
    conv => rhs; rw [← List.map_id bounds]
    exact List.map_congr_left fun b hb => by simp [hn b hb]
  simp [accepts, ofBounds, hf, hm]

/-! ## Reading -/

/-- The mark between the two sides of a hyphen range. -/
def hyphen : Text := " - ".toList

/-- The range of an alternative that is empty. -/
def anyVersion : Text := ">=0.0.0".toList

/-- The bounds of a block of the range `whole`. -/
def blockBounds (whole block : Text) : Except Error (List Bound) :=
  match (Block.scan? block).bind Block.bounds? with
  | some bounds => return bounds
  | none => .error (.range whole)

/-- The bounds of one side of a hyphen range. -/
def sideBounds (whole side : Text) : Except Error (List Bound) :=
  if (Block.scan? side).isNone then .error (.hyphenSide side) else blockBounds whole side

/-- The bounds of an alternative of the range `whole`. -/
def readBounds (whole s : Text) : Except Error (List Bound) :=
  if Text.contains hyphen s then
    match Text.pieces hyphen s with
    | [low, high] => do
      let lower ← sideBounds whole ('>' :: '=' :: low)
      return lower ++ (← sideBounds whole ('<' :: '=' :: high))
    | _ => .error (.range whole)
  else List.flatten <$> (Text.fields ' ' s).mapM (blockBounds whole)

/-- **Reading** an alternative of the range `whole`. -/
def parse (whole s : Text) : Except Error Alternative :=
  let s := Text.strip s
  ofBounds <$> readBounds whole (if s.isEmpty then anyVersion else s)

end Alternative

/-! ## Ranges -/

/-- A range: its alternatives. -/
abbrev Range := List Alternative

namespace Range

/-- **Reading** a range. -/
def parse (s : Text) : Except Error Range :=
  (Text.pieces "||".toList s).mapM (Alternative.parse s)

/-- **Acceptance**: whether a version meets one of the alternatives. -/
def accepts (r : Range) (v : Version) : Bool := r.any (·.accepts v)

/-- Whether the version that a text names meets the range that a text is. The range is read
first. -/
def matchesText (range version : Text) : Except Error Bool := do
  let range ← parse range
  return range.accepts (← Version.parse version)

example : matchesText "^1.2.3 || 3.x".toList "3.4.5".toList = .ok true := rfl
example : matchesText "1.2 - 2".toList "2.1.0".toList = .ok true := rfl

end Range

end AssetBridge.Npm
