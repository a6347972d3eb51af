import AssetBridge.Npm.Bound

/-!
# Blocks of a range

A block is an operator and a version whose last numbers may be missing or wild, such as `^1.2`,
`>=1.x` or `1.2.3-rc.1`. It stands for one or two bounds.

## Main definitions

* `Npm.Sign`: the operators of a block.
* `Npm.Block`, `Npm.Block.scan?`: the shape of a block.
* `Npm.Block.bounds?`: the bounds that a block stands for.
-/

namespace AssetBridge.Npm

/-- The operator of a block. -/
inductive Sign where
  | eq
  | lt
  | le
  | gt
  | ge
  | caret
  | tilde
deriving DecidableEq, Repr

/-- The operator that opens a block, and what follows it. No operator is a demand for equality. -/
def Sign.split : Text → Sign × Text
  | '<' :: '=' :: s => (.le, s)
  | '<' :: s => (.lt, s)
  | '>' :: '=' :: s => (.ge, s)
  | '>' :: s => (.gt, s)
  | '=' :: s => (.eq, s)
  | '^' :: s => (.caret, s)
  | '~' :: s => (.tilde, s)
  | s => (.eq, s)

/-- Whether an operator makes sense without a major number. -/
def Sign.allowsAny : Sign → Bool
  | .eq | .ge => true
  | _ => false

/-- A block. A number that is missing or wild is `none`; the others are kept as digits. -/
structure Block where
  sign : Sign
  major : Option Text
  minor : Option Text := none
  patch : Option Text := none
  prerelease : Text := []
  build : Text := []
deriving DecidableEq, Repr

namespace Block

/-! ## The shape of a block -/

/-- A component: a wildcard, or digits without leading zeros. -/
def component? : Text → Option (Option Text × Text)
  | [] => none
  | c :: s =>
    if c = 'x' || c = 'X' || c = '*' then some (none, s)
    else if c = '0' then some (some ['0'], s)
    else if c.isDigit then some (some (c :: s.takeWhile Char.isDigit), s.dropWhile Char.isDigit)
    else none

/-- A component behind a point. Without the point there is none. -/
def furtherComponent? (s : Text) : Option (Option Text × Text) :=
  match Text.dropPrefix? ['.'] s with
  | none => some (none, s)
  | some r => component? r

/-- What stands behind a sign, and what follows it. -/
def suffix (sign : Char) (s : Text) : Text × Text :=
  match Text.dropPrefix? [sign] s with
  | none => ([], s)
  | some r => (r.takeWhile Version.isSectionChar, r.dropWhile Version.isSectionChar)

/-- **Scanning**: the block that a text is. -/
def scan? (s : Text) : Option Block := do
  let (sign, s) := Sign.split (Text.trimPrefix ['v'] s)
  let (major, s) ← component? s
  let (minor, s) ← furtherComponent? s
  let (patch, s) ← furtherComponent? s
  let (prerelease, s) := suffix '-' s
  let (build, s) := suffix '+' s
  guard (Text.isFinal s)
  return { sign, major, minor, patch, prerelease, build }

/-! ## The bounds of a block -/

/-- A number, when its digits can be read. -/
def number? (digits : Text) : Option Nat := (Numeral.read digits).toOption

/-- The identifiers of a suffix. -/
def identifiers (suffix : Text) : List Text := if suffix.isEmpty then [] else Text.fields '.' suffix

/-- A bound on releases. -/
def onRelease (comparison : Comparison) (r : Release) : Bound := ⟨comparison, ⟨r, [], []⟩, false⟩

/-- The bounds of a block that names the releases from `first` on and before `next`. A tilde keeps
to these releases as equality does, and a caret to those before `caretEnd`. -/
def openBounds (sign : Sign) (first next caretEnd : Release) : List Bound :=
  match sign with
  | .eq | .tilde => [onRelease .ge first, onRelease .lt next]
  | .caret => [onRelease .ge first, onRelease .lt caretEnd]
  | .gt => [onRelease .ge next]
  | .ge => [onRelease .ge first]
  | .lt => [onRelease .lt first]
  | .le => [onRelease .lt next]

/-- The end of a caret range: the next release that raises the first number that is not zero. -/
def caretEnd (r : Release) : Release :=
  if 0 < r.major then r.nextMajor else if 0 < r.minor then r.nextMinor else r.nextPatch

/-- The end of a tilde range: the next minor number. A prerelease of the first release of a minor
number comes before that number. -/
def tildeEnd (v : Version) : Release :=
  if !v.prerelease.isEmpty && v.release.patch = 0 then v.release else v.release.nextMinor

/-- The bounds of a block that names a version. -/
def versionBounds (sign : Sign) (v : Version) : List Bound :=
  match sign with
  | .eq => [⟨.eq, v, false⟩]
  | .lt => [⟨.lt, v, false⟩]
  | .le => [⟨.le, v, false⟩]
  | .gt => [⟨.gt, v, false⟩]
  | .ge => [⟨.ge, v, false⟩]
  | .caret => [⟨.ge, v, false⟩, onRelease .lt (caretEnd v.release)]
  | .tilde => [⟨.ge, v, false⟩, onRelease .lt (tildeEnd v)]

/-- The build data that counts: only equality looks at it. -/
def countedBuild (b : Block) : Text := if b.sign = .eq then b.build else []

/-- **The bounds** that a block stands for. Only a block with all three numbers has a suffix. -/
def bounds? (b : Block) : Option (List Bound) := do
  let major ← b.major.mapM number?
  let minor ← b.minor.mapM number?
  let patch ← b.patch.mapM number?
  match major, minor, patch with
  | some major, some minor, some patch =>
    let prerelease ← (identifiers b.prerelease).mapM Identifier.parse?
    let build ← (identifiers b.countedBuild).mapM Version.buildIdentifier?
    return versionBounds b.sign ⟨⟨major, minor, patch⟩, prerelease, build⟩
  | _, _, _ =>
    guard (b.prerelease.isEmpty && b.countedBuild.isEmpty)
    match major, minor with
    | none, _ =>
      guard b.sign.allowsAny
      return [onRelease .ge ⟨0, 0, 0⟩]
    | some major, none =>
      let first : Release := ⟨major, 0, 0⟩
      return openBounds b.sign first first.nextMajor first.nextMajor
    | some major, some minor =>
      let first : Release := ⟨major, minor, 0⟩
      return openBounds b.sign first first.nextMinor
        (if 0 < major then first.nextMajor else first.nextMinor)

end Block

end AssetBridge.Npm
