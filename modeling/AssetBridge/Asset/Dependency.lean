import AssetBridge.Asset.Host
import AssetBridge.Asset.Kind
import AssetBridge.Log.Trail
import AssetBridge.Tag

/-!
# Dependencies

A manifest gives a dependency a specifier, which may be a range, but also a URL, another package
with a tag, a commit or a branch. Resolving it gives the dependency its final name, a version that
can be converted, and, for a URL, the repository that provides it.

## Main definitions

* `Asset.SideRepository`: where a dependency with a URL comes from.
* `Asset.Dependency`: a name with a specifier.
* `Asset.checkUrl`, `Asset.checkAlias`, `Asset.settleVersion`: the three readings of a specifier.
* `Asset.resolve`: a dependency of a manifest, resolved.
-/

namespace AssetBridge.Asset

/-! ## Side repositories -/

/-- A package whose only distribution is a file. -/
structure FilePackage where
  kind : Kind
  name : Text
  version : Text
  url : Text
deriving DecidableEq, Repr

/-- Where a dependency with a URL comes from. -/
inductive SideRepository where
  /-- Version control serves the package of the given name. -/
  | vcs (kind : Kind) (url name : Text)
  /-- The package is described in place. -/
  | file (package : FilePackage)
deriving DecidableEq, Repr

namespace SideRepository

/-- The package that a repository provides. -/
def provides : SideRepository → Text
  | vcs _ _ name => name
  | file package => package.name

/-- The entry of a repository in a configuration. -/
def toJson : SideRepository → Json
  | vcs kind url name =>
    .obj [("type".toList, .str kind.repositoryType), ("url".toList, .str url),
      ("name".toList, .str name)]
  | file package =>
    .obj [("type".toList, .str "package".toList),
      ("package".toList, .obj [
        ("name".toList, .str package.name),
        ("type".toList, .str package.kind.packageType),
        ("version".toList, .str package.version),
        ("dist".toList, .obj [("url".toList, .str package.url),
          ("type".toList, .str "file".toList)])])]

end SideRepository

/-- A dependency: its name and its specifier. -/
structure Dependency where
  name : Text
  version : Text
deriving DecidableEq, Repr

/-- A dependency with the repository it needs. -/
structure Resolved extends Dependency where
  repository : Option SideRepository := none
deriving DecidableEq, Repr

/-- What a manifest and the settings say about every dependency. -/
structure Context where
  kind : Kind
  /-- The package that declares the dependencies. -/
  package : Option Text := none
  domains : Domains := {}
deriving DecidableEq, Repr

/-! ## URLs -/

/-- Stands for the lack of a version behind a URL. -/
def noVersion : Text := ['#']

/-- The version of a file about which nothing is known. -/
def unknownVersion : Text := "0.0.0.0".toList

/-- A URL and the version behind it. -/
def splitUrl (s : Text) : Text × Text :=
  let (url, version) := Kind.splitHash s
  (url, if version.isEmpty then noVersion else version)

/-- The name of a dependency that is downloaded as a file. -/
def fileName (context : Context) (name : Text) : Text :=
  let declaring :=
    match context.package with
    | some package =>
      if package.isEmpty then [] else package.drop (context.kind.vendor.length + 1) ++ ['-']
    | none => []
  declaring ++ name ++ "-file".toList

/-- The first version in a text: two to four numbers between points. -/
def firstVersion? : Text → Option Text
  | [] => none
  | c :: s =>
    let digits := (c :: s).takeWhile Text.isDecimal
    let (further, _) := Target.pointNumbers 3 ((c :: s).dropWhile Text.isDecimal)
    if digits.isEmpty || further.isEmpty then firstVersion? s
    else some (Text.join ['.'] (digits :: further))

/-- The version of a file: the one behind its URL, or the first one inside it. -/
def fileVersion (url version : Text) : Except Numeral.Error Text :=
  if version != noVersion then return version.drop 1
  else
    match firstVersion? url with
    | some found => Source.convertVersion found
    | none => return unknownVersion

/-- **URLs**: version control serves the dependency under its own name, unless the URL points to an
archive or to an unknown host. Then it is downloaded under a name of its own. -/
def checkUrl (context : Context) (d : Dependency) : Trail Numeral.Error Resolved :=
  if Kind.mentionsUrl d.version then
    let (url, version) := splitUrl d.version
    if !isArchive url && context.domains.isKnown url then do
      Trail.note (.served d.name url)
      return { name := d.name, version,
               repository := some (.vcs context.kind url (context.kind.qualify d.name)) }
    else do
      let file := fileName context d.name
      Trail.note (.downloaded d.name url file)
      let found ← Trail.ofExcept (fileVersion url version)
      return { name := file, version,
               repository := some (.file ⟨context.kind, context.kind.qualify file, found, url⟩) }
  else return { d with }

/-! ## Aliases -/

/-- A character of the name of a commit. -/
def isHashChar (c : Char) : Bool := c.isDigit || ('a' ≤ c && c ≤ 'f')

/-- The length of the full name of a commit. -/
def hashLength : Nat := 40

/-- Whether a text opens with the full name of a commit. -/
def opensWithHash (s : Text) : Bool := hashLength ≤ (s.takeWhile isHashChar).length

/-- Whether a text ends with the full name of a commit, a final line feed apart. -/
def endsWithHash (s : Text) : Bool :=
  opensWithHash s.reverse || (Text.dropPrefix? ['\n'] s.reverse).any opensWithHash

/-- **Aliases**: a name in front of a hash replaces the name of the dependency, unless a commit
follows. A tag without wildcards becomes a part of the name. -/
def checkAlias (d : Dependency) : Except Numeral.Error Dependency :=
  let (name, version) := Kind.splitHash d.version
  if name.isEmpty || version.isEmpty || endsWithHash d.version then return d
  else if '*' ∈ version then return ⟨name, version⟩
  else do
    if (← validateTag (version.drop 1)).isSome then
      return ⟨name ++ '-' :: version.filter (· != '#'), version⟩
    else return ⟨name, version⟩

/-! ## Commits, branches and ranges -/

/-- The characters that only a range has, apart from the ends of the text. -/
def rangeChars : List Char := ['<', '>', '=', '^', '~', ' ']

/-- Whether a version is a range. -/
def dependsOnRange (version : Text) : Bool := (Text.strip version).any (· ∈ rangeChars)

/-- Whether a text is the name of a commit, full or short. -/
def isCommit (s : Text) : Bool :=
  4 ≤ s.length && s.length ≤ hashLength && s.all isHashChar

/-- The branch that a version names. A name that cannot be that of a branch stays as a second
alternative. -/
def branchVersion (version : Text) : Except Numeral.Error Text := do
  let branch := Source.branchPrefix ++ (← Source.convertVersion version)
  return match validateBranch version with
    | some _ => branch
    | none => branch ++ " || ".toList ++ version

/-- What stands in front of a commit. -/
def commitPrefix : Text := "dev-default#".toList

/-- The specifiers that set no condition. -/
def emptyVersions : List Text := [[], ['0']]

/-- **What is left of a specifier** once its repository and its name are known: a commit, a branch,
or a range or tag that is kept. -/
def settleVersion (specifier : Text) : Except Numeral.Error Text :=
  let bare := specifier.filter (· != '#')
  let version := if Text.isOneOf emptyVersions bare then Source.anyVersion else Text.strip bare
  if '#' ∈ specifier ∧ isCommit version then return commitPrefix ++ version
  else if version = Source.anyVersion then return version
  else do
    let tag ← validateTag (version.filter (· ∉ rangeChars))
    if tag.isNone && !dependsOnRange version then branchVersion version else return version

/-! ## Resolution -/

/-- A dependency as the kind of its manifest reads it. -/
def prepare (kind : Kind) (d : Dependency) : Dependency :=
  ⟨kind.localName d.name, kind.prepareVersion d.version⟩

/-- **Resolution** of a dependency. -/
def resolve (context : Context) (d : Dependency) : Trail Numeral.Error Resolved := do
  let prepared := prepare context.kind d
  let located ← checkUrl context prepared
  let renamed ← Trail.ofExcept (checkAlias located.toDependency)
  let version ← Trail.ofExcept (settleVersion renamed.version)
  Trail.note (.resolved located.name prepared.version version renamed.name)
  return { name := renamed.name, version, repository := located.repository }

/-- A dependency that is resolved is located, then renamed, and then its version is settled. -/
theorem outcome_resolve_eq_bind (context : Context) (d : Dependency) :
    (resolve context d).outcome =
      (checkUrl context (prepare context.kind d)).outcome >>= fun located =>
        checkAlias located.toDependency >>= fun renamed =>
          settleVersion renamed.version >>= fun version =>
            .ok { name := renamed.name, version, repository := located.repository } := by
  simp only [resolve, Trail.outcome_bind, Trail.outcome_ofExcept, Trail.outcome_note,
    Trail.outcome_pure]
  rfl

end AssetBridge.Asset
