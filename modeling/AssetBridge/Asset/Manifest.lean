import AssetBridge.Asset.Requirements

/-!
# Manifests

A manifest is turned field by field into the description of a package. Some fields are kept, some
change their shape, and what has no place of its own goes under `extra`.

## Main definitions

* `Asset.convertDist`, `Asset.convertLicenses`, `Asset.convertAuthors`: fields that change.
* `Asset.extraKey`: the name of a field under `extra`.
* `Asset.convertManifest`: a whole manifest.
-/

namespace AssetBridge.Asset

/-- Why a manifest cannot be converted. -/
inductive ManifestError where
  /-- A number is beyond the digit limit. -/
  | numeral (cause : Numeral.Error)
  /-- The version is neither a text nor empty. -/
  | version (value : Json)

/-- A field of a manifest under its own name. -/
def field? (manifest : Table Json) (key : Text) : List (Text × Json) :=
  (manifest.get? key).toList.map fun value => (key, value)

/-! ## Distributions -/

/-- A URL with a secure scheme in place of the plain one. -/
def secured (url : Text) : Text :=
  match Text.dropPrefix? "http://".toList url with
  | some r => "https://".toList ++ r
  | none => url

/-- The field that holds a checksum. -/
def checksumKey : Text := "shasum".toList

/-- The kinds of downloads, beside tarballs. -/
def downloadTypes : List Text :=
  ["git".toList, "svn".toList, "fossil".toList, "hg".toList, "perforce".toList, "zip".toList,
    "rar".toList, "tar".toList, "gzip".toList, "xz".toList, "phar".toList, "file".toList,
    "path".toList]

/-- The two fields that describe a download. -/
def download (type url : Text) : List (Text × Json) :=
  [("type".toList, .str type), ("url".toList, .str url)]

/-- What an entry of a distribution becomes. -/
def distEntry : Text × Json → List (Text × Json)
  | (key, .str url) =>
    if key = checksumKey then [(key, .str (secured url))]
    else if key = "tarball".toList then download "tar".toList (secured url)
    else if Text.isOneOf downloadTypes key then download key (secured url)
    else []
  | _ => []

/-- **Distributions**: the last download counts. A value without members stays as it is. -/
def convertDist : Json → Json
  | .obj members => .obj (Table.ofList (members.flatMap distEntry))
  | value => value

/-! ## Licences and authors -/

/-- The first of two values that is not empty. -/
def firstFull (a b : Option Json) : Option Json :=
  match a with
  | some value => if value.isEmptyValue then b else some value
  | none => b

/-- The names that an entry in a list of licences stands for: at most one. -/
def licenseNames : Json → List Json
  | .obj members =>
    (firstFull (Table.get? "type".toList members) (Table.get? "name".toList members)).toList.filter
      fun name => !name.isEmptyValue
  | value => [value]

/-- **Licences**: a list of them becomes a list of names. -/
def convertLicenses : Json → Json
  | .arr items => .arr (items.flatMap licenseNames)
  | value => value

/-- **Authors**: the author, when there is one, before the contributors, when they are a list. -/
def convertAuthors (author contributors : Json) : List Json :=
  (match author with
    | .null => []
    | value => [value]) ++
  (match contributors with
    | .arr items => items
    | _ => [])

/-- A value as a list, unless it has members. -/
def asList : Json → Json
  | .null => .arr []
  | .arr items => .arr items
  | .obj members => .obj members
  | value => .arr [value]

/-! ## Extra fields -/

/-- A name in which every capital behind the first character has a hyphen in front. -/
def hyphenated : Text → Text
  | [] => []
  | c :: s => c :: s.flatMap fun d => if d.isUpper then ['-', d] else [d]

/-- The name of a field under `extra`. -/
def extraKey (kind : Kind) (key : Text) : Text :=
  kind.vendor ++ '-' :: Text.lower (hyphenated key)

/-- The fields that go under `extra`. -/
def extraFields : Kind → List Text
  | .npm =>
    ["bugs".toList, "files".toList, "main".toList, "man".toList, "directories".toList,
      "repository".toList, "scripts".toList, "config".toList, "bundledDependencies".toList,
      "optionalDependencies".toList, "engines".toList, "engineStrict".toList, "os".toList,
      "cpu".toList, "preferGlobal".toList, "private".toList, "publishConfig".toList]
  | .bower => ["main".toList, "ignore".toList, "private".toList]

/-- The members of `extra`. -/
def extra (kind : Kind) (manifest : Table Json) : List (Text × Json) :=
  (extraFields kind).flatMap fun key =>
    (field? manifest key).map fun (key, value) => (extraKey kind key, value)

/-! ## Whole manifests -/

/-- A member, unless it is empty. -/
def memberUnlessEmpty (key : Text) (value : Json) : List (Text × Json) :=
  if value.isEmptyValue then [] else [(key, value)]

/-- A field that changes its shape. -/
def changed (manifest : Table Json) (key : Text) (change : Json → Json) : List (Text × Json) :=
  (field? manifest key).map fun (key, value) => (key, change value)

/-- The fields that are peculiar to a kind. -/
def ownFields : Kind → Table Json → List (Text × Json)
  | .npm, m =>
    field? m "homepage".toList ++ changed m "license".toList convertLicenses ++
      memberUnlessEmpty "authors".toList (.arr (convertAuthors ((m.get? "author".toList).getD .null)
        ((m.get? "contributors".toList).getD .null))) ++
      changed m "bin".toList asList ++ changed m "dist".toList convertDist
  | .bower, m => field? m "license".toList ++ field? m "bin".toList

/-- The package that a manifest declares, when it has a name. -/
def declaredPackage? (kind : Kind) (manifest : Table Json) : Option Text :=
  ((manifest.get? "name".toList).bind Json.text?).map kind.packageName

/-- The version that a value stands for; an empty value is any version. -/
def readVersion (value : Json) : Except ManifestError Text :=
  if value.isEmptyValue then return Source.anyVersion
  else
    match value.text? with
    | some s => (Source.convertVersion s).mapError .numeral
    | none => .error (.version value)

/-- The version that a manifest declares, when there is one. -/
def declaredVersion (manifest : Table Json) : Except ManifestError (Option Text) :=
  (manifest.get? "version".toList).mapM readVersion

/-- The description of a package, and the repositories that its dependencies need. -/
structure Package where
  members : List (Text × Json)
  repositories : List SideRepository := []

/-- A package with its repositories, as a configuration. -/
def Package.config (p : Package) : Json :=
  .obj (p.members ++
    memberUnlessEmpty "repositories".toList (.arr (p.repositories.map SideRepository.toJson)))

/-- The requirements of a manifest, if it has dependencies. -/
def requirements? (context : Context) (manifest : Table Json) :
    Trail Numeral.Error (Option Requirements) :=
  match (manifest.get? "dependencies".toList).bind Json.members? with
  | some dependencies => some <$> convertDependencies context dependencies
  | none => return none

/-- The member that lists the requirements. -/
def requireMember (r : Requirements) : Text × Json :=
  ("require".toList, .obj (r.require.map fun (name, constraint) => (name, .str constraint)))

/-- A member that holds a text, when there is one. -/
def textMember (key : Text) (value : Option Text) : Option (Text × Json) :=
  value.map fun s => (key, .str s)

/-- The fields that are kept as they are. -/
def keptFields : List Text := ["description".toList, "keywords".toList, "time".toList]

/-- **A whole manifest**. -/
def convertManifest (kind : Kind) (domains : Domains) (manifest : Table Json) :
    Trail ManifestError Package := do
  let package := declaredPackage? kind manifest
  let version ← Trail.ofExcept (declaredVersion manifest)
  let requirements ← (requirements? ⟨kind, package, domains⟩ manifest).mapError .numeral
  return {
    members := (textMember "name".toList package).toList ++
      [("type".toList, .str kind.packageType)] ++ (textMember "version".toList version).toList ++
      keptFields.flatMap (field? manifest) ++ ownFields kind manifest ++
      requirements.toList.map requireMember ++
      memberUnlessEmpty "extra".toList (.obj (extra kind manifest))
    repositories := (requirements.map Requirements.repositories).getD [] }

end AssetBridge.Asset
