import AssetBridge.Text.Basic

/-!
# Kinds of assets

An asset is a package of npm or of bower. Its kind decides the namespace in which it is required and
how its name in the registry is written there: a scope, which would need two slashes, is joined to
the package by a double hyphen.

## Main definitions

* `Asset.Kind`: the two kinds and their names.
* `Kind.packageName`, `Kind.registryName`: from a name in the registry to a package and back.
* `Kind.prepareVersion`: what a kind does to a specifier before it is looked at.
-/

namespace AssetBridge.Asset

/-- The kinds of assets. -/
inductive Kind where
  | npm
  | bower
deriving DecidableEq, Repr

/-- A name that belongs to no kind. -/
structure UnknownKind where
  name : Text
deriving DecidableEq, Repr

namespace Kind

/-! ## Names of kinds -/

/-- The name of a kind. -/
def name : Kind → Text
  | npm => "npm".toList
  | bower => "bower".toList

/-- All kinds. -/
def all : List Kind := [npm, bower]

/-- The kind with a name. -/
def ofName (s : Text) : Except UnknownKind Kind :=
  match all.find? fun kind => kind.name = s with
  | some kind => .ok kind
  | none => .error ⟨s⟩

theorem ofName_name (kind : Kind) : ofName kind.name = .ok kind := by cases kind <;> rfl

/-- The name of the manifest file. -/
def filename : Kind → Text
  | npm => "package.json".toList
  | bower => "bower.json".toList

/-- The namespace of the packages. -/
def vendor (kind : Kind) : Text := kind.name ++ "-asset".toList

/-- The type of the packages. -/
def packageType (kind : Kind) : Text := kind.name ++ "-asset-library".toList

/-- The type of the repositories that serve packages from version control. -/
def repositoryType (kind : Kind) : Text := kind.name ++ "-vcs".toList

end Kind

/-- The wording of the error about a name. -/
def UnknownKind.message (e : UnknownKind) : Text :=
  "The asset type \"".toList ++ e.name ++ "\" does not exist, only \"".toList ++
    Text.join "\", \"".toList (Kind.all.map Kind.name) ++ "\" are accepted".toList

namespace Kind

/-! ## Names of packages -/

/-- Whether a text speaks of a URL. -/
def mentionsUrl (s : Text) : Bool := Text.contains "://".toList s || '@' ∈ s

/-- What stands in front of the names of packages. -/
def vendorPrefix (kind : Kind) : Text := kind.vendor ++ ['/']

/-- A name in the namespace of the kind; URLs stay as they are. -/
def qualify (kind : Kind) (name : Text) : Text :=
  if mentionsUrl name || Text.startsWith kind.vendorPrefix name then name
  else kind.vendorPrefix ++ name

/-- A scoped name without its scope mark, `@scope/pkg` as `scope--pkg`. -/
def joinScope (name : Text) : Text :=
  if name.head? = some '@' ∧ '/' ∈ name then
    (Text.replaceAll ['/'] ['-', '-'] name).dropWhile (· = '@')
  else name

/-- The scoped name that a double hyphen stands for. -/
def splitScope (name : Text) : Text :=
  if Text.contains ['-', '-'] name then '@' :: Text.replaceAll ['-', '-'] ['/'] name else name

/-- A name of the registry, written so that it can stand in the namespace. -/
def localName : Kind → Text → Text
  | npm, name => joinScope name
  | bower, name => name

/-- The name of the registry behind such a name. -/
def sourceName : Kind → Text → Text
  | npm, name => splitScope name
  | bower, name => name

/-- **The package** for a name of the registry. -/
def packageName (kind : Kind) (name : Text) : Text := kind.qualify (kind.localName name)

/-- **The name of the registry** behind a package. -/
def registryName (kind : Kind) (package : Text) : Text :=
  kind.sourceName (Text.trimPrefix kind.vendorPrefix package)

example : npm.packageName "@angular/core".toList = "npm-asset/angular--core".toList := rfl
example : npm.registryName "npm-asset/angular--core".toList = "@angular/core".toList := rfl

/-! ## Specifiers -/

/-- A character in the name of an owner. -/
def isOwnerChar (c : Char) : Bool := c.isAlphanum || c = '-' || c = '_'

/-- Whether a text opens with an owner and a repository. -/
def isShorthand (s : Text) : Bool :=
  !(s.takeWhile isOwnerChar).isEmpty &&
    match s.dropWhile isOwnerChar with
    | '/' :: c :: _ => isOwnerChar c || c = '.'
    | _ => false

/-- What stands in front of a hash, and the hash with what follows it. -/
def splitHash (s : Text) : Text × Text :=
  (s.takeWhile (· != '#'), s.dropWhile (· != '#'))

theorem splitHash_append (s : Text) : (splitHash s).1 ++ (splitHash s).2 = s :=
  List.takeWhile_append_dropWhile

/-- **Shorthands**: `owner/repository#ref` is a repository at GitHub. -/
def expandShorthand (s : Text) : Text :=
  if isShorthand s then
    "git://github.com/".toList ++ (splitHash s).1 ++ ".git".toList ++ (splitHash s).2
  else s

/-- What a kind does to a specifier before it is looked at: bower knows shorthands. -/
def prepareVersion : Kind → Text → Text
  | npm, s => s
  | bower, s => expandShorthand s

end Kind

end AssetBridge.Asset
