import AssetBridge.Text.Case
import AssetBridge.Text.Digit

/-!
# Repository hosts

The shape of a URL tells whether version control serves what it points to, and which kind. GitHub
and GitLab are known by their domains, the others by marks that stand in the URL.

## Main definitions

* `Asset.Host`: the kinds of hosts, in the order in which they are asked.
* `Asset.Domains`: the domains of GitHub and GitLab.
* `Domains.supports`, `Domains.find?`: whether a kind recognises a URL, and the first that does.
* `Asset.isArchive`: whether a URL points to an archive.
-/

namespace AssetBridge.Asset

/-- The kinds of repository hosts. -/
inductive Host where
  | github
  | gitlab
  | bitbucket
  | git
  | mercurial
  | perforce
  | subversion
deriving DecidableEq, Repr

namespace Host

/-- The kinds of hosts, in the order in which they are asked. -/
def all : List Host := [github, gitlab, bitbucket, git, mercurial, perforce, subversion]

/-! ## The parts of a URL -/

/-- What follows the first of several prefixes that the text starts with. -/
def afterAny? (ps : List Text) (s : Text) : Option Text :=
  ps.findSome? fun p => Text.dropPrefix? p s

/-- A run of characters that is not empty, and what follows it. -/
def run? (p : Char → Bool) (s : Text) : Option (Text × Text) :=
  if (s.takeWhile p).isEmpty then none else some (s.takeWhile p, s.dropWhile p)

/-- Whether a text is one path component, with or without a slash behind it. -/
def isLastComponent (s : Text) : Bool :=
  !(s.takeWhile (· != '/')).isEmpty &&
    (s.dropWhile (· != '/') = [] || s.dropWhile (· != '/') = ['/'] ||
      s.dropWhile (· != '/') = ['/', '\n'])

/-- Whether a text is an owner, a slash and a repository. -/
def isRepositoryPath (s : Text) : Bool :=
  match run? (· != '/') s with
  | some (_, '/' :: r) => isLastComponent r
  | _ => false

/-- Whether a text is a path on one line, which `seen` says has begun, and a last component. -/
def isGroupPath (seen : Bool) : Text → Bool
  | [] => false
  | c :: r => (c = '/' && seen && isLastComponent r) || (c != '\n' && isGroupPath true r)

/-- A domain in small letters, without the mark of a web server. -/
def bareDomain (domain : Text) : Text := Text.trimPrefix "www.".toList (Text.lower domain)

/-! ## GitHub and GitLab -/

/-- The host of a URL with a scheme, and the path behind it. -/
def webHost? (s : Text) : Option (Text × Text) := do
  let r ← afterAny? ["http://".toList, "https://".toList, "git://".toList] s
  let (host, r) ← run? (· != '/') r
  return (host, ← Text.dropPrefix? ['/'] r)

/-- The host of an address for secure shells, and the path behind it. -/
def shellHost? (s : Text) : Option (Text × Text) := do
  let (host, r) ← run? (· != ':') (← Text.dropPrefix? "git@".toList s)
  return (host, ← Text.dropPrefix? [':'] r)

/-- The host that GitHub's form of a URL names. -/
def githubHost? (s : Text) : Option Text :=
  match webHost? s with
  | some (host, path) => if isRepositoryPath path then some host else none
  | none =>
    match shellHost? s with
    | some (host, path) => if isRepositoryPath (Text.trimPrefix ['/'] path) then some host else none
    | none => none

/-- A number behind a colon is no part of a path. -/
def dropHostNumber? : Text → Option Text
  | ':' :: s => (run? Char.isDigit s).map Prod.snd
  | s => some s

/-- The host of a URL for the web, with or without a number behind a colon, and the path behind
it. -/
def numberedWebHost? (s : Text) : Option (Text × Text) := do
  let r ← afterAny? ["http://".toList, "https://".toList] s
  let (host, r) ← run? (fun c => c != '/' && c != ':') r
  return (host, ← Text.dropPrefix? ['/'] (← dropHostNumber? r))

/-- The host that GitLab's form of a URL names. -/
def gitlabHost? (s : Text) : Option Text :=
  match numberedWebHost? s <|> shellHost? s with
  | some (host, path) => if isGroupPath false path then some host else none
  | none => none

/-! ## Hosts known by marks

These are looked for in the URL with every letter taken for a small one. -/

/-- Bitbucket's repositories, if they are not said to be of another kind. -/
def isBitbucket (s : Text) : Bool :=
  (afterAny? ["http://bitbucket.org/".toList, "https://bitbucket.org/".toList] s).any
    isRepositoryPath

/-- Whether a text ends like the path of a git repository. -/
def endsWithGit (s : Text) : Bool :=
  [".git".toList, ".git/".toList, ".git\n".toList, ".git/\n".toList].any (Text.endsWith · s)

/-- Repositories of git. -/
def isGit (s : Text) : Bool :=
  Text.startsWith "git://".toList s || endsWithGit s ||
    ["git@".toList, "gitolite@".toList, "//git.".toList, "//github.com/".toList].any
      (Text.contains · s)

/-- The text without the user in front of a host. -/
def dropUser? (s : Text) : Option Text := do
  let (_, r) ← run? (· != '@') s
  Text.dropPrefix? ['@'] r

/-- Whether a URL points to Bitbucket, with or without a user. -/
def isAtBitbucket (s : Text) : Bool :=
  match afterAny? ["http://".toList, "https://".toList, "ssh://".toList] s with
  | some r =>
    Text.startsWith "bitbucket.org".toList r ||
      (dropUser? r).any (Text.startsWith "bitbucket.org".toList)
  | none => false

/-- Whether a secure URL to Kiln stands somewhere in the text, on one line. -/
def mentionsKiln : Text → Bool
  | [] => false
  | c :: s =>
    (Text.dropPrefix? "https://".toList (c :: s)).any
        (fun r => Text.contains ".kilnhg.com".toList (r.takeWhile (· != '\n'))) ||
      mentionsKiln s

/-- Repositories of Mercurial. -/
def isMercurial (s : Text) : Bool := isAtBitbucket s || mentionsKiln s

/-- Whether a text names Subversion as a scheme or as a host. -/
def namesSubversion (s : Text) : Bool :=
  Text.startsWith "svn://".toList s || Text.startsWith "svn+ssh://".toList s ||
    Text.contains "svn.".toList s

/-- Whether a URL for the web has a Subversion directory in its path. -/
def hasSubversionPath (url : Text) : Bool :=
  Text.startsWith "http".toList url && Text.contains "://".toList url &&
    (Text.containsKeyword "/svn".toList url || Text.containsKeyword "svn/".toList url)

end Host

/-! ## Recognition -/

/-- The domains at which GitHub and GitLab are served. -/
structure Domains where
  github : List Text := ["github.com".toList]
  gitlab : List Text := ["gitlab.com".toList]
deriving DecidableEq, Repr

namespace Domains

/-- **Recognition**: whether a kind of host serves a URL. A depot of Perforce has no shape of its
own. -/
def supports (d : Domains) (host : Host) (url : Text) : Bool :=
  let folded := url.map Text.foldLetter
  match host with
  | .github => (Host.githubHost? url).any fun h => Text.isOneOf d.github (Host.bareDomain h)
  | .gitlab => (Host.gitlabHost? url).any fun h => Text.isOneOf d.gitlab (Host.bareDomain h)
  | .bitbucket => Host.isBitbucket folded
  | .git => Host.isGit folded
  | .mercurial => Host.isMercurial folded
  | .perforce => false
  | .subversion => Host.hasSubversionPath url || Host.namesSubversion folded

/-- The first kind of host that recognises a URL. -/
def find? (d : Domains) (url : Text) : Option Host := Host.all.find? (d.supports · url)

/-- Whether version control serves a URL. -/
def isKnown (d : Domains) (url : Text) : Bool := (d.find? url).isSome

end Domains

/-! ## Archives -/

/-- What the names of archives end with. -/
def archiveEndings : List Text :=
  [".zip".toList, ".tar".toList, ".tar.gz".toList, ".tar.bz2".toList, ".tar.Z".toList,
    ".tar.xz".toList, ".bz2".toList, ".gz".toList]

/-- Whether a URL for the web points to an archive. -/
def isArchive (url : Text) : Bool :=
  Text.startsWith "http".toList url && archiveEndings.any (Text.endsWith · url)

example : (Domains.find? {} "https://www.github.com/owner/repo.git".toList) = some .github := by
  decide +kernel

end AssetBridge.Asset
