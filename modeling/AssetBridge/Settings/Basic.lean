import AssetBridge.Asset.Host
import AssetBridge.Asset.Kind
import AssetBridge.Log.Level
import AssetBridge.Text.Blank
import AssetBridge.Text.Quoted

/-!
# Settings

Four settings say how the program behaves. Each has a name inside the program, one for the command
line, and one for the environment and the settings file.

## Main definitions

* `Setting`: the settings, their names and their defaults.
* `Setting.normalize`: checking a value, and the form in which it is stored.
* `Settings`: a value for every setting; `Settings.domains` reads the domains out of them.
-/

namespace AssetBridge

/-- A setting. -/
inductive Setting where
  | assetType
  | githubDomains
  | gitlabDomains
  | logLevel
deriving DecidableEq, Repr

namespace Setting

/-- All settings. -/
def all : List Setting := [assetType, githubDomains, gitlabDomains, logLevel]

/-- The name inside the program. -/
def key : Setting → Text
  | assetType => "asset_type".toList
  | githubDomains => "github_domains".toList
  | gitlabDomains => "gitlab_domains".toList
  | logLevel => "log_level".toList

/-- The name on the command line. -/
def flag : Setting → Text
  | assetType => "asset-type".toList
  | githubDomains => "github-domains".toList
  | gitlabDomains => "gitlab-domains".toList
  | logLevel => "log-level".toList

/-- The name in the environment and in the settings file. -/
def envName : Setting → Text
  | assetType => "ASSETVER_ASSET_TYPE".toList
  | githubDomains => "ASSETVER_GITHUB_DOMAINS".toList
  | gitlabDomains => "ASSETVER_GITLAB_DOMAINS".toList
  | logLevel => "ASSETVER_LOG_LEVEL".toList

/-- The value that holds when none is given. -/
def default : Setting → Text
  | assetType => Asset.Kind.npm.name
  | githubDomains => "github.com".toList
  | gitlabDomains => "gitlab.com".toList
  | logLevel => Level.usual.name

/-- The setting with a name inside the program. -/
def ofKey? (s : Text) : Option Setting := all.find? fun setting => setting.key = s

/-- The setting with a name on the command line. -/
def ofFlag? (s : Text) : Option Setting := all.find? fun setting => setting.flag = s

/-- The setting with a name in the environment and the settings file. -/
def ofEnvName? (s : Text) : Option Setting := all.find? fun setting => setting.envName = s

@[simp] theorem ofKey?_key (s : Setting) : ofKey? s.key = some s := by cases s <;> rfl

@[simp] theorem ofFlag?_flag (s : Setting) : ofFlag? s.flag = some s := by cases s <;> rfl

@[simp] theorem ofEnvName?_envName (s : Setting) : ofEnvName? s.envName = some s := by
  cases s <;> rfl

/-- Different settings have different variables. -/
theorem envName_inj {s t : Setting} (h : s.envName = t.envName) : s = t := by
  simpa using congrArg ofEnvName? h

end Setting

/-! ## Domains -/

/-- The domains in a list between commas, in small letters and without blanks around them. -/
def splitDomains (s : Text) : List Text :=
  ((Text.fields ',' s).map Text.strip).filterMap fun domain =>
    if domain.isEmpty then none else some (Text.lower domain)

/-! ## Values -/

namespace Setting

open Text (inQuotes)

/-- A value that a setting does not accept. -/
structure InvalidValue where
  setting : Setting
  value : Text
deriving DecidableEq, Repr

/-- The wording of the error about a value. -/
def InvalidValue.message (e : InvalidValue) : Text :=
  match e.setting with
  | assetType => "Unknown asset type: ".toList ++ inQuotes e.value
  | logLevel => "Unknown log level: ".toList ++ inQuotes e.value
  | githubDomains | gitlabDomains => "Empty domain list: ".toList ++ inQuotes e.value

/-- What a setting accepts. -/
def InvalidValue.accepted (e : InvalidValue) : Text :=
  match e.setting with
  | assetType => Text.join ", ".toList (Asset.Kind.all.map Asset.Kind.name)
  | logLevel => Text.join ", ".toList (Level.ofEvents.map Level.name)
  | githubDomains | gitlabDomains =>
    "comma-separated host names, e.g. github.com,ghe.example.com".toList

/-- The name of the log level that a value means. -/
def levelName? (value : Text) : Option Text :=
  (Level.ofEvents.map Level.name).find? fun name => name = (Text.strip value).map Text.capital

/-- **Checking a value**: the form in which it is stored, when the setting accepts it. -/
def normalize (s : Setting) (value : Text) : Except InvalidValue Text :=
  match s with
  | assetType =>
    if Text.isOneOf (Asset.Kind.all.map Asset.Kind.name) value then .ok value else .error ⟨s, value⟩
  | logLevel =>
    match levelName? value with
    | some name => .ok name
    | none => .error ⟨s, value⟩
  | githubDomains | gitlabDomains =>
    if (splitDomains value).isEmpty then .error ⟨s, value⟩
    else .ok (Text.join [','] (splitDomains value))

end Setting

/-! ## Settings as a whole -/

/-- A value for every setting. -/
abbrev Settings := Setting → Text

namespace Settings

/-- The settings that hold when none is given. -/
def default : Settings := Setting.default

/-- The settings with the given values in front of those of `base`. -/
def overlay (base : Settings) (given : Setting → Option Text) : Settings :=
  fun s => (given s).getD (base s)

/-- The domains at which hosts are looked for. -/
def domains (settings : Settings) : Asset.Domains :=
  ⟨splitDomains (settings .githubDomains), splitDomains (settings .gitlabDomains)⟩

/-- The level from which events are reported; an unknown name means the usual one. -/
def level (settings : Settings) : Level := (Level.ofName? (settings .logLevel)).getD .usual

end Settings

end AssetBridge
