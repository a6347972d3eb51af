import AssetBridge.Text.Basic
import AssetBridge.Text.Blank
import AssetBridge.Text.Case
import AssetBridge.Text.Digit
import AssetBridge.Text.Lines
import AssetBridge.Text.Quoted
import AssetBridge.Text.Encoding
import AssetBridge.Text.Raw
import AssetBridge.Numeral
import AssetBridge.Stability
import AssetBridge.Source.Suffix
import AssetBridge.Source.Version
import AssetBridge.Table
import AssetBridge.Decimal.Shortest
import AssetBridge.Json.Basic
import AssetBridge.Json.Parser
import AssetBridge.Json.Printer
import AssetBridge.Source.Caret
import AssetBridge.Source.Token
import AssetBridge.Source.Pending
import AssetBridge.Source.Range
import AssetBridge.Target.Branch
import AssetBridge.Target.Suffix
import AssetBridge.Target.Normal
import AssetBridge.Target.Version
import AssetBridge.Target.Bound
import AssetBridge.Target.Constraint
import AssetBridge.Tag
import AssetBridge.Npm.Version
import AssetBridge.Npm.Bound
import AssetBridge.Npm.Block
import AssetBridge.Npm.Range
import AssetBridge.Log.Level
import AssetBridge.Log.Event
import AssetBridge.Log.Trail
import AssetBridge.Agreement
import AssetBridge.Asset.Kind
import AssetBridge.Asset.Host
import AssetBridge.Asset.Dependency
import AssetBridge.Asset.Requirements
import AssetBridge.Asset.Manifest
import AssetBridge.Files.Path
import AssetBridge.Files.Folder
import AssetBridge.Settings.Basic
import AssetBridge.Settings.File
import AssetBridge.Settings.Surroundings
import AssetBridge.Cli.Arguments
import AssetBridge.Cli.Request
import AssetBridge.Cli.Console
import AssetBridge.Cli.Run
import AssetBridge.Main
import AssetBridge.Proofs.Digits
import AssetBridge.Proofs.Grammar
import AssetBridge.Proofs.Cutting
import AssetBridge.Proofs.Tokens
import AssetBridge.Proofs.Walk
import AssetBridge.Proofs.WildcardRuns
import AssetBridge.Proofs.Components
import AssetBridge.Proofs.Releases
import AssetBridge.Proofs.Parts
import AssetBridge.Proofs.Conversion
import AssetBridge.Proofs.Constraints
import AssetBridge.Proofs.Translation
import AssetBridge.Proofs.Legality
import AssetBridge.Proofs.NpmReading
import AssetBridge.Proofs.Outcomes
import AssetBridge.Proofs.ReleaseBounds
import AssetBridge.Proofs.Readings
import AssetBridge.Proofs.Exactness
import AssetBridge.Proofs.Widening
import AssetBridge.Proofs.Positions
import AssetBridge.Proofs.Composition
import AssetBridge.Proofs.Runs
import AssetBridge.Proofs.NormalForms
import AssetBridge.Proofs.Comparisons
import AssetBridge.Proofs.Precedence
import AssetBridge.Proofs.Pinned
import AssetBridge.Proofs.Resolution
import AssetBridge.Proofs.Suffixes
import AssetBridge.Proofs.Stems
import AssetBridge.Proofs.Tags
import AssetBridge.Proofs.Provision
import AssetBridge.Proofs.Letters
import AssetBridge.Proofs.Words
import AssetBridge.Proofs.Equalities
import AssetBridge.Proofs.LoneNumbers
import AssetBridge.Proofs.OpeningNumbers
import AssetBridge.Proofs.ExactVersions
import AssetBridge.Proofs.Downloads
import AssetBridge.Proofs.Tables
import AssetBridge.Proofs.StoredSettings
import AssetBridge.Proofs.SettingSources
import AssetBridge.Proofs.CommandLines
import AssetBridge.Proofs.CommandEffects
import AssetBridge.Proofs.BranchNames
import AssetBridge.Proofs.Branches
import AssetBridge.Proofs.CanonicalForms
import AssetBridge.Proofs.ReleasePrefixes
import AssetBridge.Proofs.CaretBounds
import AssetBridge.Proofs.OperatorRanges
import AssetBridge.Proofs.PackageNames
import AssetBridge.Proofs.CommitPins
import AssetBridge.Proofs.SmallLetters
import AssetBridge.Proofs.RepositoryUrls
import AssetBridge.Proofs.GithubHosts
import AssetBridge.Proofs.NumericBranches
import AssetBridge.Proofs.RereadSettings
import AssetBridge.Proofs.Rereading
import AssetBridge.Proofs.LetterCase
import AssetBridge.Proofs.CaseVariants
import AssetBridge.Proofs.DependencyTables
import AssetBridge.Proofs.Weights
import AssetBridge.Proofs.PendingMarks
import AssetBridge.Proofs.TotalRanges
import AssetBridge.Proofs.DateStamps
import AssetBridge.Proofs.Shorthands
import AssetBridge.Proofs.Joints
