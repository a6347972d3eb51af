import AssetBridge.Text.Basic

/-!
# Options among arguments

An argument that starts with a hyphen is an option: a long one behind two hyphens, with its value
behind an equals sign or in the next argument, or a cluster of short ones behind a single hyphen, of
which the last may take the rest of the cluster or the next argument for its value. Two hyphens
alone end the options, and a single hyphen is an ordinary argument.

## Main definitions

* `Cli.Flag`: the options of the program.
* `Cli.scan?`: the options and the ordinary arguments of a list of arguments.
-/

namespace AssetBridge.Cli

/-- The options of the program. -/
inductive Flag where
  | help
  | verbose
  | assetType
  | reverse
deriving DecidableEq, Repr

namespace Flag

/-- All options. -/
def all : List Flag := [help, verbose, assetType, reverse]

/-- The long name of an option. -/
def long : Flag → Text
  | help => "help".toList
  | verbose => "verbose".toList
  | assetType => "asset-type".toList
  | reverse => "reverse".toList

/-- The letter of an option, if it has one. -/
def short : Flag → Option Char
  | help => none
  | verbose => some 'v'
  | assetType => some 't'
  | reverse => some 'r'

/-- Whether an option has a value. -/
def takesValue : Flag → Bool
  | assetType => true
  | _ => false

end Flag

/-- An option with its value; an option without one has the empty text. -/
structure Given where
  flag : Flag
  value : Text := []
deriving DecidableEq, Repr

/-- What one argument says: some options, and perhaps one whose value is the next argument. -/
structure Said where
  given : List Given := []
  awaiting : Option Flag := none
deriving DecidableEq, Repr

/-- A long option, among those that are known. -/
def long? (known : List Flag) (s : Text) : Option Said :=
  let (name, value) := Text.cut '=' s
  match known.find? (fun flag => flag.long = name), value with
  | none, _ => none
  | some flag, some value => if flag.takesValue then some { given := [⟨flag, value⟩] } else none
  | some flag, none =>
    some (if flag.takesValue then { awaiting := some flag } else { given := [⟨flag, []⟩] })

/-- A cluster of short options, among those that are known. -/
def cluster? (known : List Flag) : Text → Option Said
  | [] => some {}
  | c :: s =>
    match known.find? fun flag => flag.short = some c with
    | none => none
    | some flag =>
      if flag.takesValue then
        some (if s.isEmpty then { awaiting := some flag } else { given := [⟨flag, s⟩] })
      else (cluster? known s).map fun said => { said with given := ⟨flag, []⟩ :: said.given }

/-- What an argument says that is an option; `none` when it is not, and no value when it is none of
those that are known. -/
def option? (known : List Flag) : Text → Option (Option Said)
  | '-' :: '-' :: s => some (long? known s)
  | '-' :: c :: s => some (cluster? known (c :: s))
  | _ => none

/-- The mark that ends the options. -/
def endOfOptions : Text := ['-', '-']

/-- **Scanning**: the options among the arguments, and the others in their order. Where the two may
not be mixed, the first ordinary argument ends the options. There is no result when an option is
unknown, has a value that it does not take, or lacks one. -/
def scan? (known : List Flag) (mixed : Bool) : List Text → Option (List Given × List Text)
  | [] => some ([], [])
  | arg :: args =>
    if arg = endOfOptions then some ([], args)
    else
      match option? known arg with
      | none =>
        if mixed then (scan? known mixed args).map fun (given, rest) => (given, arg :: rest)
        else some ([], arg :: args)
      | some none => none
      | some (some { given := said, awaiting := none }) =>
        (scan? known mixed args).map fun (given, rest) => (said ++ given, rest)
      | some (some { given := said, awaiting := some flag }) =>
        match args with
        | [] => none
        | value :: args =>
          (scan? known mixed args).map fun (given, rest) => (said ++ ⟨flag, value⟩ :: given, rest)

/-- Whether an option is given. -/
def isGiven (flag : Flag) (given : List Given) : Bool := given.any fun g => g.flag = flag

/-- The value of an option; the last one counts. -/
def valueOf (flag : Flag) (given : List Given) : Option Text :=
  (given.reverse.find? fun g => g.flag = flag).map Given.value

example : scan? [.assetType, .reverse] true ["-rt".toList, "npm".toList, "a".toList] =
    some ([⟨.reverse, []⟩, ⟨.assetType, "npm".toList⟩], ["a".toList]) := by decide +kernel

end AssetBridge.Cli
