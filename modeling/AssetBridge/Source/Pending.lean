import AssetBridge.Source.Caret
import AssetBridge.Source.Token

/-!
# Pending marks

An operator of the source dialect acts on the atom behind it. While a range is walked from left to
right, what has been read but not yet used is pending: a modifier and a comparator. Each kind of
token has its own step, which gives the marks that are pending afterwards and the text that the
token becomes.

## Main definitions

* `Source.Modifier`, `Source.Comparator`, `Source.Pending`: the marks.
* `Pending.hyphen`, `Pending.structural`, `Pending.tilde`, `Pending.consumed`, `Pending.atom`: the
  steps.
* `Source.lowerSide`: what a hyphen makes of the atom before it.
-/

namespace AssetBridge.Source

/-- A mark that changes what the next atom becomes. -/
inductive Modifier where
  | tilde
  | caret
  /-- The equals sign that opens the expression. -/
  | equalAtStart
  /-- The atom is the right side of a hyphen range and leaves components open. -/
  | partialUpperBound
deriving DecidableEq, Repr

/-- A comparator in front of an atom. -/
inductive Comparator where
  | less
  | greater
deriving DecidableEq, Repr

/-- The sign of a comparator. -/
def Comparator.sign : Comparator → Text
  | .less => "<".toList
  | .greater => ">".toList

/-- The comparator that a token is. -/
def Comparator.ofToken? (token : Text) : Option Comparator :=
  if token = "<".toList then some .less
  else if token = ">".toList then some .greater
  else none

/-- The side of the bound that a comparator makes. -/
def Comparator.side : Comparator → Side
  | .less => .upper
  | .greater => .lower

/-- The marks that wait for the next atom. -/
structure Pending where
  modifier : Option Modifier := none
  comparator : Option Comparator := none
deriving DecidableEq, Repr

/-- Nothing is pending. -/
def Pending.none : Pending := {}

/-- Whether a tilde has taken a comparator in, so that structural tokens leave no text. -/
def Pending.absorbs (p : Pending) : Bool := p.modifier = some .tilde && p.comparator.isSome

/-! ## The sides of a hyphen range -/

/-- The left side: a lower bound with its wildcards at zero. -/
def lowerSide (written : Text) : Text := ">=".toList ++ zeroWildcards written

/-- The exclusive upper bound of a right side that leaves components open: the component before the
last is raised. -/
def raisePartial (atom : Text) : Except Numeral.Error Text := do
  let parts := Text.fields '.' (if '.' ∈ atom then atom else atom ++ ".x".toList)
  let position := parts.length - 2
  let component ← raised (parts.getD position [])
  return zeroWildcards (Text.join ['.'] (parts.set position component))

/-- Whether a right side names every component, so that it is part of the range. -/
def isCompleteSide (atom : Text) : Bool := '.' ∈ atom && !hasWildcard atom

/-! ## The steps -/

namespace Pending

/-- The hyphen marker: the right side is inclusive when it is complete, and otherwise raised. -/
def hyphen (p : Pending) (next : Text) : Pending × Text :=
  if isCompleteSide next then (p, ",<=".toList)
  else ({ p with modifier := some .partialUpperBound }, ",<".toList)

/-- Structural tokens stay as they are, unless a tilde has taken the comparator in. -/
def structural (p : Pending) (token : Text) : Pending × Text :=
  let p := match Comparator.ofToken? token with
    | some c => { p with comparator := some c }
    | Option.none => p
  (p, if p.absorbs then [] else token)

/-- A tilde is kept and waits for its atom. -/
def tilde (p : Pending) (token : Text) : Pending × Text :=
  ({ p with modifier := some .tilde }, token)

/-- A caret or a leading equals sign leaves a mark and no text. -/
def consumed (p : Pending) (token : Text) (atStart : Bool) : Pending × Text :=
  let mark := if token = "=".toList && atStart then Modifier.equalAtStart else .caret
  ({ p with modifier := some mark }, [])

/-- Converts an atom, makes its wildcards concrete under a comparator, and clears all marks. Under a
tilde the comparator is written again behind the atom. -/
def finalize (p : Pending) (atom : Text) : Except Numeral.Error (Pending × Text) := do
  let converted ← convertVersion atom
  match p.comparator with
  | Option.none => return (Pending.none, converted)
  | some c =>
    let converted := fillWildcards c.side converted
    if p.modifier = some .tilde then
      return (Pending.none, converted ++ ',' :: c.sign ++ converted)
    else return (Pending.none, converted)

/-- Whether an atom is a lone major number that opens the expression and no hyphen range. -/
def isLoneMajor (atom : Text) (index : Nat) (next : Option Text) : Bool :=
  index = 0 && '.' ∉ atom && Numeral.isNumeric atom &&
    next ≠ some hyphenMarker && next ≠ some "-".toList

/-- **The atom step**: changes an atom under the marks that are pending. A caret keeps the
comparator for the next atom; every other atom clears all marks. -/
def atom (p : Pending) (atom : Text) (index : Nat) (next : Option Text) :
    Except Numeral.Error (Pending × Text) := do
  match p.modifier with
  | some .caret => return ({ p with modifier := Option.none }, ← expandCaret atom)
  | some .partialUpperBound => p.finalize (← raisePartial atom)
  | some .tilde => p.finalize (zeroWildcards atom)
  | some .equalAtStart => p.finalize atom
  | Option.none => p.finalize (if isLoneMajor atom index next then '~' :: atom else atom)

/-- The step of a token, given its place, whether it opens the expression, and the token behind
it. -/
def step (p : Pending) (index : Nat) (atStart : Bool) (token : Text) (next : Option Text) :
    Except Numeral.Error (Pending × Text) :=
  match TokenKind.ofToken token atStart with
  | .hyphen => return p.hyphen (next.getD [])
  | .structural => return p.structural token
  | .tilde => return p.tilde token
  | .consumedModifier => return p.consumed token atStart
  | .conjunction => return (p, ",".toList)
  | .disjunction => return (p, "|".toList)
  | .atom => p.atom token index next

end Pending

end AssetBridge.Source
