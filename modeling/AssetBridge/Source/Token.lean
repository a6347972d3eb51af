import AssetBridge.Source.Version
import AssetBridge.Text.Case

/-!
# Range tokens

A range expression is cleaned, so that operators stand right before their versions and every
conjunction is a comma or a blank, and then cut into tokens. Atoms and delimiters take turns, and
an empty atom stands between two delimiters that meet.

## Main definitions

* `Source.clean`: the cleaned expression.
* `Source.tokenize`: its tokens.
* `Source.TokenKind`: what a token means to the conversion.
-/

namespace AssetBridge.Source

/-! ## Cleaning -/

/-- The operators that lose the blank behind them. -/
def tightOperators : List Text :=
  ["<".toList, ">".toList, "=".toList, "~".toList, "^".toList, "||".toList, "&&".toList]

/-- Drops one blank behind every occurrence of an operator. -/
def tighten (s operator : Text) : Text := Text.replaceAll (operator ++ [' ']) operator s

/-- Drops the letter v in front of numbers. -/
def dropVersionLetters : Text → Text
  | [] => []
  | c :: cs =>
    if (c = 'v' || c = 'V') && cs.head?.any Text.isDecimal then dropVersionLetters cs
    else c :: dropVersionLetters cs

/-- **Cleaning**: operators are bound to what follows them, the letter in front of a version goes,
and the double ampersand becomes a comma. -/
def clean (s : Text) : Text :=
  let s := dropVersionLetters (tightOperators.foldl tighten s)
  let s := Text.replaceAll " ||".toList "||".toList s
  let s := Text.replaceAll " &&".toList ",".toList s
  Text.replaceAll "&&".toList ",".toList s

/-! ## Tokens -/

/-- The delimiter between the two sides of a hyphen range. -/
def hyphenMarker : Text := " - ".toList

/-- The delimiters; where several would do, the one that is named first counts. -/
def delimiters : List Text :=
  [hyphenMarker, "<".toList, ">".toList, "=".toList, "||".toList, " ".toList, ",".toList,
    "~".toList, "^".toList]

/-- The delimiter that opens a text. -/
def delimiter? (s : Text) : Option Text := delimiters.find? fun d => Text.startsWith d s

/-- Cuts a text into tokens; the first argument counts the characters of a delimiter that are still
to be passed over. -/
def tokensFrom : Nat → Text → List Text
  | _, [] => [[]]
  | k + 1, _ :: cs => tokensFrom k cs
  | 0, c :: cs =>
    match delimiter? (c :: cs) with
    | some d => [] :: d :: tokensFrom (d.length - 1) cs
    | none => Text.extendFirst c (tokensFrom 0 cs)

/-- **Tokens**: atoms and delimiters by turns, from the first atom to the last. -/
def tokenize (s : Text) : List Text := tokensFrom 0 s

/-- What a token means to the conversion. -/
inductive TokenKind where
  /-- The delimiter of a hyphen range. -/
  | hyphen
  /-- An empty atom, a comparator, an equals sign or a comma. -/
  | structural
  | tilde
  /-- A caret, or the equals sign that opens the expression: it only marks the next atom. -/
  | consumedModifier
  /-- A blank, which joins conditions. -/
  | conjunction
  /-- A double bar, which separates alternatives. -/
  | disjunction
  | atom
deriving DecidableEq, Repr

/-- The kind of a token; `atStart` says that nothing but empty atoms stands before it. -/
def TokenKind.ofToken (token : Text) (atStart : Bool) : TokenKind :=
  if token = hyphenMarker then .hyphen
  else if token = "=".toList && atStart then .consumedModifier
  else if Text.isOneOf [[], "<".toList, ">".toList, "=".toList, ",".toList] token then .structural
  else if token = "~".toList then .tilde
  else if token = "^".toList then .consumedModifier
  else if token = " ".toList then .conjunction
  else if token = "||".toList then .disjunction
  else .atom

example : tokenize ">=1 - 2".toList =
    [[], ">".toList, [], "=".toList, "1".toList, hyphenMarker, "2".toList] := rfl

end AssetBridge.Source
