import AssetBridge.Stability
import AssetBridge.Text.Digit

/-!
# Suffixes of the target grammar

Behind its numbers a version of the target grammar may name a stability, with or without a number,
and may be marked as being in development. Separators are optional and letter case is ignored.

## Main definitions

* `Target.Suffix`: a stability, its number and the development mark.
* `Target.suffix?`: reading a suffix that reaches to the end of the text.
* `Suffix.render`: its canonical form.
-/

namespace AssetBridge.Target

/-- What a version says behind its numbers. The keyword is kept as it is written. -/
structure Suffix where
  keyword : Option (Text × Text)
  dev : Bool
deriving DecidableEq, Repr

/-- The keywords of a suffix; where several would do, the one that is named first counts. -/
def suffixKeywords : List Text :=
  ["stable".toList, "beta".toList, "b".toList, "rc".toList, "alpha".toList, "a".toList,
    "patch".toList, "pl".toList, "p".toList]

/-- The keyword that opens a text, and what follows it. -/
def keyword? (s : Text) : Option (Text × Text) :=
  suffixKeywords.findSome? fun k => (Text.dropKeyword? k s).map fun r => (s.take k.length, r)

/-- Numbers that follow each other directly or behind a point or hyphen, and what follows them. -/
def numberRun : Text → Text × Text
  | [] => ([], [])
  | c :: r =>
    if Text.isDecimal c || ((c = '.' || c = '-') && r.head?.any Text.isDecimal) then
      (c :: (numberRun r).1, (numberRun r).2)
    else ([], c :: r)

/-- The text behind one separator of a list. -/
def dropOne (separators : List Char) (s : Text) : Text :=
  match s with
  | c :: r => if c ∈ separators then r else s
  | [] => []

/-- Whether a text is the development mark (`true`) or nothing (`false`), up to its end. -/
def devMark? (s : Text) : Option Bool :=
  if Text.isFinal s then some false
  else if (Text.dropKeyword? "dev".toList (dropOne ['.', '-'] s)).any Text.isFinal then some true
  else none

/-- **Reading a suffix**: an optional separator, a keyword with its numbers, the development mark,
each of which may be missing, and the end of the text. -/
def suffix? (s : Text) : Option Suffix :=
  let s := dropOne ['.', '_', '-'] s
  match keyword? s with
  | some (keyword, r) =>
    (devMark? (numberRun r).2).map fun dev => ⟨some (keyword, (numberRun r).1), dev⟩
  | none => (devMark? s).map fun dev => ⟨none, dev⟩

/-- The development mark in its canonical form. -/
def devText (dev : Bool) : Text := if dev then "-dev".toList else []

/-- The number of a suffix without the separators in front of it. -/
def bareNumber (number : Text) : Text := number.dropWhile fun c => c = '.' || c = '-'

/-- **Canonical form**: the keyword in full behind a hyphen, its number, and the development mark.
The word `stable`, written so, says nothing and leaves nothing. -/
def Suffix.render (s : Suffix) : Text :=
  match s.keyword with
  | some (keyword, number) =>
    if keyword = Stability.stable.keyword then []
    else '-' :: Stability.expandKeyword keyword ++ bareNumber number ++ devText s.dev
  | none => devText s.dev

example : (suffix? "-RC.2.dev".toList).map Suffix.render = some "-RC2-dev".toList := rfl

end AssetBridge.Target
