import AssetBridge.Text.Basic
import AssetBridge.Text.Blank
import AssetBridge.Text.Digit

/-!
# Numerals

Numbers have no size limit once read, but a numeral of more than 4300 digits is neither read nor
written. Leading zeros count as digits, a sign does not, and a digit may belong to any script.

## Main definitions

* `Numeral.Error`: why a numeral is refused.
* `Numeral.read`, `Numeral.write`: digits to number and back, within the limit.
* `Numeral.leading`: the number that opens a version component, zero when there is none.
* `Numeral.literal`: a text that has to be one integer.
* `Numeral.isNumeric`: whether a text is one decimal number.
-/

namespace AssetBridge.Numeral

/-- Why a numeral is refused. -/
inductive Error where
  /-- It has more digits than the limit. -/
  | tooLong
  /-- The text is not an integer. -/
  | malformed
deriving DecidableEq, Repr

/-- The greatest number of digits that are read or written. -/
def maxDigits : Nat := 4300

/-! ## Digits and numbers -/

/-- The number that a run of digits denotes. -/
def value (digits : Text) : Nat :=
  digits.foldl (fun n c => 10 * n + Text.digitValue c) 0

@[simp] theorem value_nil : value [] = 0 := rfl

theorem value_append_singleton (ds : Text) (c : Char) :
    value (ds ++ [c]) = 10 * value ds + Text.digitValue c := by
  simp [value]

/-- Reads a run of digits. -/
def read (digits : Text) : Except Error Nat :=
  if digits.length ≤ maxDigits then .ok (value digits) else .error .tooLong

/-- The digits of a number. -/
def digits (n : Nat) : Text := Nat.toDigits 10 n

/-- Writes a number. -/
def write (n : Nat) : Except Error Text :=
  if (digits n).length ≤ maxDigits then .ok (digits n) else .error .tooLong

/-- Writes an integer. -/
def writeInt : Int → Except Error Text
  | .ofNat n => write n
  | .negSucc n => ('-' :: ·) <$> write (n + 1)

/-- Zeros in front of a text, up to a width. -/
def padLeft (width : Nat) (s : Text) : Text := List.replicate (width - s.length) '0' ++ s

/-- An integer with zeros in front, up to a width that counts the sign. -/
def padded (width : Nat) : Int → Text
  | .ofNat n => padLeft width (digits n)
  | .negSucc n => '-' :: padLeft (width - 1) (digits (n + 1))

/-! ## Numbers in a text -/

/-- The text without its sign. -/
def dropSign : Text → Text
  | '+' :: s => s
  | '-' :: s => s
  | s => s

/-- Gives a number the sign that a text opens with. -/
def applySign (s : Text) (n : Nat) : Int :=
  if s.head? = some '-' then -(n : Int) else n

/-- **Leading number**: the signed number behind the blanks that open a text, and zero when there
is none. -/
def leading (s : Text) : Except Error Int :=
  let s := s.dropWhile Text.isBlank
  applySign s <$> read ((dropSign s).takeWhile Text.isDecimal)

/-- **Integer literal**: blanks around a signed run of digits, in which single underscores may
stand between digits. -/
def literal (s : Text) : Except Error Int :=
  let s := Text.strip s
  let groups := Text.fields '_' (dropSign s)
  if groups.all fun group => !group.isEmpty && group.all Text.isDecimal then
    applySign s <$> read groups.flatten
  else .error .malformed

/-- Whether a text is an exponent, or nothing, before the blanks that end it. -/
def endsNumber (s : Text) : Bool :=
  match s with
  | c :: r =>
    if c = 'e' || c = 'E' then
      !((dropSign r).takeWhile Text.isDecimal).isEmpty &&
        ((dropSign r).dropWhile Text.isDecimal).all Text.isBlank
    else s.all Text.isBlank
  | [] => true

/-- **Plain number**: a signed decimal, with or without a fraction and an exponent, between blanks.
One of the two sides of the point may be missing. -/
def isNumeric (s : Text) : Bool :=
  let s := dropSign (s.dropWhile Text.isBlank)
  let whole := s.takeWhile Text.isDecimal
  match s.dropWhile Text.isDecimal with
  | '.' :: r =>
    (!whole.isEmpty || !(r.takeWhile Text.isDecimal).isEmpty) &&
      endsNumber (r.dropWhile Text.isDecimal)
  | r => !whole.isEmpty && endsNumber r

example : leading " -12beta".toList = .ok (-12) := rfl
example : isNumeric " 1.e5 ".toList = true ∧ isNumeric ".".toList = false := by decide

end AssetBridge.Numeral
