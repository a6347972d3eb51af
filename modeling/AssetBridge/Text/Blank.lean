import AssetBridge.Text.Basic
import AssetBridge.Text.Ranges

/-!
# Blanks

The characters that separate words: the control characters of layout, the four information
separators, the space, and the spaces and separators beyond ASCII. The zero-width space and the
byte order mark are not among them.

## Main definitions

* `Text.isBlank`: the class.
* `Text.strip`: a text without the blanks at its two ends.
-/

namespace AssetBridge.Text

/-- The code points of the blanks. -/
def blankRanges : List (Nat × Nat) := [
  (0x9, 0xD), (0x1C, 0x20), (0x85, 0x85), (0xA0, 0xA0), (0x1680, 0x1680), (0x2000, 0x200A),
  (0x2028, 0x2029), (0x202F, 0x202F), (0x205F, 0x205F), (0x3000, 0x3000)]

/-- Whether a character separates words. -/
def isBlank (c : Char) : Bool := inRanges blankRanges c

/-- The text without the blanks at its two ends. -/
def strip (s : Text) : Text := dropEndWhile isBlank (s.dropWhile isBlank)

example : isBlank ' ' = true ∧ isBlank '\n' = true ∧ isBlank '\u200b' = false := by decide

end AssetBridge.Text
