import AssetBridge.Text.Basic
import AssetBridge.Text.Ranges
import AssetBridge.Text.PrintableTable

/-!
# Quoted text

Messages show a foreign text between quotes, as it stands or in its quoted form. There, single
quotes are used unless the text holds a single quote and no double one. The backslash, the chosen
quote and the three common controls are written with a backslash, and a character without a printed
form by its code point in hexadecimal.

## Main definitions

* `Text.inQuotes`: a text between single quotes, as it stands.
* `Text.quoted`: the quoted form of a text.
-/

namespace AssetBridge.Text

/-- A text between single quotes. -/
def inQuotes (s : Text) : Text := '\'' :: s ++ ['\'']

/-- The last `width` hexadecimal digits of a number. -/
def hexDigits (width n : Nat) : Text :=
  (List.range width).reverse.map fun i => Nat.digitChar (n / Nat.pow 16 i % 16)

/-- Whether a character has a printed form. -/
def isPrintable (c : Char) : Bool := !inRanges hiddenRanges c

/-- A character inside quotes. -/
def escaped (quote c : Char) : Text :=
  if c = quote || c = '\\' then ['\\', c]
  else if c = '\n' then ['\\', 'n']
  else if c = '\r' then ['\\', 'r']
  else if c = '\t' then ['\\', 't']
  else if isPrintable c then [c]
  else if c.toNat < 0x100 then ['\\', 'x'] ++ hexDigits 2 c.toNat
  else if c.toNat < 0x10000 then ['\\', 'u'] ++ hexDigits 4 c.toNat
  else ['\\', 'U'] ++ hexDigits 8 c.toNat

/-- The quote that encloses a text. -/
def quoteFor (s : Text) : Char := if '\'' ∈ s ∧ '"' ∉ s then '"' else '\''

/-- **Quoted form**: a text between quotes, in printable characters only. -/
def quoted (s : Text) : Text := quoteFor s :: s.flatMap (escaped (quoteFor s)) ++ [quoteFor s]

example : quoted "it's\n\u00e9\u200b".toList = "\"it's\\né\\u200b\"".toList := by
  decide +kernel

end AssetBridge.Text
