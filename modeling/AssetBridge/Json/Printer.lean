import AssetBridge.Decimal.Shortest
import AssetBridge.Json.Basic
import AssetBridge.Numeral
import AssetBridge.Text.Quoted

/-!
# Writing JSON

Values are written on one line in printable ASCII, a blank behind every comma and colon. Messages
show a value in a second notation, which quotes texts as messages do and has names of its own for
the constants.

## Main definitions

* `Json.realText`: the text of a floating-point number.
* `Json.render`: the JSON text of a value.
* `Json.describe`: the form of a value in messages.
-/

namespace AssetBridge.Json

/-! ## Numbers -/

/-- Digits with a point behind the first `point` of them, both sides filled with zeros. -/
def positional (digits : Text) (point : Int) : Text :=
  if point ≤ 0 then '0' :: '.' :: List.replicate (-point).toNat '0' ++ digits
  else if digits.length ≤ point.toNat then
    digits ++ List.replicate (point.toNat - digits.length) '0' ++ ['.', '0']
  else digits.take point.toNat ++ '.' :: digits.drop point.toNat

/-- Digits with a point behind the first one and a signed exponent of at least two digits. -/
def exponential (digits : Text) (exponent : Int) : Text :=
  digits.take 1 ++ (if digits.length ≤ 1 then [] else '.' :: digits.drop 1) ++
    'e' :: (if exponent < 0 then '-' else '+') :: Numeral.padded 2 exponent.natAbs

/-- The text of a finite number that is not negative: positional from 0.0001 up to 16 digits before
the point, and otherwise exponential. -/
def sizeText (x : Float) : Text :=
  let d := (Binary.ofFloat x).shortest
  let digits := Numeral.digits d.digits
  let point := (digits.length : Int) + d.exponent
  if d.digits = 0 then "0.0".toList
  else if -4 < point && point ≤ 16 then positional digits point
  else exponential digits (point - 1)

/-- Whether the sign bit of a number is set. -/
def isNegative (x : Float) : Bool := x.toBits.toNat.testBit 63

/-- **Real numbers**: the fewest digits that read back, always with a point or an exponent. The
names for the value that is no number and for the infinite one are given. -/
def realText (notNumber infinite : Text) (x : Float) : Text :=
  if x.isNaN then notNumber
  else (if isNegative x then ['-'] else []) ++ if x.isInf then infinite else sizeText x.abs

/-! ## JSON -/

/-- A character inside quotes, in printable ASCII. A character beyond the first plane is written as
two units. -/
def escaped (c : Char) : Text :=
  if c = '"' then ['\\', '"']
  else if c = '\\' then ['\\', '\\']
  else if c = '\n' then ['\\', 'n']
  else if c = '\r' then ['\\', 'r']
  else if c = '\t' then ['\\', 't']
  else if c = '\x08' then ['\\', 'b']
  else if c = '\x0c' then ['\\', 'f']
  else if 0x20 ≤ c.toNat && c.toNat < 0x7F then [c]
  else if c.toNat < 0x10000 then ['\\', 'u'] ++ Text.hexDigits 4 c.toNat
  else
    ['\\', 'u'] ++ Text.hexDigits 4 (0xD800 + (c.toNat - 0x10000) / 0x400) ++
      ['\\', 'u'] ++ Text.hexDigits 4 (0xDC00 + (c.toNat - 0x10000) % 0x400)

/-- A text between double quotes. -/
def quotedText (s : Text) : Text := '"' :: s.flatMap escaped ++ ['"']

/-- An integer, whatever its size. -/
def intText : Int → Text
  | .ofNat n => Numeral.digits n
  | .negSucc n => '-' :: Numeral.digits (n + 1)

/-- Parts between brackets, with a comma and a blank between them. -/
def enclosed (opening closing : Char) (parts : List Text) : Text :=
  opening :: Text.join ", ".toList parts ++ [closing]

mutual

/-- **Writing**: the JSON text of a value. -/
def render : Json → Text
  | null => "null".toList
  | bool true => "true".toList
  | bool false => "false".toList
  | int i => intText i
  | real x => realText "NaN".toList "Infinity".toList x
  | str s => quotedText s
  | arr items => enclosed '[' ']' (renderItems items)
  | obj members => enclosed '\x7b' '\x7d' (renderMembers members)

/-- The texts of the items of an array. -/
def renderItems : List Json → List Text
  | [] => []
  | item :: items => render item :: renderItems items

/-- The texts of the members of an object. -/
def renderMembers : List (Text × Json) → List Text
  | [] => []
  | (key, value) :: members =>
    (quotedText key ++ ':' :: ' ' :: render value) :: renderMembers members

end

/-! ## Messages -/

mutual

/-- The form of a value in messages. -/
def describe : Json → Text
  | null => "None".toList
  | bool true => "True".toList
  | bool false => "False".toList
  | int i => intText i
  | real x => realText "nan".toList "inf".toList x
  | str s => Text.quoted s
  | arr items => enclosed '[' ']' (describeItems items)
  | obj members => enclosed '\x7b' '\x7d' (describeMembers members)

/-- The forms of the items of an array. -/
def describeItems : List Json → List Text
  | [] => []
  | item :: items => describe item :: describeItems items

/-- The forms of the members of an object. -/
def describeMembers : List (Text × Json) → List Text
  | [] => []
  | (key, value) :: members =>
    (Text.quoted key ++ ':' :: ' ' :: describe value) :: describeMembers members

end

end AssetBridge.Json
