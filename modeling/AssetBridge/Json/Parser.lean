import AssetBridge.Json.Basic
import AssetBridge.Numeral

/-!
# Reading JSON

A JSON text is one value between blanks. A key that is written twice keeps its first place and its
last value. The infinities and the value that is no number may be written by name.

## Main definitions

* `Json.Error`: why a text is refused.
* `Json.parse`: the value of a text.
-/

namespace AssetBridge.Json

/-- Why a text is no manifest value. -/
inductive Error where
  /-- It is not JSON. -/
  | malformed
  /-- It holds an integer of too many digits. -/
  | numeral (cause : Numeral.Error)
deriving DecidableEq, Repr

/-- Whether a character may stand between the parts of a value. -/
def isSpace (c : Char) : Bool := c = ' ' || c = '\t' || c = '\n' || c = '\r'

/-- The text behind its blanks. -/
def skip (s : Text) : Text := s.dropWhile isSpace

/-! ## Strings -/

/-- The value of a hexadecimal digit. -/
def hexValue? (c : Char) : Option Nat :=
  if c.isDigit then some (c.toNat - '0'.toNat)
  else if 'a' ≤ c && c ≤ 'f' then some (c.toNat - 'a'.toNat + 10)
  else if 'A' ≤ c && c ≤ 'F' then some (c.toNat - 'A'.toNat + 10)
  else none

/-- The number of four hexadecimal digits, and what follows them. -/
def unit? (s : Text) : Option (Nat × Text) :=
  match s with
  | a :: b :: c :: d :: r => do
    let digits ← [a, b, c, d].mapM hexValue?
    return (digits.foldl (fun n v => 16 * n + v) 0, r)
  | _ => none

/-- The character of a unit that stands alone; half of a pair is none, and is replaced. -/
def loneUnit (n : Nat) : Char := if 0xD800 ≤ n && n < 0xE000 then '\ufffd' else Char.ofNat n

/-- The character of one unit, or of a high unit and the low one that is written behind it. -/
def unitChar (n : Nat) (s : Text) : Char × Text :=
  match (Text.dropPrefix? ['\\', 'u'] s).bind unit? with
  | some (m, r) =>
    if 0xD800 ≤ n && n < 0xDC00 && 0xDC00 ≤ m && m < 0xE000 then
      (Char.ofNat (0x10000 + (n - 0xD800) * 0x400 + (m - 0xDC00)), r)
    else (loneUnit n, s)
  | none => (loneUnit n, s)

/-- The character that an escape stands for, and what follows it. -/
def escape? (s : Text) : Option (Char × Text) :=
  match s with
  | '"' :: r => some ('"', r)
  | '\\' :: r => some ('\\', r)
  | '/' :: r => some ('/', r)
  | 'b' :: r => some ('\x08', r)
  | 'f' :: r => some ('\x0c', r)
  | 'n' :: r => some ('\n', r)
  | 'r' :: r => some ('\r', r)
  | 't' :: r => some ('\t', r)
  | 'u' :: r => (unit? r).map fun (n, r) => unitChar n r
  | _ => none

/-- The characters up to the closing quote, and what follows it. The first argument bounds the
number of characters. -/
def stringWithin : Nat → Text → Option (Text × Text)
  | 0, _ => none
  | _ + 1, [] => none
  | n + 1, c :: r =>
    if c = '"' then some ([], r)
    else if c = '\\' then
      match escape? r with
      | some (e, r) => (stringWithin n r).map fun (s, r) => (e :: s, r)
      | none => none
    else if c.toNat < 0x20 then none
    else (stringWithin n r).map fun (s, r) => (c :: s, r)

/-- The text behind an opening quote, and what follows its closing one. -/
def string (s : Text) : Except Error (Text × Text) :=
  match stringWithin s.length s with
  | some result => .ok result
  | none => .error .malformed

/-! ## Numbers -/

/-- A fraction: a point and digits. -/
def fractionPart (s : Text) : Text × Text :=
  match s with
  | '.' :: r =>
    if (r.takeWhile Char.isDigit).isEmpty then ([], s)
    else (r.takeWhile Char.isDigit, r.dropWhile Char.isDigit)
  | _ => ([], s)

/-- An exponent: its sign and its digits. -/
def exponentPart (s : Text) : Option (Bool × Text) × Text :=
  match s with
  | c :: r =>
    let body := Numeral.dropSign r
    if (c = 'e' || c = 'E') && !(body.takeWhile Char.isDigit).isEmpty then
      (some (r.head? = some '-', body.takeWhile Char.isDigit), body.dropWhile Char.isDigit)
    else (none, s)
  | [] => (none, s)

/-- The floating-point number nearest to `digits * 10 ^ exponent`. Far outside the range it is
infinite or zero. -/
def nearestFloat (digits : Text) (exponent : Int) : Float :=
  let significant := digits.dropWhile (· = '0')
  let top := (significant.length : Int) + exponent
  if significant.isEmpty || top < -400 then 0
  else if 400 < top then 1 / 0
  else if exponent < 0 then Float.ofScientific (Numeral.value significant) true exponent.natAbs
  else Float.ofScientific (Numeral.value significant) false exponent.natAbs

/-- The digits of the whole part: a zero, or digits that do not start with one. -/
def wholePart (s : Text) : Text × Text :=
  match s with
  | '0' :: r => (['0'], r)
  | _ => (s.takeWhile Char.isDigit, s.dropWhile Char.isDigit)

/-- An unsigned number behind a sign that has been read. -/
def number (negative : Bool) (s : Text) : Except Error (Json × Text) :=
  let (whole, r) := wholePart s
  if whole.isEmpty then .error .malformed
  else
    let (fraction, r) := fractionPart r
    let (exponent, r) := exponentPart r
    match fraction, exponent with
    | [], none =>
      match Numeral.read whole with
      | .ok n => .ok (int (if negative then -(n : Int) else n), r)
      | .error e => .error (.numeral e)
    | _, _ =>
      let power : Int := match exponent with
        | none => 0
        | some (down, digits) =>
          if down then -(Numeral.value digits : Int) else Numeral.value digits
      let size := nearestFloat (whole ++ fraction) (power - fraction.length)
      .ok (real (if negative then -size else size), r)

/-! ## Values -/

/-- The values that are written by name. -/
def named? (s : Text) : Option (Json × Text) :=
  [("null", null), ("true", bool true), ("false", bool false), ("NaN", real (0 / 0)),
    ("Infinity", real (1 / 0)), ("-Infinity", real (-1 / 0))].findSome? fun (name, value) =>
      (Text.dropPrefix? name.toList s).map fun r => (value, r)

mutual

/-- A value and what follows it. The first argument bounds the number of steps. -/
def valueWithin : Nat → Text → Except Error (Json × Text)
  | 0, _ => .error .malformed
  | n + 1, s =>
    match s with
    | '"' :: r => (string r).map fun (t, r) => (str t, r)
    | '[' :: r =>
      match skip r with
      | ']' :: r => .ok (arr [], r)
      | r => (itemsWithin n r).map fun (items, r) => (arr items, r)
    | '\x7b' :: r =>
      match skip r with
      | '\x7d' :: r => .ok (obj [], r)
      | r => (membersWithin n r).map fun (members, r) => (obj (Table.ofList members), r)
    | _ =>
      match named? s with
      | some result => .ok result
      | none =>
        match s with
        | '-' :: r => number true r
        | _ => number false s

/-- The items of an array, up to its closing bracket. -/
def itemsWithin : Nat → Text → Except Error (List Json × Text)
  | 0, _ => .error .malformed
  | n + 1, s =>
    match valueWithin n s with
    | .error e => .error e
    | .ok (item, r) =>
      match skip r with
      | ']' :: r => .ok ([item], r)
      | ',' :: r => (itemsWithin n (skip r)).map fun (items, r) => (item :: items, r)
      | _ => .error .malformed

/-- The members of an object as they are written, up to its closing brace. -/
def membersWithin : Nat → Text → Except Error (List (Text × Json) × Text)
  | 0, _ => .error .malformed
  | n + 1, s =>
    match s with
    | '"' :: r =>
      match string r with
      | .error e => .error e
      | .ok (key, r) =>
        match skip r with
        | ':' :: r =>
          match valueWithin n (skip r) with
          | .error e => .error e
          | .ok (value, r) =>
            match skip r with
            | '\x7d' :: r => .ok ([(key, value)], r)
            | ',' :: r =>
              (membersWithin n (skip r)).map fun (members, r) => ((key, value) :: members, r)
            | _ => .error .malformed
        | _ => .error .malformed
    | _ => .error .malformed

end

/-- **Reading**: the value of a text. Every bracket and every item takes at least one character, so
twice the length of the text bounds the steps. -/
def parse (s : Text) : Except Error Json :=
  match valueWithin (2 * s.length + 1) (skip s) with
  | .error e => .error e
  | .ok (value, r) => if (skip r).isEmpty then .ok value else .error .malformed

end AssetBridge.Json
