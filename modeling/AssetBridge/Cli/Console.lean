import AssetBridge.Text.Digit
import AssetBridge.Text.Quoted

/-!
# The console

The console takes a word in brackets for a style, and a backslash in front of a bracket for a guard
against that. Values are guarded before they are printed, so that a style in them is printed like
anything else. Three things about a value are not printed as they are: a backslash in front of a
bracket that opens no style is taken for a guard, a single backslash at the end is doubled, and the
control characters that would move the cursor are left out.

## Main definitions

* `Cli.Output`: what a command prints.
* `Cli.shown`: a value as the console prints it.
* `Cli.Output.lines`: the lines in which an output is laid out.
-/

namespace AssetBridge.Cli

/-- What a command prints. -/
inductive Output where
  /-- A line of text. -/
  | line (s : Text)
  /-- A table with the names of its columns. -/
  | table (title : Text) (columns : List Text) (rows : List (List Text))
  /-- A JSON text. -/
  | json (s : Text)
deriving DecidableEq, Repr

/-- Whether what follows a bracket makes it open a style: a small letter or a sign, and a closing
bracket before the next opening one. -/
def opensStyle : Text → Bool
  | [] => false
  | c :: s =>
    (Text.isSmall c || c ∈ ['#', '/', '@']) &&
      (s.dropWhile fun d => d != '[' && d != ']').head? = some ']'

/-- A text without the backslashes that are taken for guards. -/
def dropGuards : Text → Text
  | [] => []
  | c :: s =>
    if c = '\\' && s.head? = some '[' && !opensStyle s.tail then dropGuards s else c :: dropGuards s

/-- Whether a text ends with a single backslash. -/
def endsWithGuard (s : Text) : Bool :=
  match s.reverse with
  | '\\' :: r => r.head? != some '\\'
  | _ => false

/-- Whether a character moves the cursor: the bell, the backspace, the vertical tab, the form feed
and the carriage return. -/
def isCursorControl (c : Char) : Bool := c ∈ ['\x07', '\x08', '\x0b', '\x0c', '\r']

/-- **A value as the console prints it.** -/
def shown (s : Text) : Text :=
  (dropGuards s ++ if endsWithGuard s then ['\\'] else []).filter fun c => !isCursorControl c

/-- A value between single quotes, as the console prints it. -/
def shownQuoted (s : Text) : Text := Text.inQuotes (shown s)

example : shown "[red]1[/red]".toList = "[red]1[/red]".toList := by decide +kernel

/-! ## Layout -/

/-- A text filled up with blanks to a width. -/
def padRight (width : Nat) (s : Text) : Text := s ++ List.replicate (width - s.length) ' '

/-- A row with its cells filled up to the widths of their columns. -/
def layRow (widths : List Nat) (row : List Text) : Text :=
  Text.join [' ', ' '] (List.zipWith padRight widths row)

/-- The widths of the columns in which all rows stand below each other. -/
def columnWidths (columns : List Text) (rows : List (List Text)) : List Nat :=
  rows.foldl (fun widths row => List.zipWith (fun n s => max n s.length) widths row)
    (columns.map List.length)

/-- **The lines of an output.** -/
def Output.lines : Output → List Text
  | .line s => [s]
  | .json s => [s]
  | .table title columns rows =>
    title :: (columns :: rows).map (layRow (columnWidths columns rows))

example : (Output.table ['t'] [['a'], "bc".toList] [["xy".toList, ['z']]]).lines =
    [['t'], "a   bc".toList, "xy  z ".toList] := by decide +kernel

end AssetBridge.Cli
