import AssetBridge.Text.Basic

/-!
# Lines

A text file is read with every carriage return, alone or before a line feed, taken for a line feed.
Its lines then end at any line boundary; a boundary at the end of the text opens no further line.

## Main definitions

* `Text.unifyLineEnds`: one line feed for each way to end a line.
* `Text.isLineBoundary`, `Text.lines`: the lines of a text.
-/

namespace AssetBridge.Text

/-- Writes a line feed for a carriage return, with or without a line feed behind it. -/
def unifyLineEnds : Text → Text
  | [] => []
  | '\r' :: '\n' :: cs => '\n' :: unifyLineEnds cs
  | c :: cs => (if c = '\r' then '\n' else c) :: unifyLineEnds cs

/-- Whether a character ends a line. -/
def isLineBoundary (c : Char) : Bool :=
  c ∈ ['\n', '\r', '\x0b', '\x0c', '\x1c', '\x1d', '\x1e', '\u0085', '\u2028', '\u2029']

/-- The text with a line feed in place of every boundary, a return and its feed being one. -/
def markLines (s : Text) : Text :=
  (unifyLineEnds s).map fun c => if isLineBoundary c then '\n' else c

/-- Leaves out the empty part behind a final boundary. -/
def dropFinalEmpty : List Text → List Text
  | [] => []
  | [[]] => []
  | part :: parts => part :: dropFinalEmpty parts

/-- The lines of a text, without their ends. -/
def lines (s : Text) : List Text := dropFinalEmpty (fields '\n' (markLines s))

example : lines "a\r\nb\n\nc\u2028".toList = ["a".toList, "b".toList, [], "c".toList] := by decide

end AssetBridge.Text
