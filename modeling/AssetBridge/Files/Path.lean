import AssetBridge.Text.Basic

/-!
# Paths

A path is relative, or starts at a root; its names stand between slashes. Empty names and single
dots say nothing and are left out, so that a path has one text.

## Main definitions

* `Path`, `Path.parse`, `Path.text`: a path and its text.
* `Path.child`: a name below a path.
-/

namespace AssetBridge

/-- A path: where it starts, and the names on the way. -/
structure Path where
  root : Text
  names : List Text
deriving DecidableEq, Repr

namespace Path

/-- Whether a name leads somewhere. -/
def isProper (name : Text) : Bool := name ≠ [] && name ≠ ['.']

/-- The root of a text: two slashes are another root than one or many. -/
def rootOf (s : Text) : Text :=
  match s.takeWhile (· = '/') with
  | [] => []
  | ['/', '/'] => ['/', '/']
  | _ => ['/']

/-- **Reading** a path. -/
def parse (s : Text) : Path := ⟨rootOf s, (Text.fields '/' s).filter isProper⟩

/-- **Writing** a path; the empty one is a dot. -/
def text (p : Path) : Text :=
  if p.root.isEmpty && p.names.isEmpty then ['.'] else p.root ++ Text.join ['/'] p.names

/-- A name below a path. -/
def child (p : Path) (name : Text) : Path := { p with names := p.names ++ [name] }

example : (parse "./a//b/".toList).text = "a/b".toList := rfl
example : ((parse []).child "x".toList).text = "x".toList := rfl

end Path

end AssetBridge
