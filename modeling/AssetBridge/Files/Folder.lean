import AssetBridge.Files.Path

/-!
# Folders

What a program finds at a path: nothing, a folder, or a file with its bytes. A folder may be given
by the files below it; then nothing is known of what lies outside, except that going up leads into
folders.

## Main definitions

* `Node`, `Folder`: what a path leads to.
* `Folder.ofFiles`: the folder that holds some files.
-/

namespace AssetBridge

/-- What a path leads to. -/
inductive Node where
  | absent
  | folder
  | file (bytes : ByteArray)
deriving Inhabited

/-- A folder: what is found at the paths that start there. -/
abbrev Folder := Path → Node

namespace Folder

/-- Files by the names that lead to them. -/
abbrev Files := List (List Text × ByteArray)

/-- What the names lead to, without any dots. -/
def nodeAt (files : Files) (names : List Text) : Node :=
  match files.find? fun file => file.1 = names with
  | some (_, bytes) => .file bytes
  | none =>
    if names = [] ∨ files.any (fun file => names.isPrefixOf file.1) then .folder else .absent

/-- The name of the folder above. -/
def parent : Text := ['.', '.']

/-- Follows names from a folder, or from a place outside, which is `none`. -/
def follow (files : Files) : Option (List Text) → List Text → Node
  | none, [] => .folder
  | some here, [] => nodeAt files here
  | none, name :: names => if name = parent then follow files none names else .absent
  | some here, name :: names =>
    if name = parent then follow files (if here = [] then none else some here.dropLast) names
    else
      match nodeAt files (here ++ [name]) with
      | .folder => follow files (some (here ++ [name])) names
      | .file bytes => if names = [] then .file bytes else .absent
      | .absent => .absent

/-- **The folder that holds some files.** -/
def ofFiles (files : List (Text × ByteArray)) : Folder := fun p =>
  follow (files.map fun (path, bytes) => ((Path.parse path).names, bytes))
    (if p.root = [] then some [] else none) p.names

/-- The folder in which nothing is found. -/
def empty : Folder := ofFiles []

end Folder

end AssetBridge
