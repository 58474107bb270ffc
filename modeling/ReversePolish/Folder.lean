/-
ReversePolish/Folder.lean

The folder a session works in, and how a path is followed from there.  A path
is followed part by part, and the first part that stops the walk decides: a
name that is not there, or that would have to lie inside a file, makes the path
*missing*; a name too long for any folder to hold makes it *too long*.  A path
that is too long as a whole is not followed at all.

The folder holds files and no other folders.  What lies outside it, above or
from the root, is folders without anything of interest in them.
-/
import ReversePolish.Path

namespace ReversePolish

/-- A folder of files, by name. -/
structure Folder where
  files : List (String × List UInt8) := []

namespace Folder

/-- The most bytes in a name. -/
def maxNameBytes : Nat := 255

/-- The most bytes in a path. -/
def maxPathBytes : Nat := 4095

/-- Where a walk stands. -/
inductive Place where
  /-- In the folder itself. -/
  | here
  /-- In a folder that is not this one. -/
  | outside
  /-- At a file. -/
  | file (content : List UInt8)

/-- What a path leads to. -/
inductive Found where
  | file (content : List UInt8)
  /-- No file. -/
  | missing
  /-- A name or path that no folder can hold. -/
  | tooLong
  deriving DecidableEq

/-- The file of a given name, at a place. -/
def file? (f : Folder) (name : String) : Place → Option (List UInt8)
  | .here => f.files.lookup name
  | _ => none

/-- Follow the parts of a path from a place.  Two dots lead to the folder
above. -/
def follow (f : Folder) : Place → List String → Found
  | .file content, [] => .file content
  | .here, [] => .missing
  | .outside, [] => .missing
  | .file _, _ :: _ => .missing
  | place, name :: rest =>
    if maxNameBytes < name.utf8ByteSize then .tooLong
    else if name = ".." then follow f .outside rest
    else match f.file? name place with
      | some content => follow f (.file content) rest
      | none => .missing

/-- The place where a path starts. -/
def startOf (path : Path) : Place :=
  if path.root = .relative then .here else .outside

/-- Follow a path. -/
def find (f : Folder) (path : Path) : Found :=
  if maxPathBytes < path.toText.utf8ByteSize then .tooLong
  else f.follow (startOf path) path.parts

end Folder

end ReversePolish
