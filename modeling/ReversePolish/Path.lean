/-
ReversePolish/Path.lean

File paths in normal form.  A path has a root (none for a relative path, and
exactly two leading slashes are a root of their own) and the parts between
slashes; empty parts and parts that are a single dot say nothing and are left
out.
-/

namespace ReversePolish

inductive Root where
  | relative
  | single
  | double
  deriving DecidableEq

def Root.text : Root → String
  | relative => ""
  | single => "/"
  | double => "//"

structure Path where
  root : Root
  parts : List String
  deriving DecidableEq

namespace Path

/-- The root of a path, read off its leading slashes. -/
def rootOf (text : List Char) : Root :=
  match (text.takeWhile (· == '/')).length with
  | 0 => .relative
  | 2 => .double
  | _ => .single

/-- The texts between slashes. -/
def segments : List Char → List (List Char)
  | [] => [[]]
  | c :: rest =>
    if c = '/' then [] :: segments rest
    else (segments rest).modifyHead (c :: ·)

def ofText (text : String) : Path :=
  { root := rootOf text.toList
    parts := ((segments text.toList).map String.ofList).filter fun s => s != "" && s != "." }

/-- The normal form of a path; the relative path with no parts is a dot. -/
def toText (path : Path) : String :=
  let text := path.root.text ++ String.intercalate "/" path.parts
  if text.isEmpty then "." else text

end Path

end ReversePolish
