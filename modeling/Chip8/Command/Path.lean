/-!
# Paths

A path is a sequence of names, divided by slashes.  Empty names and single dots say nothing and are
left out; a path without names is the working directory, written as a dot.
-/

namespace Chip8.Command

/-- A path. -/
structure Path where
  /-- The slashes at the front of a path that does not begin in the working directory. -/
  root : String := ""
  /-- The names. -/
  names : List String
deriving DecidableEq, Repr

namespace Path

/-- The slashes that count at the front of a text.  Two of them are kept, as a root of its own. -/
def rootOf (text : List Char) : String :=
  match (text.takeWhile (· = '/')).length with
  | 0 => ""
  | 2 => "//"
  | _ => "/"

/-- The path that is written. -/
def ofString (s : String) : Path where
  root := rootOf s.toList
  names := ((s.toList.splitOn '/').map String.ofList).filter fun name => name ≠ "" && name ≠ "."

/-- The path as it is written. -/
def text (p : Path) : String :=
  if p.root = "" && p.names.isEmpty then "." else p.root ++ "/".intercalate p.names

/-- The path of the directory that holds what the path denotes. -/
def parent (p : Path) : Path :=
  { p with names := p.names.dropLast }

end Path

end Chip8.Command
