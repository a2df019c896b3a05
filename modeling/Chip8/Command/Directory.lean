import Chip8.Command.Path

/-!
# Directories

A `Directory` is what a command finds around its working directory, and what it leaves there: files
and folders by their location.  A location is a sequence of names from the working directory on; one
that begins with a slash or with two dots lies elsewhere.
-/

namespace Chip8.Command

/-- Why a file or folder cannot be had. -/
inductive FileError where
  /-- It does not exist. -/
  | notFound
  /-- It is a folder. -/
  | isFolder
  /-- A name in the midst of its path is a file. -/
  | notFolder
  /-- It is there already. -/
  | alreadyThere
deriving DecidableEq, Repr

/-- What the system says of the error. -/
def FileError.text : FileError → String
  | .notFound => "[Errno 2] No such file or directory"
  | .isFolder => "[Errno 21] Is a directory"
  | .notFolder => "[Errno 20] Not a directory"
  | .alreadyThere => "[Errno 17] File exists"

/-- A file or a folder. -/
inductive Node where
  /-- A file with its bytes. -/
  | file (data : List UInt8)
  /-- A folder. -/
  | folder
deriving DecidableEq, Repr

/-- A place among files and folders. -/
abbrev Location := List String

/-- The files and folders around a working directory. -/
structure Directory where
  /-- The files and folders that there are, latest first. -/
  nodes : List (Location × Node) := []
deriving DecidableEq, Repr

namespace Directory

/-- Puts a file or folder at a location. -/
def insert (d : Directory) (loc : Location) (node : Node) : Directory :=
  { d with nodes := (loc, node) :: d.nodes }

/-- Puts a file at a location, and the folders that it lies in. -/
def withFile (d : Directory) (loc : Location) (data : List UInt8) : Directory :=
  let folders := (List.range loc.length).map fun k => loc.take k
  (folders.foldl (fun d folder => d.insert folder .folder) d).insert loc (.file data)

/-- The directory that holds the files of a list, and the folders that these lie in. -/
def ofFiles (files : List (Path × List UInt8)) : Directory :=
  files.foldl (fun d file => d.withFile file.1.names file.2) {}

/-- What is at a location.  The working directory and the folders above it exist. -/
def node? (d : Directory) (loc : Location) : Option Node :=
  if loc.all (· = "..") || loc = ["/"] then some .folder else d.nodes.lookup loc

/-- The location of a name in the folder at a location. -/
def step (loc : Location) (name : String) : Location :=
  if name ≠ ".." then loc ++ [name]
  -- What lies above the root is the root.
  else if loc = ["/"] then loc
  else if loc.all (· = "..") then loc ++ [".."]
  else loc.dropLast

/-- The location that names lead to.  All but the last have to lead to folders. -/
def follow (d : Directory) (loc : Location) : List String → Except FileError Location
  | [] => .ok loc
  | name :: names =>
    match d.node? loc with
    | none => .error .notFound
    | some (.file _) => .error .notFolder
    | some .folder => d.follow (step loc name) names

/-- Where a path begins. -/
def start (p : Path) : Location := if p.root = "" then [] else ["/"]

/-- The locations that names lead through, the last one included. -/
def trail (loc : Location) : List String → List Location
  | [] => [loc]
  | name :: names => loc :: trail (step loc name) names

/-- The location of a path. -/
def locate (d : Directory) (p : Path) : Except FileError Location :=
  d.follow (start p) p.names

/-- The bytes of the file at a path. -/
def read (d : Directory) (p : Path) : Except FileError (List UInt8) := do
  match d.node? (← d.locate p) with
  | some (.file data) => return data
  | some .folder => throw .isFolder
  | none => throw .notFound

/-- Makes the folder at a location, unless it exists.  A file that is in the way is there already if
the location is the last of its path, and is otherwise no folder to go on from. -/
def makeFolder (isLast : Bool) (d : Directory) (loc : Location) : Except FileError Directory :=
  match d.node? loc with
  | some .folder => .ok d
  | some (.file _) => .error (if isLast then .alreadyThere else .notFolder)
  | none => .ok (d.insert loc .folder)

/-- Makes the folders that names lead to. -/
def makeFoldersFrom (d : Directory) (loc : Location) : List String → Except FileError Directory
  | [] => .ok d
  | name :: names => do
    let next := step loc name
    (← makeFolder names.isEmpty d next).makeFoldersFrom next names

/-- Makes the folder at a path and the folders that it lies in, unless they exist. -/
def makeFolders (d : Directory) (p : Path) : Except FileError Directory :=
  d.makeFoldersFrom (start p) p.names

/-- Writes a file. -/
def write (d : Directory) (p : Path) (data : List UInt8) : Except FileError Directory := do
  let loc ← d.locate p
  match d.node? loc with
  | some .folder => throw .isFolder
  | some (.file _) => return d.insert loc (.file data)
  | none => return d.insert loc (.file data)

/-- A location as it is written. -/
def Location.text : Location → String
  | [] => "."
  | "/" :: names => "/" ++ "/".intercalate names
  | names => "/".intercalate names

/-- The files in the working directory that were not there before, with their paths. -/
def newFiles (before after : Directory) : List (String × List UInt8) :=
  (after.nodes.map (·.1)).eraseDups.filterMap fun loc =>
    match before.node? loc, after.node? loc with
    | none, some (.file data) =>
      if loc.head?.any fun name => name = ".." || name = "/" then none
      else some (Location.text loc, data)
    | _, _ => none

end Directory

end Chip8.Command
