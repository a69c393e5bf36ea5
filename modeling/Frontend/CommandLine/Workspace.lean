/-!
# Workspaces

A workspace is a directory with directories and files in it. It is made by writing
files into an empty directory. A path leads from the workspace, name by name, to a
file, whose text can be read if its bytes encode one.

Names and paths of more than a certain number of bytes lead nowhere. Outside of the
workspace only those places are known that every system has.
-/

namespace Frontend
namespace CommandLine

/-- Why a file cannot be read. -/
inductive ReadError
  | notFound
  | notDirectory
  | isDirectory
  | nameTooLong
  | notText
  | other (reason : String)
  deriving DecidableEq, Repr

/-- The error in words. -/
def ReadError.message : ReadError -> String
  | .notFound => "No such file or directory (os error 2)"
  | .notDirectory => "Not a directory (os error 20)"
  | .isDirectory => "Is a directory (os error 21)"
  | .nameTooLong => "File name too long (os error 36)"
  | .notText => "stream did not contain valid UTF-8"
  | .other reason => reason

/-- The names on the way to a place, innermost first. -/
abbrev Names := List String

/-- Directories and files. -/
structure Workspace where
  directories : List Names := []
  /-- The files with their bytes, the latest first. -/
  files : List (Names × ByteArray) := []

namespace Workspace

/-- The names of a path, outermost first. -/
def names (path : String) : List String :=
  (path.splitOn "/").filter (· ≠ "")

section Writing

/-- Go on by one name of a path, and make a directory where there is none. -/
def makeWay
    (way : Workspace × Names)
    (name : String) : Workspace × Names :=
  let (workspace, place) := way
  match name with
  | "." => way
  | ".." => (workspace, place.tail)
  | _ =>
      let place := name :: place
      ({ workspace with directories := workspace.directories.insert place }, place)

/-- Write a file, and make the directories on the way to it. A file that was there
before is replaced. -/
def write
    (workspace : Workspace)
    (path : String)
    (content : ByteArray) : Workspace :=
  match (names path).getLast? with
  | none => workspace
  | some name =>
      let (workspace, place) :=
        (names path).dropLast.foldl makeWay (workspace, [])
      { workspace with files := (name :: place, content) :: workspace.files }

/-- The workspace into which files are written in order. -/
def ofFiles (files : List (String × ByteArray)) : Workspace :=
  files.foldl (fun workspace (path, content) => workspace.write path content) {}

end Writing

/-- A place that a path leads to. -/
inductive Place
  /-- A place in the workspace. -/
  | inside (names : Names)
  /-- A directory around the workspace, of which nothing else is known. -/
  | around
  /-- A place of the system, by the names from its root. -/
  | system (names : Names)
  deriving DecidableEq, Repr

namespace Place

/-- The directory around a place. -/
def outer : Place -> Place
  | .inside [] | .around => .around
  | .inside (_ :: names) => .inside names
  | .system names => .system names.tail

/-- The place of a name in a directory, if anything is known of it. -/
def inner? (place : Place) (name : String) : Option Place :=
  match place with
  | .inside names => some (.inside (name :: names))
  | .around => none
  | .system names => some (.system (name :: names))

end Place

section Reading

/-- The directories that every system has. -/
def systemDirectories : List Names :=
  [[], ["dev"], ["tmp"]]

/-- The files that every system has, with their bytes. -/
def systemFiles : List (Names × ByteArray) :=
  [(["null", "dev"], ByteArray.empty)]

/-- The largest number of bytes of a name. -/
def nameLimit : Nat := 255

/-- The largest number of bytes of a path. -/
def pathLimit : Nat := 4095

variable (workspace : Workspace)

/-- There is a directory at the place. -/
def isDirectory : Place -> Bool
  | .inside names => names.isEmpty || workspace.directories.contains names
  | .around => true
  | .system names => systemDirectories.contains names

/-- The bytes of the file at a place. -/
def content? : Place -> Option ByteArray
  | .inside names => workspace.files.lookup names
  | .around => none
  | .system names => systemFiles.lookup names

/-- There is a directory or a file at the place. -/
def isPresent (place : Place) : Bool :=
  workspace.isDirectory place || (workspace.content? place).isSome

/-- Go on by one name of a path. Only a directory has places in it. -/
def go (place : Place) (name : String) : Except ReadError Place :=
  if !workspace.isDirectory place then
    .error .notDirectory
  else if name = "." then
    .ok place
  else if name = ".." then
    .ok place.outer
  else if nameLimit < name.utf8ByteSize then
    .error .nameTooLong
  else
    match (place.inner? name).filter workspace.isPresent with
    | some inner => .ok inner
    | none => .error .notFound

/-- The place that a path leads to. A path that ends in a slash leads to a
directory. -/
def find (path : String) : Except ReadError Place := do
  if pathLimit < path.utf8ByteSize then
    throw .nameTooLong
  let start := if path.startsWith "/" then Place.system [] else .inside []
  let place <- (names path).foldlM workspace.go start
  if path.endsWith "/" then workspace.go place "." else return place

/-- The text of the file at a path. -/
def read (path : String) : Except ReadError String := do
  match workspace.content? (<- workspace.find path) with
  | none => throw .isDirectory
  | some content =>
      match String.fromUTF8? content with
      | some text => return text
      | none => throw .notText

end Reading

end Workspace

end CommandLine
end Frontend
