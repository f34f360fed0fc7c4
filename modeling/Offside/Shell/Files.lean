import Offside.Path
import Offside.Text.Rune

/-!
# Files as the shell sees them

The shell looks at a path and finds a file, a directory, or nothing. Where there is nothing it
depends on what stands in the way whether the path can be written.
-/

set_option autoImplicit false

namespace Offside

/-- What stands in the way of opening a path. -/
inductive Obstacle where
  /-- Nothing is there. -/
  | nothingThere
  /-- The way leads through a file. -/
  | throughFile
  /-- A directory is there, or nothing else could be. -/
  | directoryThere
  /-- A name, or the whole path, is too long. -/
  | nameTooLong
  /-- The path holds a character that no path can hold. -/
  | noPath
  deriving DecidableEq, Repr, Inhabited

/-- How an obstacle is put into words. -/
def Obstacle.text : Obstacle → String
  | nothingThere => "no such file or directory"
  | throughFile => "not a directory"
  | directoryThere => "is a directory"
  | nameTooLong => "file name too long"
  | noPath => "invalid argument"

/-- What is found at a path. -/
inductive FileStatus where
  /-- A file with its content. -/
  | file (content : Text)
  /-- A directory. -/
  | directory
  /-- Neither; what hinders reading, and what hinders writing if anything does. -/
  | missing (reading : Obstacle) (writing : Option Obstacle)
  deriving DecidableEq, Repr, Inhabited

namespace FileStatus

/-- Nothing, in a directory that is there. -/
def absent : FileStatus := missing .nothingThere none

/-- Nothing, and the same obstacle to reading and writing. -/
def unreachable (obstacle : Obstacle) : FileStatus := missing obstacle (some obstacle)

/-- Whether something is there. -/
def isPresent : FileStatus → Bool
  | file _ | directory => true
  | missing .. => false

/-- The complaint that a path cannot be opened. -/
def openFault (path : String) (obstacle : Obstacle) : String :=
  "open " ++ path ++ ": " ++ obstacle.text

/-- The content of the file at a path, nothing if there is no file, or why it cannot be read. -/
def content? (path : String) : FileStatus → Except String (Option Text)
  | file t => .ok (some t)
  | directory => .error ("read " ++ path ++ ": " ++ Obstacle.directoryThere.text)
  | missing .nothingThere _ => .ok none
  | missing obstacle _ => .error (openFault path obstacle)

/-- The content of the file at a path, or why it cannot be read. -/
def content (path : String) (status : FileStatus) : Except String Text :=
  match status.content? path with
  | .ok (some t) => .ok t
  | .ok none => .error (openFault path .nothingThere)
  | .error reason => .error reason

/-- Why a file cannot be written at a path, if so. -/
def writeFault? (path : String) : FileStatus → Option String
  | file _ => none
  | directory => some (openFault path .directoryThere)
  | missing _ writing => writing.map (openFault path)

end FileStatus

/-- A tree of files below one directory. -/
structure Files where
  /-- The files by their paths. -/
  contents : List (String × Text)
  /-- The directories by their paths. -/
  directories : List String
  deriving DecidableEq, Repr, Inhabited

namespace Files

/-- The path of a place, whose names are given backwards. -/
def pathOf (place : List (List Char)) : String :=
  "/".intercalate (place.reverse.map String.ofList)

/-- What is found at a place whose parent is a directory. -/
def at? (files : Files) (place : List (List Char)) : FileStatus :=
  let path := pathOf place
  match files.contents.lookup path with
  | some t => .file t
  | none =>
      let below := files.contents.map Prod.fst ++ files.directories
      if place.isEmpty || files.directories.contains path ||
          below.any fun p => (path ++ "/").toList.isPrefixOf p.toList then .directory
      else .absent

/-- How many bytes a name may have. -/
def longestName : Nat := 255

/-- How many bytes a path may have. -/
def longestPath : Nat := 4095

/-- What is found from a file or from nothing along further names. A slash at the end asks for a
directory, which cannot be written. -/
def beyond (found : Obstacle) (names : List (List Char)) : FileStatus :=
  .missing found (some (if names.all List.isEmpty then .directoryThere else found))

/-- Walks along names from a directory. Outside the tree, where there is no place, directories lead
up and nothing leads down. -/
def walk (files : Files) : (place : Option (List (List Char))) → List (List Char) → FileStatus
  | _, [] => .directory
  | place, name :: rest =>
      if name = [] ∨ name = ['.'] then walk files place rest
      else if name = ['.', '.'] then
        match place with
        | some (_ :: up) => walk files (some up) rest
        | _ => walk files none rest
      else if longestName < (String.ofList name).utf8ByteSize then .unreachable .nameTooLong
      else
        let found := match place with
          | some here => files.at? (name :: here)
          | none => .absent
        match found, rest with
        | .directory, _ => walk files (place.map (name :: ·)) rest
        | .file t, [] => .file t
        | .file _, _ => beyond .throughFile rest
        | .missing .., [] => .absent
        | .missing .., _ => beyond .nothingThere rest

/-- What is found at a path. -/
def look (files : Files) (path : String) : FileStatus :=
  if path.isEmpty then .unreachable .nothingThere
  else if path.toList.contains (Char.ofNat 0) then .unreachable .noPath
  else if longestPath < path.utf8ByteSize then .unreachable .nameTooLong
  else files.walk (if Path.isRooted path then none else some []) (Path.names path)

/-- The files with a new content at a path. -/
def put (files : Files) (path : String) (content : Text) : Files :=
  let place := Path.clean path
  { files with contents := (place, content) :: files.contents.filter fun f => f.1 != place }

end Files

end Offside
