import Offside.Text.Split

/-!
# Paths

A path is a list of names with slashes between them. Its short form has no empty names, no names
that stand for the place itself, and no name followed by one that leads back.
-/

set_option autoImplicit false

namespace Offside.Path

/-- The names of a path. -/
def names (path : String) : List (List Char) := Text.splitOn '/' path.toList

/-- Whether a path starts at the root. -/
def isRooted (path : String) : Bool := path.toList.head? == some '/'

/-- Follows a name from a place, whose names are given backwards. From the root there is no way
up. -/
def follow (rooted : Bool) (place : List (List Char)) (name : List Char) : List (List Char) :=
  if name = [] ∨ name = ['.'] then place
  else if name = ['.', '.'] then
    match place with
    | [] => if rooted then [] else [name]
    | last :: up => if last = ['.', '.'] then name :: place else up
  else name :: place

/-- The short form of a path. -/
def clean (path : String) : String :=
  let rooted := isRooted path
  let place := ((names path).foldl (follow rooted) []).reverse
  let body := "/".intercalate (place.map String.ofList)
  if rooted then "/" ++ body else if place.isEmpty then "." else body

/-- The path of a name in a directory. -/
def join (directory name : String) : String :=
  clean (if directory.isEmpty then name else directory ++ "/" ++ name)

end Offside.Path
