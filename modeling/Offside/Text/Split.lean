/-!
# Splitting at a separator

A separator cuts a list of characters into parts. There is always one part more than there are
separators.
-/

set_option autoImplicit false

namespace Offside.Text

/-- The parts between separators. -/
def splitOn (separator : Char) : List Char → List (List Char)
  | [] => [[]]
  | c :: rest =>
      if c = separator then [] :: splitOn separator rest
      else match splitOn separator rest with
        | [] => [[c]]
        | part :: more => (c :: part) :: more

end Offside.Text
