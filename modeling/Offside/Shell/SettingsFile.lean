import Offside.Settings.Basic
import Offside.Shell.Files

/-!
# Settings files

Settings are read over the defaults; without a file the defaults hold.
-/

set_option autoImplicit false

namespace Offside.Settings

/-- What came of reading settings: the settings, and why they are not those of the file, if so. -/
structure Loaded where
  /-- The settings. -/
  settings : Settings
  /-- Why the file was not read, or not all of it. -/
  complaint : Option Text
  deriving DecidableEq, Repr, Inhabited

/-- Reads the settings at a path. -/
def load (status : FileStatus) (home : Option String) (path : String) : Loaded :=
  let start := defaults home
  match status.content? path with
  | .error reason => ⟨start, some (Text.ofString reason)⟩
  | .ok none => ⟨start, none⟩
  | .ok (some t) =>
      let (settings, complaint) := start.setText t
      ⟨settings, complaint.map Complaint.message⟩

/-- The text to be written at a path for settings, or why it cannot be written. -/
def save (status : FileStatus) (path : String) (settings : Settings) : Except String Text :=
  match status.writeFault? path with
  | some reason => .error reason
  | none => .ok (Text.ofString settings.render)

end Offside.Settings
