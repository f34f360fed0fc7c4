import Offside.Shell.Outcome

/-!
# The command line

The outer layer of the shell: it looks at the paths that a command line names, reads the input if
the command wants it, and carries out what the outcome says.
-/

set_option autoImplicit false

namespace Offside.Main

/-- The error code of reading a directory. -/
def isDirectoryCode : UInt32 := 21

/-- The error code of a way that leads through a file. -/
def notDirectoryCode : UInt32 := 20

/-- The path of the directory that holds a path. -/
def parentOf (path : String) : String :=
  let names := (Path.names path).dropLast
  if names.isEmpty then "." else "/".intercalate (names.map String.ofList) ++ "/"

/-- Looks at a path. -/
def probe (path : String) : IO FileStatus := do
  let attempt (p : String) : IO (Except IO.Error Text) :=
    try return .ok (← IO.FS.readBinFile p).toList catch e => return .error e
  match ← attempt path with
  | .ok t => return .file t
  | .error (.inappropriateType _ code _) =>
      return if code == isDirectoryCode then .directory else .unreachable .throughFile
  | .error _ =>
      match ← attempt (parentOf path) with
      | .error (.inappropriateType _ code _) =>
          return if code == isDirectoryCode then .absent else .unreachable .nothingThere
      | _ => return .unreachable .nothingThere

/-- Reads a stream to its end, in front of which stands what was read already. -/
partial def readAll (stream : IO.FS.Stream) (before : ByteArray) : IO Text := do
  let chunk ← stream.read 65536
  if chunk.isEmpty then return before.toList else readAll stream (before ++ chunk)

/-- Writes a text on a stream. -/
def put (stream : IO.FS.Stream) (t : Text) : IO Unit := do
  stream.write ⟨t.toArray⟩
  stream.flush

/-- Carries out what an outcome says, and gives the exit code. -/
def conclude (outcome : Outcome) : IO UInt32 := do
  let complaints ← IO.getStderr
  put (← IO.getStdout) outcome.output
  put complaints outcome.complaints
  for (path, content) in outcome.files do
    IO.FS.writeBinFile path ⟨content.toArray⟩
  match outcome.ending with
  | .success => return 0
  | .failure code message =>
      put complaints (message ++ [lineFeed])
      return UInt32.ofNat code
  | .fatal message =>
      put complaints (Text.ofString "error with huil: " ++ message ++ [lineFeed])
      return 1

end Offside.Main

open Offside in
/-- Runs a command line. -/
def main (words : List String) : IO UInt32 := do
  let invocation := Invocation.ofWords words
  let paths := (invocation.toOption.map Invocation.paths).getD []
  let found ← paths.mapM fun path => return (path, ← Main.probe path)
  let wantsInput := (invocation.toOption.map fun i => i.command.readsInput).getD false
  let input ← if wantsInput then Main.readAll (← IO.getStdin) .empty else pure []
  let home := (← IO.getEnv "HOME").filter fun h => !h.isEmpty
  Main.conclude (.ofWords ⟨fun p => (found.lookup p).getD .absent, home, input⟩ words)
