import Offside.Shell.Dialogue
import Offside.Shell.Invocation
import Offside.Shell.Level
import Offside.Shell.SelfCheck
import Offside.Shell.SettingsFile
import Offside.Token.Stream
import Offside.Tree.Dump
import Offside.Tree.SExpr

/-!
# The shell

The shell is a function of a command line and of what it finds around it: files, a home directory
and input. Its outcome says how it ends, what it writes on either output, and which files it
writes.
-/

set_option autoImplicit false

namespace Offside

/-- What the shell finds around it. -/
structure Surroundings where
  /-- What is found at a path. -/
  look : String → FileStatus
  /-- The home directory, if it is known. -/
  home : Option String
  /-- The input. -/
  input : Text

/-- How a command ends. -/
inductive Ending where
  /-- All went well. -/
  | success
  /-- A fault with an exit code of its own. -/
  | failure (code : Nat) (message : Text)
  /-- A fault of the surroundings. -/
  | fatal (message : Text)
  deriving DecidableEq, Repr, Inhabited

/-- What came of a command. -/
structure Outcome where
  /-- How the command ended. -/
  ending : Ending
  /-- What was written as output. -/
  output : Text
  /-- What was written as complaints. -/
  complaints : Text
  /-- The files that were written. -/
  files : List (String × Text)
  deriving DecidableEq, Repr, Inhabited

namespace Outcome

/-- A good end with the given output. -/
def success (output : Text) : Outcome := ⟨.success, output, [], []⟩

/-- A fault of the program after the given output. -/
def failure (code : Nat) (output : Text) (message : String) : Outcome :=
  ⟨.failure code (Text.ofString message), output, [], []⟩

/-- A fault of the surroundings. -/
def fatal (message : Text) : Outcome := ⟨.fatal message, [], [], []⟩

/-- A string on a line of its own. -/
def line (s : String) : Text := Text.ofString s ++ [lineFeed]

end Outcome

namespace Invocation

/-- Goes on with the settings of an invocation, if they and the log level are good. -/
def withSettings (i : Invocation) (around : Surroundings) (body : Settings → Outcome) : Outcome :=
  match Settings.load (around.look i.config) around.home i.config with
  | ⟨_, some complaint⟩ => .fatal complaint
  | ⟨settings, none⟩ =>
      match Level.ofName (i.logLevel.getD settings.logLevel) with
      | .error complaint => .fatal (Text.ofString complaint)
      | .ok _ => body settings

/-- Goes on with the content of a file, if it is given and can be read. -/
def withFile (around : Surroundings) (file : String) (body : Text → Outcome) : Outcome :=
  if file.isEmpty then .failure 2 [] "no file provided"
  else match (around.look file).content file with
    | .error complaint => .fatal (Text.ofString complaint)
    | .ok source => body source

/-- Runs a program over the input. -/
def runSource (around : Surroundings) (echo : Bool) (source : Text) : Outcome :=
  let session := Session.start ⟨echo, Options.defaultMaxDepth⟩ around.input false none
  let (outcome, session) := session.runText Session.ampleFuel none source
  let written := session.flush.1
  match outcome with
  | .ok v => .success (written ++ Dialogue.shown v)
  | .error h => .failure 1 written h.message

/-- Shows the tokens of a source. -/
def showTokens (source : Text) : Outcome :=
  let stream := TokenStream.ofText source
  let lines := stream.toList.flatMap fun t => Outcome.line t.render
  match stream.halt? with
  | none => .success lines
  | some h => .failure 1 lines h.message

/-- Shows the tree of a source. -/
def showTree (short : Bool) (source : Text) : Outcome :=
  match (Parse.ofText source).outcome with
  | .error h => .failure 1 [] h.message
  | .ok tree => .success (Outcome.line (if short then tree.sexpr?.getD "" else tree.dump))

/-- Runs the self checks. -/
def runChecks : Outcome :=
  let failures := SelfCheck.failures
  if failures = 0 then .success SelfCheck.report
  else .failure 1 SelfCheck.report (toString failures ++ " checks failed")

/-- Writes the default settings, unless something is there already. -/
def install (i : Invocation) (around : Surroundings) : Outcome :=
  let status := around.look i.config
  if status.isPresent then .failure 1 [] (i.config ++ " already exists")
  else match Settings.save status i.config (Settings.defaults around.home) with
    | .error complaint => .failure 1 [] complaint
    | .ok t =>
        { Outcome.success (Outcome.line ("wrote " ++ i.config)) with files := [(i.config, t)] }

/-- Carries out an invocation. A program in a file is read before the settings, and a file to be
shown after them. -/
def carryOut (i : Invocation) (around : Surroundings) : Outcome :=
  match i.command with
  | .run echo file =>
      withFile around file fun source =>
        i.withSettings around fun _ => runSource around echo source
  | .eval echo source =>
      i.withSettings around fun _ => runSource around echo (Text.ofString source)
  | .tokens file => i.withSettings around fun _ => withFile around file showTokens
  | .tree short file => i.withSettings around fun _ => withFile around file (showTree short)
  | .converse =>
      i.withSettings around fun settings =>
        let said := Dialogue.ofInput settings.echo around.input
        ⟨.success, said.output, said.complaints, []⟩
  | .check => i.withSettings around fun _ => runChecks
  | .install => i.install around

end Invocation

/-- The outcome of a command line. -/
def Outcome.ofWords (around : Surroundings) (words : List String) : Outcome :=
  match Invocation.ofWords words with
  | .error fault => .fatal (Text.ofString fault.message)
  | .ok invocation => invocation.carryOut around

end Offside
