import Offside.Text.Quoted

/-!
# Command lines

A command line has flags, then a command with its own flags, then the command's argument. A flag
starts with one or two dashes; its value stands behind an equals sign or in the next word, and a
switch needs no value.
-/

set_option autoImplicit false

namespace Offside

/-- What the shell is asked to do. -/
inductive Command where
  /-- To run the program in a file. -/
  | run (echo : Bool) (file : String)
  /-- To run a program. -/
  | eval (echo : Bool) (source : String)
  /-- To show the tokens of a file. -/
  | tokens (file : String)
  /-- To show the tree of a file, on one line or as a dump. -/
  | tree (short : Bool) (file : String)
  /-- To run entries one after the other. -/
  | converse
  /-- To check known results. -/
  | check
  /-- To write the default settings. -/
  | install
  deriving DecidableEq, Repr, Inhabited

/-- A command with the flags that hold for every command. -/
structure Invocation where
  /-- The path of the settings. -/
  config : String
  /-- The log level, if it is not taken from the settings. -/
  logLevel : Option String
  /-- What to do. -/
  command : Command
  deriving DecidableEq, Repr, Inhabited

/-- Why a command line is refused. -/
inductive UsageFault where
  /-- A word starts like a flag but has no name. -/
  | malformed (word : String)
  /-- A flag is unknown. -/
  | unknownFlag (name : String)
  /-- A flag lacks its value. -/
  | missingValue (name : String)
  /-- The value of a switch is no truth value. -/
  | notBool (name value : String)
  /-- A flag is missing. -/
  | missingFlag (name : String)
  /-- There is no command, or an unknown one. -/
  | noCommand
  deriving DecidableEq, Repr, Inhabited

namespace UsageFault

/-- The message of a refusal. -/
def message : UsageFault → String
  | malformed word => "bad flag syntax: " ++ word
  | unknownFlag name => "flag provided but not defined: -" ++ name
  | missingValue name => "flag needs an argument: -" ++ name
  | notBool name value =>
      "invalid boolean value " ++ Quoted.string value ++ " for -" ++ name ++ ": parse error"
  | missingFlag name => "Required flag " ++ Quoted.string name ++ " not set"
  | noCommand => "no command provided"

end UsageFault

/-- Flags with their values, in the order in which they were given. -/
abbrev Flags := List (String × String)

namespace Flags

/-- What a flag takes. -/
inductive Shape where
  /-- A truth value, which may be left out. -/
  | switch
  /-- A text. -/
  | text
  deriving DecidableEq, Repr, Inhabited

/-- The role of a word among the flags. -/
inductive Word where
  /-- The word is not among the flags. -/
  | plain
  /-- The word ends the flags. -/
  | stop
  /-- The word is a flag, possibly with its value. -/
  | flag (name : String) (value : Option String)
  /-- The word starts like a flag but has no name. -/
  | malformed
  deriving DecidableEq, Repr, Inhabited

/-- The role of a word that starts with a dash, from what stands behind its dashes. -/
def Word.ofBody (body : List Char) : Word :=
  if body.head?.all fun c => c == '-' || c == '=' then .malformed
  else
    let name := String.ofList (body.takeWhile (· != '='))
    match body.dropWhile (· != '=') with
    | [] => .flag name none
    | _ :: value => .flag name (some (.ofList value))

/-- The role of a word. -/
def Word.of (word : String) : Word :=
  match word.toList with
  | ['-', '-'] => .stop
  | '-' :: '-' :: body => .ofBody body
  | '-' :: c :: body => .ofBody (c :: body)
  | _ => .plain

/-- The truth value of a word. -/
def bool? (s : String) : Option Bool :=
  if ["1", "t", "T", "TRUE", "true", "True"].contains s then some true
  else if ["0", "f", "F", "FALSE", "false", "False"].contains s then some false
  else none

/-- Puts a flag in front of what was read after it. -/
def andThen (shape : Shape) (name value : String)
    (more : Except UsageFault (Flags × List String)) : Except UsageFault (Flags × List String) :=
  if shape = .switch ∧ bool? value = none then .error (.notBool name value)
  else more.map fun (flags, rest) => ((name, value) :: flags, rest)

/-- Reads the flags at the front of the words, and leaves the words after them. -/
def read (shapes : List (String × Shape)) :
    List String → Except UsageFault (Flags × List String)
  | [] => .ok ([], [])
  | word :: rest =>
      match Word.of word with
      | .plain => .ok ([], word :: rest)
      | .stop => .ok ([], rest)
      | .malformed => .error (.malformed word)
      | .flag name value =>
          match shapes.lookup name, value with
          | none, _ => .error (.unknownFlag name)
          | some shape, some v => andThen shape name v (read shapes rest)
          | some .switch, none => andThen .switch name "true" (read shapes rest)
          | some .text, none =>
              match rest with
              | [] => .error (.missingValue name)
              | v :: rest => andThen .text name v (read shapes rest)

/-- The value of a flag; the last one counts. -/
def value? (flags : Flags) (name : String) : Option String := flags.reverse.lookup name

/-- The value of a switch, or the given one if it is not set. -/
def isOn (flags : Flags) (name : String) (otherwise : Bool) : Bool :=
  ((flags.value? name).bind bool?).getD otherwise

end Flags

namespace Command

/-- Reads a command with its flags and its argument. -/
def ofWords : List String → Except UsageFault Command
  | [] => .error .noCommand
  | name :: words => do
      let shapes : List (String × Flags.Shape) := match name with
        | "run" => [("echo", .switch)]
        | "eval" => [("e", .text), ("echo", .switch)]
        | "ast" => [("short", .switch)]
        | _ => []
      let (flags, rest) ← Flags.read shapes words
      let argument := rest.head?.getD ""
      match name with
      | "run" => .ok (.run (flags.isOn "echo" false) argument)
      | "eval" =>
          match flags.value? "e" with
          | some source => .ok (.eval (flags.isOn "echo" true) source)
          | none => .error (.missingFlag "e")
      | "tokens" => .ok (.tokens argument)
      | "ast" => .ok (.tree (flags.isOn "short" false) argument)
      | "repl" => .ok .converse
      | "selftest" => .ok .check
      | "init" => .ok .install
      | _ => .error .noCommand

/-- The path of the file that a command reads. -/
def file? : Command → Option String
  | run _ file | tokens file | tree _ file => some file
  | _ => none

/-- Whether a command may read input. -/
def readsInput : Command → Bool
  | run .. | eval .. | converse => true
  | _ => false

end Command

namespace Invocation

/-- The path of the settings unless another one is given. -/
def defaultConfig : String := "huil.yaml"

/-- Reads a command line. -/
def ofWords (words : List String) : Except UsageFault Invocation := do
  let (flags, rest) ←
    Flags.read [("config", .text), ("log-level", .text), ("trace", .switch)] words
  let command ← Command.ofWords rest
  return { config := (flags.value? "config").getD defaultConfig
           logLevel := flags.value? "log-level"
           command }

/-- The paths that an invocation may look at. -/
def paths (i : Invocation) : List String := i.config :: i.command.file?.toList

end Invocation

end Offside
