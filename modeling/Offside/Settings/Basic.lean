import Offside.Path
import Offside.Settings.Document
import Offside.Settings.Scalar

/-!
# Settings

The settings of the shell, how they are read from a document over the defaults, and how they are
written. A field that the document gives a wrong kind of value is left as it is and complained
about; the others are still read. A mapping can be merged into another one by a key of its own.
-/

set_option autoImplicit false

namespace Offside

/-- The settings of the shell. -/
structure Settings where
  /-- The prompt for a new entry. -/
  prompt : String
  /-- The prompt for a further line of an entry. -/
  continuationPrompt : String
  /-- The file that keeps the entries of earlier sessions. -/
  historyFile : String
  /-- How much is logged. -/
  logLevel : String
  /-- Whether the value of an entry is shown. -/
  echo : Bool
  deriving DecidableEq, Repr, Inhabited

namespace Settings

/-- The name of the file that keeps the entries of earlier sessions. -/
def historyName : String := ".huil_history"

/-- The settings of a user with the given home directory, which may be unknown. -/
def defaults (home : Option String) : Settings :=
  { prompt := "huil> "
    continuationPrompt := "....> "
    historyFile := (home.map fun h => Path.join h historyName).getD historyName
    logLevel := "WARNING"
    echo := true }

/-- Settings with nothing in them. -/
def blank : Settings := ⟨"", "", "", "", false⟩

/-- The complaint that an item cannot be put where it should go. -/
structure Mismatch where
  /-- The number of lines before the item. -/
  line : Nat
  /-- The name of the item's tag. -/
  tag : String
  /-- The text of a scalar. -/
  value : Option String
  /-- The kind of thing that was wanted. -/
  wanted : String
  deriving DecidableEq, Repr, Inhabited

/-- How long a value may be to be shown whole, in bytes. -/
def longestShown : Nat := 10

/-- How much of a longer value is shown, in bytes. -/
def shownOfLonger : Nat := 7

/-- A value as a complaint shows it. -/
def shownValue (value : String) : Text :=
  let t := Text.ofString value
  if t.length ≤ longestShown then t else t.take shownOfLonger ++ Text.ofString "..."

/-- The text of a complaint. -/
def Mismatch.message (m : Mismatch) : Text :=
  let shown := match m.value with
    | some v => Text.ofString " \x60" ++ shownValue v ++ Text.ofString "\x60"
    | none => []
  Text.ofString ("line " ++ toString (m.line + 1) ++ ": cannot unmarshal " ++ m.tag) ++ shown ++
    Text.ofString (" into " ++ m.wanted)

/-- Why the rest of a document is not read. -/
inductive Refusal where
  /-- What is merged into a mapping is no mapping. -/
  | notMergeable
  /-- A scalar does not fit its tag. -/
  | unfitting (found text tag : String)
  /-- An item is merged into itself. -/
  | endless (name : String)
  deriving DecidableEq, Repr, Inhabited

/-- The text of a refusal. -/
def Refusal.message : Refusal → String
  | notMergeable => "map merge requires map or sequence of maps as the value"
  | unfitting found text tag =>
      "cannot decode " ++ found ++ " \x60" ++ text ++ "\x60 as a " ++ tag
  | endless name => "anchor '" ++ name ++ "' value contains itself"

/-- The tags that a scalar is checked against. -/
def checkedTags : List String :=
  ["!!null", "!!bool", "!!int", "!!float", "!!timestamp", Tag.str.name]

/-- What a scalar is read as. A tag before it is checked if it is one of the common ones, where a
whole number is also a number with a fraction; any other tag makes it text. -/
def Scalar.resolve (s : Scalar) : Except Refusal Tag :=
  match s.tag with
  | none => .ok (if s.quoted then .str else Tag.ofPlain s.text)
  | some tag =>
      if tag = Tag.str.name ∨ tag ∉ checkedTags then .ok .str
      else
        let found := Tag.resolve (tag == Tag.timestamp.name) s.text
        if found.name = tag then .ok found
        else if tag = Tag.float.name ∧ found = .int then .ok .float
        else .error (.unfitting found.name s.text tag)

/-- Whether a scalar as a key says that its value is merged into the mapping. -/
def Scalar.merges (s : Scalar) : Bool :=
  s.text == "<<" && match s.tag with
    | none => !s.quoted
    | some tag => tag == "!" || tag == "!!merge"

/-- Settings that are being read from a document, with the complaints so far, the latest first. -/
structure Filling where
  /-- The settings. -/
  settings : Settings
  /-- The complaints. -/
  mismatches : List Mismatch
  deriving DecidableEq, Repr, Inhabited

/-- A reading of a part of a document into settings. -/
abbrev Filler (α : Type) := EStateM Refusal Filling α

namespace Filler

/-- Complains that an item is not what was wanted. -/
def complain (m : Mismatch) : Filler Unit :=
  modify fun f => { f with mismatches := m :: f.mismatches }

/-- What a scalar is read as. -/
def resolve (s : Scalar) : Filler Tag :=
  match s.resolve with
  | .ok tag => pure tag
  | .error refusal => throw refusal

/-- Complains that a scalar, a sequence or a mapping is not what was wanted. -/
def complainOf (wanted : String) : Item → Filler Unit
  | .scalar line s => do
      let tag := s.tag.getD (← resolve s).name
      complain ⟨line, tag, some s.text, wanted⟩
  | .sequence line _ | .within line false _ => complain ⟨line, "!!seq", none, wanted⟩
  | .mapping line _ | .within line true _ => complain ⟨line, "!!map", none, wanted⟩

/-- An item as text, if it is a scalar; nothing is empty text, and any other scalar its own text. -/
def text? : Item → Filler (Option String)
  | .scalar _ s => do return some (if (← resolve s) = .null then "" else s.text)
  | item => do
      complainOf "string" item
      return none

/-- An item as a truth value, if it is one; nothing is false. -/
def truth? (item : Item) : Filler (Option Bool) := do
  match item with
  | .scalar _ s =>
      match ← resolve s with
      | .null => return some false
      | .bool b => return some b
      | _ => complainOf "bool" item; return none
  | _ => complainOf "bool" item; return none

/-- Changes the settings, if there is something to change them by. -/
def change {α : Type} (set : Settings → α → Settings) (value : Option α) : Filler Unit :=
  modify fun f => { f with settings := (value.map (set f.settings)).getD f.settings }

/-- Puts an item under a key into the settings. Keys that mean nothing are passed over. -/
def field (key : String) (item : Item) : Filler Unit := do
  match key with
  | "Prompt" => change (fun s t => { s with prompt := t }) (← text? item)
  | "ContinuationPrompt" => change (fun s t => { s with continuationPrompt := t }) (← text? item)
  | "HistoryFile" => change (fun s t => { s with historyFile := t }) (← text? item)
  | "LogLevel" => change (fun s t => { s with logLevel := t }) (← text? item)
  | "Echo" => change (fun s b => { s with echo := b }) (← truth? item)
  | _ => pure ()

mutual

/-- Puts the entries of a mapping into the settings, in order. -/
def entries : Entries → Filler Unit
  | .none => pure ()
  | .entry (.scalar line s) value rest => do
      if s.merges then merge value
      else if let some key ← text? (.scalar line s) then field key value
      entries rest
  | .entry key _ rest => do
      discard (text? key)
      entries rest

/-- Merges a mapping, or the mappings of a sequence, into the settings. -/
def merge : Item → Filler Unit
  | .mapping _ parts => entries parts
  | .sequence _ items => mergeAll items
  | .within _ true name => throw (.endless name)
  | .within _ false _ | .scalar .. => throw .notMergeable

/-- Merges mappings into the settings from the last to the first, so that the first one holds. -/
def mergeAll : Items → Filler Unit
  | .none => pure ()
  | .item (.mapping _ parts) rest => do
      mergeAll rest
      entries parts
  | .item (.within _ true name) rest => do
      mergeAll rest
      throw (.endless name)
  | .item _ rest => do
      mergeAll rest
      throw .notMergeable

end

/-- Puts a document into the settings. A document that is nothing leaves nothing in them. -/
def document (item : Item) : Filler Unit := do
  match item with
  | .mapping _ parts => entries parts
  | .scalar _ s =>
      if (← resolve s) = .null then modify fun f => { f with settings := blank }
      else complainOf "config.Config" item
  | _ => complainOf "config.Config" item

end Filler

/-- Why a settings file was not read, or not all of it. -/
inductive Complaint where
  /-- The file is no document. -/
  | misread (m : Misreading)
  /-- The document was not read to its end. -/
  | refused (refusal : Refusal)
  /-- Items of the document cannot be put where they should go. -/
  | mismatched (first : Mismatch) (rest : List Mismatch)
  deriving DecidableEq, Repr, Inhabited

/-- The text of a complaint. -/
def Complaint.message : Complaint → Text
  | .misread m => Text.ofString m.message
  | .refused refusal => Text.ofString ("yaml: " ++ refusal.message)
  | .mismatched first rest =>
      Text.ofString "yaml: unmarshal errors:" ++
        (first :: rest).flatMap fun m => Text.ofString "\n  " ++ m.message

/-- Reads the text of a settings file over settings. -/
def setText (s : Settings) (t : Text) : Settings × Option Complaint :=
  match Item.ofText t with
  | .error m => (s, some (.misread m))
  | .ok none => (s, none)
  | .ok (some item) =>
      match Filler.document item ⟨s, []⟩ with
      | .error refusal filling => (filling.settings, some (.refused refusal))
      | .ok () filling =>
          match filling.mismatches.reverse with
          | [] => (filling.settings, none)
          | first :: rest => (filling.settings, some (.mismatched first rest))

/-- The lines of a settings file. -/
def render (s : Settings) : String :=
  entryOf "Prompt" s.prompt ++ entryOf "ContinuationPrompt" s.continuationPrompt ++
    entryOf "HistoryFile" s.historyFile ++ entryOf "LogLevel" s.logLevel ++
    "Echo: " ++ (if s.echo then "true" else "false") ++ "\n"

end Settings

end Offside
