import Offside.Settings.Lexeme.Scan
import Offside.Text.Rune

/-!
# Settings documents

A document is one item: a scalar, a sequence or a mapping. A sequence has one item to a line, each
behind a dash, or stands in brackets; a mapping has one key to a line or stands in braces. An item
can be given a name by which it is mentioned later.
-/

set_option autoImplicit false

namespace Offside.Settings

/-- A scalar as it stands in a document. -/
structure Scalar where
  /-- The text. -/
  text : String
  /-- Whether it is quoted or stands below its key. -/
  quoted : Bool
  /-- The tag that stands before it. -/
  tag : Option String
  deriving DecidableEq, Repr, Inhabited

mutual

/-- A part of a document, with the number of lines before it. -/
inductive Item where
  /-- A scalar. -/
  | scalar (line : Nat) (scalar : Scalar)
  /-- A sequence. -/
  | sequence (line : Nat) (items : Items)
  /-- A mapping, its entries in order. -/
  | mapping (line : Nat) (entries : Entries)
  /-- The sequence or mapping of the given name, mentioned within itself. -/
  | within (line : Nat) (isMapping : Bool) (name : String)
  deriving Repr

/-- The items of a sequence. -/
inductive Items where
  /-- No items. -/
  | none
  /-- An item before others. -/
  | item (first : Item) (rest : Items)
  deriving Repr

/-- The entries of a mapping. -/
inductive Entries where
  /-- No entries. -/
  | none
  /-- A key with its value before other entries. -/
  | entry (key value : Item) (rest : Entries)
  deriving Repr

end

instance : Inhabited Item := ⟨.scalar 0 default⟩

/-- The lexemes of a document still to be read. -/
structure Outline where
  /-- The lexemes. -/
  lexemes : Lexemes
  /-- The items by their names, the latest first. -/
  named : List (String × Item)
  deriving Inhabited

/-- A reading of items. -/
abbrev Reader (α : Type) := EStateM Misreading Outline α

/-- What begins the short form of a tag that every document can use. -/
def standardShorthand : String := "!!"

/-- What begins the long form of such a tag. -/
def standardTagStart : String := "tag:yaml.org,2002:"

/-- The short form of a tag. -/
def shortTag (tag : String) : String :=
  if standardTagStart.toList.isPrefixOf tag.toList then
    standardShorthand ++ .ofList (tag.toList.drop standardTagStart.length)
  else tag

/-- The tag with a shorthand and a text, if the shorthand stands for something. -/
def tagOf? (shorthand text : String) : Option String :=
  if shorthand = "" then some (shortTag text)
  else if shorthand = "!" ∨ shorthand = standardShorthand then some (shortTag (shorthand ++ text))
  else none

namespace Reader

/-- The next lexeme. -/
def peek : Reader Lexeme := do
  let outline ← get
  match outline.lexemes.row with
  | lexeme :: _ => return lexeme
  | [] => throw (outline.lexemes.hindrance.getD ⟨.missingItem, 0⟩)

/-- Passes over a lexeme. -/
def skip : Reader Unit :=
  modify fun o => { o with lexemes.row := o.lexemes.row.drop 1 }

/-- The next lexeme after the one that is passed over. -/
def skipTo : Reader Lexeme := do
  skip
  peek

/-- An item that is not there. -/
def nothing (line : Nat) : Item := .scalar line ⟨"", false, none⟩

/-- What stands before an item: its tag and its name, with the number of lines before the first. -/
structure Preface where
  /-- The number of lines before the item with its preface. -/
  line : Nat
  /-- The tag. -/
  tag : Option String
  /-- The name. -/
  name : Option String
  deriving DecidableEq, Repr, Inhabited

/-- Reads a tag, if there is one: its shorthand, its text and its line. -/
def tagLexeme? : Reader (Option (String × String × Nat)) := do
  let lexeme ← peek
  match lexeme.kind with
  | .tag shorthand text => skip; return some (shorthand, text, lexeme.line)
  | _ => return none

/-- Reads a name, if there is one. -/
def anchor? : Reader (Option String) := do
  match (← peek).kind with
  | .anchor name => skip; return some name
  | _ => return none

/-- Reads what stands before an item. -/
def preface : Reader Preface := do
  let line := (← peek).line
  let early ← anchor?
  let tag ← tagLexeme?
  let late ← if early.isNone && tag.isSome then anchor? else pure none
  discard peek
  match tag with
  | none => return ⟨line, none, early⟩
  | some (shorthand, text, tagLine) =>
      match tagOf? shorthand text with
      | some tag => return ⟨line, some tag, early.or late⟩
      | none => throw ⟨.unknownShorthand, tagLine⟩

/-- Gives a name to an item, if there is one. -/
def giveName (name : Option String) (item : Item) : Reader Unit :=
  modify fun o => { o with named := (name.map fun n => (n, item)).toList ++ o.named }

/-- Gives a name to an item whose parts have been read, unless one of them has taken it. -/
def keepName (name : Option String) (item : Item) : Reader Unit := do
  let named := (← get).named
  match name.bind fun n => named.lookup n with
  | some (.within ..) => giveName name item
  | _ => pure ()

/-- The item that a name was given to. -/
def mention (name : String) : Reader Item := do
  match (← get).named.lookup name with
  | some item => return item
  | none => throw ⟨.unknownAnchor name, 0⟩

mutual

/-- Reads an item. Sequences and mappings with one part to a line can stand where `inBlock`, and
where `underKey` a sequence in the column of the key too. -/
def item : (fuel : Nat) → (inBlock underKey : Bool) → Reader Item
  | 0, _, _ => throw ⟨.missingItem, 0⟩
  | fuel + 1, inBlock, underKey => do
      match (← peek).kind with
      | .mention name => skip; mention name
      | _ =>
          let p ← preface
          let lexeme ← peek
          let sequence (read : Reader Items) : Reader Item := do
            giveName p.name (.within p.line false (p.name.getD ""))
            let item := Item.sequence p.line (← read)
            keepName p.name item
            return item
          let mapping (read : Reader Entries) : Reader Item := do
            giveName p.name (.within p.line true (p.name.getD ""))
            let item := Item.mapping p.line (← read)
            keepName p.name item
            return item
          let scalar (text : String) (quoted : Bool) : Reader Item := do
            let item := Item.scalar p.line ⟨text, quoted, p.tag⟩
            giveName p.name item
            return item
          match lexeme.kind, inBlock with
          | .scalar quoted text, _ => skip; scalar text quoted
          | .openBracket, _ => sequence (do skip; bracketItems fuel true)
          | .openBrace, _ => mapping (do skip; braceEntries fuel true)
          | .sequenceStart, true => sequence (do skip; dashItems fuel)
          | .mappingStart, true => mapping (do skip; lineEntries fuel)
          | kind, _ =>
              if underKey && kind == .dash then sequence (keyItems fuel)
              else if p.tag.isSome || p.name.isSome then scalar "" false
              else throw ⟨.missingItem, lexeme.line⟩

/-- Reads the items of a sequence with one item to a line. -/
def dashItems : (fuel : Nat) → Reader Items
  | 0 => throw ⟨.missingItem, 0⟩
  | fuel + 1 => do
      let lexeme ← peek
      match lexeme.kind with
      | .dash =>
          let next ← skipTo
          let first ← match next.kind with
            | .dash | .blockEnd => pure (nothing lexeme.line)
            | _ => item fuel true false
          return .item first (← dashItems fuel)
      | .blockEnd => skip; return .none
      | _ => throw ⟨.missingDash, lexeme.line⟩

/-- Reads the items of a sequence in the column of its key. -/
def keyItems : (fuel : Nat) → Reader Items
  | 0 => throw ⟨.missingItem, 0⟩
  | fuel + 1 => do
      let lexeme ← peek
      match lexeme.kind with
      | .dash =>
          let next ← skipTo
          let first ← match next.kind with
            | .dash | .key | .value | .blockEnd => pure (nothing lexeme.line)
            | _ => item fuel true false
          return .item first (← keyItems fuel)
      | _ => return .none

/-- Reads the entries of a mapping with one key to a line. -/
def lineEntries : (fuel : Nat) → Reader Entries
  | 0 => throw ⟨.missingItem, 0⟩
  | fuel + 1 => do
      let lexeme ← peek
      match lexeme.kind with
      | .key =>
          let next ← skipTo
          let key ← match next.kind with
            | .key | .value | .blockEnd => pure (nothing lexeme.line)
            | _ => item fuel true true
          let value ← lineValue fuel
          return .entry key value (← lineEntries fuel)
      | .blockEnd => skip; return .none
      | _ => throw ⟨.missingKey, lexeme.line⟩

/-- Reads the value of a key on a line. -/
def lineValue : (fuel : Nat) → Reader Item
  | 0 => throw ⟨.missingItem, 0⟩
  | fuel + 1 => do
      let lexeme ← peek
      match lexeme.kind with
      | .value =>
          match (← skipTo).kind with
          | .key | .value | .blockEnd => return nothing lexeme.line
          | _ => item fuel true true
      | _ => return nothing lexeme.line

/-- Reads the items of a sequence after its bracket or, unless `first`, after one of them. -/
def bracketItems : (fuel : Nat) → (first : Bool) → Reader Items
  | 0, _ => throw ⟨.missingItem, 0⟩
  | fuel + 1, first => do
      let lexeme ← peek
      if lexeme.kind == .closeBracket then
        skip
        return .none
      let lexeme ← if first then pure lexeme
        else if lexeme.kind == .comma then skipTo
        else throw ⟨.openSequence, lexeme.line⟩
      match lexeme.kind with
      | .closeBracket => skip; return .none
      | .key =>
          let (key, value) ← bracketPair fuel
          let pair := Item.mapping lexeme.line (.entry key value .none)
          return .item pair (← bracketItems fuel false)
      | _ =>
          let first ← item fuel false false
          return .item first (← bracketItems fuel false)

/-- Reads a key with its value as an item of a sequence in brackets. -/
def bracketPair : (fuel : Nat) → Reader (Item × Item)
  | 0 => throw ⟨.missingItem, 0⟩
  | fuel + 1 => do
      let lexeme ← skipTo
      let key ← match lexeme.kind with
        | .value | .comma | .closeBracket => skip; pure (nothing lexeme.line)
        | _ => item fuel false false
      let lexeme ← peek
      match lexeme.kind with
      | .value =>
          let next ← skipTo
          match next.kind with
          | .comma | .closeBracket => return (key, nothing next.line)
          | _ => return (key, ← item fuel false false)
      | _ => return (key, nothing lexeme.line)

/-- Reads the entries of a mapping after its brace or, unless `first`, after one of them. -/
def braceEntries : (fuel : Nat) → (first : Bool) → Reader Entries
  | 0, _ => throw ⟨.missingItem, 0⟩
  | fuel + 1, first => do
      let lexeme ← peek
      if lexeme.kind == .closeBrace then
        skip
        return .none
      let lexeme ← if first then pure lexeme
        else if lexeme.kind == .comma then skipTo
        else throw ⟨.openMapping, lexeme.line⟩
      match lexeme.kind with
      | .closeBrace => skip; return .none
      | .key =>
          let next ← skipTo
          let key ← match next.kind with
            | .value | .comma | .closeBrace => pure (nothing next.line)
            | _ => item fuel false false
          let value ← braceValue fuel
          return .entry key value (← braceEntries fuel false)
      | _ =>
          let key ← item fuel false false
          let value := nothing (← peek).line
          return .entry key value (← braceEntries fuel false)

/-- Reads the value of a key in braces. -/
def braceValue : (fuel : Nat) → Reader Item
  | 0 => throw ⟨.missingItem, 0⟩
  | fuel + 1 => do
      let lexeme ← peek
      match lexeme.kind with
      | .value =>
          let next ← skipTo
          match next.kind with
          | .comma | .closeBrace => return nothing next.line
          | _ => item fuel false false
      | _ => return nothing lexeme.line

end

/-- Passes over directives. -/
def directives : (fuel : Nat) → Reader Unit
  | 0 => pure ()
  | fuel + 1 => do
      if (← peek).kind == .directive then
        skip
        directives fuel

/-- Reads the content of a document whose start is marked. -/
def marked (fuel : Nat) : Reader Item := do
  let lexeme ← peek
  match lexeme.kind with
  | .directive | .documentStart | .documentEnd | .fileEnd => return nothing lexeme.line
  | _ => item fuel true false

/-- Reads the first document, if there is one. Of what follows it only the first lexeme is looked
at. -/
def document (fuel : Nat) : Reader (Option Item) := do
  match (← peek).kind with
  | .fileEnd => return none
  | .directive | .documentStart =>
      directives fuel
      let lexeme ← peek
      if lexeme.kind != .documentStart then throw ⟨.missingDocument, lexeme.line⟩
      skip
      let item ← marked fuel
      discard peek
      return some item
  | _ =>
      let item ← item fuel true false
      discard peek
      return some item

end Reader

/-- Whether a character may stand in a settings file. -/
def isPermitted (c : Char) : Bool :=
  let n := c.toNat
  [0x09, 0x0A, 0x0D, 0x85].contains n || (0x20 ≤ n && n ≤ 0x7E) ||
    (0xA0 ≤ n && n != 0xFFFE && n != 0xFFFF)

/-- What is wrong with a stray byte that is followed by the given bytes. -/
def strayCause (lead : UInt8) (rest : Text) : Cause :=
  if lead < 0xC0 || 0xF8 ≤ lead then .badLead
  else
    let width := if lead < 0xE0 then 2 else if lead < 0xF0 then 3 else 4
    let unit := lead :: rest.take (width - 1)
    if unit.length < width then .cutOff
    else if !(unit.drop 1).all fun b => 0x80 ≤ b && b < 0xC0 then .badTrail
    else if Rune.codePoint unit < (if width = 2 then 0x80 else if width = 3 then 0x800 else 0x10000)
    then .overlong
    else .noCharacter

/-- The first cause in the runes of a text for which it is no settings file. -/
def encodingCause? : List Rune → Option Cause
  | [] => none
  | .char c :: rest => if isPermitted c then encodingCause? rest else some .controlCharacter
  | .stray b :: rest => some (strayCause b (rest.flatMap Rune.bytes))

/-- Characters in which every line break that is not kept as it is has become a line feed. -/
def unifyBreaks : List Char → List Char
  | [] => []
  | '\r' :: '\n' :: rest => '\n' :: unifyBreaks rest
  | c :: rest => (if c == '\r' || c.toNat == 0x85 then '\n' else c) :: unifyBreaks rest

/-- The bytes that may stand before a text to tell how it is encoded. -/
def encodingMark : Text := [0xEF, 0xBB, 0xBF]

/-- Reads a settings file: its first document, if it has one. -/
def Item.ofText (t : Text) : Except Misreading (Option Item) :=
  let body := if encodingMark.isPrefixOf t then t.drop 3 else t
  match encodingCause? (Text.runes body) with
  | some cause => .error ⟨cause, 0⟩
  | none =>
      let lexemes := Lexemes.ofChars (unifyBreaks (Text.chars body))
      match Reader.document (2 * lexemes.row.length + 8) ⟨lexemes, []⟩ with
      | .ok item _ => .ok item
      | .error m _ => .error m

end Offside.Settings
