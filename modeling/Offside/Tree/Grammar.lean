import Offside.Decimal.Numeral
import Offside.Tree.Basic
import Offside.Tree.Reading

/-!
# From tokens to trees

The grammar is read by recursive descent. Binary operators have three levels, each associating to
the left. A block is a colon, a line break, and every following statement that starts in the
column of the first one; the arms of a selection share the column of the first bar. There are no
closing marks, so a selection inside an expression may take the line break behind its last arm;
an operator after that does not continue the expression.

Every function spends one unit of fuel per call. A call either goes to a function further down the
grammar or comes after a token was taken, so a multiple of the number of tokens is enough fuel.
-/

set_option autoImplicit false

namespace Offside

namespace Grammar

/-- The binary operators, from the loosest level to the tightest. -/
def levels : List (List Kind) :=
  [[.andWord, .orWord, .equal, .notEqual, .less, .greater, .lessEqual, .greaterEqual],
    [.plus, .minus],
    [.times, .divide, .modulo]]

/-- The operators that stand before their operand. -/
def unaryOperators : List Kind := [.plus, .minus, .notWord]

/-- The kinds of tokens that an operand can start with, signs apart. -/
def atomKinds : List Kind :=
  [.integer, .float, .string, .boolean, .leftParen, .identifier, .matchWord]

/-- A whole number below two to the sixty-third. -/
def integerLiteral (tok : Token) : Grammar Node :=
  let n := Numeral.ofDigits tok.value.toList
  if n < Nat.pow 2 63 then pure (.integer tok (.ofNat n))
  else fail (.unexpected tok.kind [] "integer literal out of range" tok.pos)

/-- A number with a point that is no greater than the greatest double. -/
def floatLiteral (tok : Token) : Grammar Node :=
  match Numeral.finite? tok.value.toList with
  | some x => pure (.float tok x)
  | none => fail (.unexpected tok.kind [] "malformed float literal" tok.pos)

/-- Further parameters of a function, each after a comma. -/
def moreParams : (fuel : Nat) → Grammar (List String)
  | 0 => throw .outOfFuel
  | fuel + 1 => do
      if ← peekIs [.comma] then
        let _ ← next
        let param ← expect [.identifier]
        let rest ← moreParams fuel
        pure (param.value :: rest)
      else pure []

/-- The parameters of a function in parentheses. -/
def params (fuel : Nat) : Grammar (List String) := do
  let _ ← expect [.leftParen]
  let names ←
    if ← peekIs [.rightParen] then pure []
    else
      let param ← expect [.identifier]
      let rest ← moreParams fuel
      pure (param.value :: rest)
  let _ ← expect [.rightParen]
  pure names

/-- The colon and the line breaks in front of a block or of the arms of a selection. -/
def opening : Grammar Unit := do
  let _ ← expect [.colon]
  let _ ← expect [.newline]
  skipBreaks

mutual

/-- An expression whose operators are of the given level or tighter ones. -/
def expression : (fuel : Nat) → (levels : List (List Kind)) → Grammar Node
  | 0, _ => throw .outOfFuel
  | fuel + 1, [] => unary fuel
  | fuel + 1, level :: tighter => do
      let left ← expression fuel tighter
      operations fuel level tighter left

/-- Further operations of one level on what was read before. -/
def operations : (fuel : Nat) → (level : List Kind) → (tighter : List (List Kind)) →
    (left : Node) → Grammar Node
  | 0, _, _, _ => throw .outOfFuel
  | fuel + 1, level, tighter, left => do
      if ← continuesWith level then
        let tok ← next
        let right ← expression fuel tighter
        operations fuel level tighter (.binary tok tok.kind left right)
      else pure left

/-- An operand with the signs before it. -/
def unary : (fuel : Nat) → Grammar Node
  | 0 => throw .outOfFuel
  | fuel + 1 => do
      if ← peekIs unaryOperators then
        let tok ← next
        let operand ← unary fuel
        pure (.unary tok tok.kind operand)
      else atom fuel

/-- A literal, a name, a call, a selection, or an expression in parentheses. -/
def atom : (fuel : Nat) → Grammar Node
  | 0 => throw .outOfFuel
  | fuel + 1 => do
      let tok ← expect atomKinds
      match tok.kind with
      | .integer => integerLiteral tok
      | .float => floatLiteral tok
      | .string => pure (.string tok (.ofString tok.value))
      | .boolean => pure (.boolean tok (tok.value == "true"))
      | .leftParen =>
          let inner ← expression fuel levels
          let _ ← expect [.rightParen]
          pure inner
      | .identifier =>
          if ← peekIs [.leftParen] then
            let _ ← next
            let args ← arguments fuel
            pure (.call tok tok.value args)
          else pure (.reference tok tok.value)
      | _ =>
          let subject ← expression fuel levels
          opening
          let first ← peek
          if first.kind = .bar then
            let arms ← arms fuel first.pos.column
            pure (.select tok subject arms)
          else fail (.unexpected first.kind [.bar] "" first.pos)

/-- The arguments of a call after its opening parenthesis. -/
def arguments : (fuel : Nat) → Grammar (List Node)
  | 0 => throw .outOfFuel
  | fuel + 1 => do
      let args ←
        if ← peekIs [.rightParen] then pure []
        else
          let arg ← expression fuel levels
          let rest ← moreArguments fuel
          pure (arg :: rest)
      let _ ← expect [.rightParen]
      pure args

/-- Further arguments of a call, each after a comma. -/
def moreArguments : (fuel : Nat) → Grammar (List Node)
  | 0 => throw .outOfFuel
  | fuel + 1 => do
      if ← peekIs [.comma] then
        let _ ← next
        let arg ← expression fuel levels
        let rest ← moreArguments fuel
        pure (arg :: rest)
      else pure []

/-- The arms of a selection whose bars stand in the given column. -/
def arms : (fuel : Nat) → (column : Int) → Grammar Arms
  | 0, _ => throw .outOfFuel
  | fuel + 1, column => do
      skipBreaks
      let tok ← peek
      if tok.kind = .bar ∧ tok.pos.column = column then
        let _ ← next
        if ← peekIs [.times] then
          let _ ← next
          let _ ← expect [.arrow]
          let result ← expression fuel levels
          endLine
          let rest ← arms fuel column
          pure (.wildcard tok result rest)
        else
          let pattern ← expression fuel levels
          let _ ← expect [.arrow]
          let result ← expression fuel levels
          endLine
          let rest ← arms fuel column
          pure (.pattern tok pattern result rest)
      else pure .done

end

/-- A declaration; without a value the name starts out as nil. -/
def declaration (fuel : Nat) : Grammar Node := do
  let tok ← expect [.letWord]
  let name ← expect [.identifier]
  if ← peekIs [.assign] then
    let _ ← next
    let value ← expression fuel levels
    pure (.declaration tok name.value value)
  else pure (.declaration tok name.value (.nil name))

/-- The end of a statement list; without a value it gives nil. -/
def ret (fuel : Nat) : Grammar Node := do
  let tok ← next
  if ← peekIs [.newline, .endOfInput] then pure (.ret tok (.nil tok))
  else
    let value ← expression fuel levels
    pure (.ret tok value)

/-- An expression, or an assignment if the expression is a name that an assignment sign
follows. -/
def expressionStatement (fuel : Nat) : Grammar Node := do
  let target ← expression fuel levels
  if ← continuesWith [.assign] then
    let sign ← next
    match target with
    | .reference tok name =>
        let value ← expression fuel levels
        pure (.assignment tok name value)
    | _ => fail (.unexpected sign.kind [] "cannot assign to expression" sign.pos)
  else pure target

/-- A statement that takes one line, unless a selection in it takes more. -/
def simpleStatement (fuel : Nat) (kind : Kind) : Grammar Node := do
  let statement ←
    if kind = .letWord then declaration fuel
    else if kind = .returnWord then ret fuel
    else expressionStatement fuel
  endLine
  pure statement

mutual

/-- A statement. -/
def statement : (fuel : Nat) → Grammar Node
  | 0 => throw .outOfFuel
  | fuel + 1 => do
      let first ← peek
      match first.kind with
      | .fnWord =>
          let tok ← expect [.fnWord]
          let name ← expect [.identifier]
          let names ← params fuel
          let (bodyTok, body) ← block fuel
          pure (.definition tok name.value names bodyTok body)
      | .ifWord =>
          let tok ← expect [.ifWord]
          let condition ← expression fuel levels
          let (bodyTok, body) ← block fuel
          let rest ← branches fuel
          pure (.conditional tok (.guarded condition bodyTok body rest))
      | .whileWord =>
          let tok ← expect [.whileWord]
          let condition ← expression fuel levels
          let (bodyTok, body) ← block fuel
          pure (.loop tok condition bodyTok body)
      | kind => simpleStatement fuel kind

/-- A block: the token of its first statement, and the statements. -/
def block : (fuel : Nat) → Grammar (Token × List Node)
  | 0 => throw .outOfFuel
  | fuel + 1 => do
      opening
      let first ← peek
      if first.kind = .endOfInput then
        fail (.unexpected first.kind [] "expected an indented block" first.pos)
      else
        let body ← statements fuel first.pos.column
        note first.pos body.length
        pure (first, body)

/-- The statements that start in the given column. -/
def statements : (fuel : Nat) → (column : Int) → Grammar (List Node)
  | 0, _ => throw .outOfFuel
  | fuel + 1, column => do
      skipBreaks
      let tok ← peek
      if tok.kind = .endOfInput ∨ tok.pos.column ≠ column then pure []
      else
        let first ← statement fuel
        let rest ← statements fuel column
        pure (first :: rest)

/-- The branches of a conditional after its first body. -/
def branches : (fuel : Nat) → Grammar Branches
  | 0 => throw .outOfFuel
  | fuel + 1 => do
      if ← peekIs [.elifWord] then
        let _ ← next
        let condition ← expression fuel levels
        let (bodyTok, body) ← block fuel
        let rest ← branches fuel
        pure (.guarded condition bodyTok body rest)
      else if ← peekIs [.elseWord] then
        let _ ← next
        let (bodyTok, body) ← block fuel
        pure (.otherwise bodyTok body)
      else pure .done

end

/-- The statements of a whole source. -/
def program : (fuel : Nat) → Grammar (List Node)
  | 0 => throw .outOfFuel
  | fuel + 1 => do
      skipBreaks
      if ← peekIs [.endOfInput] then pure []
      else
        let first ← statement fuel
        let rest ← program fuel
        pure (first :: rest)

end Grammar

/-- What came of reading a source: the tree or the reason why there is none, and the blocks that
were completed, in order. -/
structure Parse where
  /-- The tree, or the reason why there is none. -/
  outcome : Except Halt Node
  /-- The completed blocks. -/
  notes : List BlockNote

namespace Parse

/-- Fuel enough for a stream with the given number of tokens. -/
def fuelFor (tokens : Nat) : Nat := 16 * (tokens + 1)

/-- Reads the tree of a token stream. -/
def ofStream (s : TokenStream) : Parse :=
  match Grammar.program (fuelFor s.front.length) (.ofStream s) with
  | .ok statements left => ⟨.ok (.block .origin statements), left.notes.reverse⟩
  | .error h left => ⟨.error h, left.notes.reverse⟩

/-- Reads the tree of a text. -/
def ofText (t : Text) : Parse := ofStream (.ofText t)

end Parse

end Offside
