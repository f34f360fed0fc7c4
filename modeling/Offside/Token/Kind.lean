/-!
# Kinds of tokens

Every kind has a number, a name for messages and, if it is an operator, a spelling. Numbers that
belong to no kind are kept as they are, so that any number names some kind.
-/

set_option autoImplicit false

namespace Offside

/-- What a token is. -/
inductive Kind where
  /-- The end of the source. -/
  | endOfInput
  /-- No legal token. -/
  | illegal
  /-- A line break. -/
  | newline
  /-- Digits. -/
  | integer
  /-- Digits with a point between them. -/
  | float
  /-- Text in double quotes. -/
  | string
  /-- One of the two truth words. -/
  | boolean
  /-- A name. -/
  | identifier
  /-- The word that starts a declaration. -/
  | letWord
  /-- The word that starts a function definition. -/
  | fnWord
  /-- The word that starts a match. -/
  | matchWord
  /-- Conjunction. -/
  | andWord
  /-- Disjunction. -/
  | orWord
  /-- Negation. -/
  | notWord
  /-- The word that starts a conditional. -/
  | ifWord
  /-- The word that starts a further condition. -/
  | elifWord
  /-- The word that starts the last alternative. -/
  | elseWord
  /-- The word that starts a loop. -/
  | whileWord
  /-- The word that ends a statement list with a value. -/
  | returnWord
  /-- The sign of addition. -/
  | plus
  /-- The sign of subtraction. -/
  | minus
  /-- The sign of multiplication, also the wildcard of a match. -/
  | times
  /-- The sign of division. -/
  | divide
  /-- The sign of the remainder. -/
  | modulo
  /-- An opening parenthesis. -/
  | leftParen
  /-- A closing parenthesis. -/
  | rightParen
  /-- The sign of assignment. -/
  | assign
  /-- The bar before a match arm. -/
  | bar
  /-- The colon before a block. -/
  | colon
  /-- The comma between arguments. -/
  | comma
  /-- Strictly above. -/
  | greater
  /-- Strictly below. -/
  | less
  /-- Equality. -/
  | equal
  /-- Inequality. -/
  | notEqual
  /-- Above or equal. -/
  | greaterEqual
  /-- Below or equal. -/
  | lessEqual
  /-- The arrow between a pattern and its result. -/
  | arrow
  /-- A number that belongs to none of the kinds above. -/
  | other (code : Int)
  deriving DecidableEq, Repr, Inhabited

namespace Kind

/-- The kinds that have a name, in the order of their numbers from zero. -/
def named : List Kind :=
  [.endOfInput, .illegal, .newline, .integer, .float, .string, .boolean, .identifier, .letWord,
    .fnWord, .matchWord, .andWord, .orWord, .notWord, .ifWord, .elifWord, .elseWord, .whileWord,
    .returnWord, .plus, .minus, .times, .divide, .modulo, .leftParen, .rightParen, .assign, .bar,
    .colon, .comma, .greater, .less, .equal, .notEqual, .greaterEqual, .lessEqual, .arrow]

/-- The kind with the given number. -/
def ofCode (code : Int) : Kind :=
  if code < 0 then other code else named.getD code.toNat (other code)

/-- The name of a kind in messages. -/
def name : Kind → String
  | endOfInput => "EOF"
  | illegal => "ILLEGAL"
  | newline => "NEWLINE"
  | integer => "INTEGER"
  | float => "FLOAT"
  | string => "STRING"
  | boolean => "BOOLEAN"
  | identifier => "IDENT"
  | letWord => "LET"
  | fnWord => "FN"
  | matchWord => "MATCH"
  | andWord => "AND"
  | orWord => "OR"
  | notWord => "NOT"
  | ifWord => "IF"
  | elifWord => "ELIF"
  | elseWord => "ELSE"
  | whileWord => "WHILE"
  | returnWord => "RETURN"
  | plus => "PLUS"
  | minus => "MINUS"
  | times => "MUL"
  | divide => "DIV"
  | modulo => "MOD"
  | leftParen => "LPAREN"
  | rightParen => "RPAREN"
  | assign => "ASSIGN"
  | bar => "PIPE"
  | colon => "COLON"
  | comma => "COMMA"
  | greater => "GT"
  | less => "LT"
  | equal => "EQ"
  | notEqual => "NE"
  | greaterEqual => "GE"
  | lessEqual => "LE"
  | arrow => "ARROW"
  | other code => s!"TokenKind({code})"

/-- The kind with the given name. -/
def ofName? (s : String) : Option Kind := named.find? fun k => k.name == s

/-- The spelling of an operator; for any other kind its name. -/
def symbol : Kind → String
  | andWord => "and"
  | orWord => "or"
  | notWord => "not"
  | plus => "+"
  | minus => "-"
  | times => "*"
  | divide => "/"
  | modulo => "%"
  | greater => ">"
  | less => "<"
  | equal => "=="
  | notEqual => "!="
  | greaterEqual => ">="
  | lessEqual => "<="
  | k => k.name

/-- The reserved words and the kinds of their tokens. -/
def keywords : List (String × Kind) :=
  [("let", .letWord), ("fn", .fnWord), ("match", .matchWord), ("true", .boolean),
    ("false", .boolean), ("and", .andWord), ("or", .orWord), ("if", .ifWord), ("elif", .elifWord),
    ("else", .elseWord), ("while", .whileWord), ("return", .returnWord), ("not", .notWord)]

/-- The kind of a word: that of the reserved word, or a name. -/
def ofWord (word : String) : Kind := (keywords.lookup word).getD identifier

end Kind

end Offside
