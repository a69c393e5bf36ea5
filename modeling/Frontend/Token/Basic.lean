/-!
# Tokens

A token has a kind, a value and the span of bytes it was read from. The value of
most tokens is the text of that span; a string token has the string it denotes.
-/

namespace Frontend

/-- A half-open range of byte offsets. -/
structure Span where
  start : Nat
  stop : Nat
  deriving DecidableEq, Repr

namespace Token

/-- The kinds of tokens. -/
inductive Kind
  | endOfFile
  | int
  | float
  | string
  | identifier
  | openCurly
  | closeCurly
  | openParen
  | closeParen
  | assignment
  | equals
  | not
  | notEquals
  | less
  | lessEquals
  | greater
  | greaterEquals
  | or
  | and
  | ampersand
  | semicolon
  | comma
  | plus
  | dash
  | slash
  | star
  | fnWord
  | constWord
  | varWord
  | returnWord
  | trueWord
  | falseWord
  deriving DecidableEq, Repr

namespace Kind

/-- Every kind, in order. -/
def all : List Kind :=
  [.endOfFile, .int, .float, .string, .identifier, .openCurly, .closeCurly,
    .openParen, .closeParen, .assignment, .equals, .not, .notEquals, .less,
    .lessEquals, .greater, .greaterEquals, .or, .and, .ampersand, .semicolon,
    .comma, .plus, .dash, .slash, .star, .fnWord, .constWord, .varWord,
    .returnWord, .trueWord, .falseWord]

/-- The name by which a kind is described. -/
def name : Kind -> String
  | .endOfFile => "EOF"
  | .int => "Int"
  | .float => "Float"
  | .string => "String"
  | .identifier => "Identifier"
  | .openCurly => "OpenCurly"
  | .closeCurly => "CloseCurly"
  | .openParen => "OpenParen"
  | .closeParen => "CloseParen"
  | .assignment => "Assignment"
  | .equals => "Equals"
  | .not => "Not"
  | .notEquals => "NotEquals"
  | .less => "Less"
  | .lessEquals => "LessEquals"
  | .greater => "Greater"
  | .greaterEquals => "GreaterEquals"
  | .or => "Or"
  | .and => "And"
  | .ampersand => "Ampersand"
  | .semicolon => "Semicolon"
  | .comma => "Comma"
  | .plus => "Plus"
  | .dash => "Dash"
  | .slash => "Slash"
  | .star => "Star"
  | .fnWord => "Fn"
  | .constWord => "Const"
  | .varWord => "Var"
  | .returnWord => "Return"
  | .trueWord => "True"
  | .falseWord => "False"

/-- A line break directly after a token of this kind ends the statement. -/
def endsStatement : Kind -> Bool
  | .identifier | .int | .float | .string | .trueWord | .falseWord | .returnWord
  | .closeParen | .closeCurly => true
  | _ => false

/-- The reserved words with their kinds. -/
def reserved : List (String × Kind) :=
  [("fn", .fnWord), ("const", .constWord), ("var", .varWord),
    ("return", .returnWord), ("true", .trueWord), ("false", .falseWord)]

/-- The kind of a word: its own kind if it is reserved, else an identifier. -/
def ofWord (word : String) : Kind :=
  (reserved.lookup word).getD .identifier

end Kind

end Token

/-- A token with its kind, its value and where it stands. -/
structure Token where
  kind : Token.Kind
  value : String
  span : Span
  deriving DecidableEq, Repr

namespace Token

/-- A token by its kind, with the value where the kind leaves it open. -/
def describe (token : Token) : String :=
  match token.kind with
  | .string | .identifier | .int | .float =>
      s!"{token.kind.name} ({token.value})"
  | kind => kind.name

/-- The token that closes every stream. -/
def endOfFile (offset : Nat) : Token :=
  ⟨.endOfFile, "EOF", ⟨offset, offset⟩⟩

/-- The terminator that a line break stands for. -/
def lineBreak (offset : Nat) : Token :=
  ⟨.semicolon, "\n", ⟨offset, offset⟩⟩

end Token

end Frontend
