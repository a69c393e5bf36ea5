import Frontend.Types.Base

/-!
# Tags

A tag says what kind of phrase a node of a syntax tree stands for.
-/

namespace Frontend

/-- The operators that stand before their operand. -/
inductive UnaryOperator
  | plus
  | negate
  | not
  | addressOf
  | dereference
  deriving DecidableEq, Repr

/-- The operators that stand between their operands. -/
inductive BinaryOperator
  | add
  | sub
  | mul
  | div
  | equal
  | notEqual
  | less
  | lessEqual
  | greater
  | greaterEqual
  | and
  | or
  deriving DecidableEq, Repr

/-- What kind of phrase a node stands for. -/
inductive Tag
  /-- A whole program. -/
  | root
  /-- The declaration of a function. -/
  | function
  /-- Statements between braces. -/
  | block
  /-- The declaration of a constant. -/
  | constant
  /-- The declaration of a variable. -/
  | mutable
  /-- An assignment. -/
  | assign
  /-- An expression as a statement. -/
  | evaluate
  /-- A return from a function. -/
  | return
  /-- A whole expression. -/
  | expression
  | identifier
  | literal (base : BaseType)
  | unary (operator : UnaryOperator)
  | binary (operator : BinaryOperator)
  | call
  deriving DecidableEq, Repr

namespace UnaryOperator

/-- The name of an operator in the dump of a tree. -/
def name : UnaryOperator -> String
  | .plus => "pos"
  | .negate => "neg"
  | .not => "!"
  | .addressOf => "&"
  | .dereference => "*"

end UnaryOperator

namespace BinaryOperator

/-- The name of an operator in the dump of a tree. -/
def name : BinaryOperator -> String
  | .add => "+"
  | .sub => "-"
  | .mul => "*"
  | .div => "/"
  | .equal => "=="
  | .notEqual => "!="
  | .less => "<"
  | .lessEqual => "<="
  | .greater => ">"
  | .greaterEqual => ">="
  | .and => "&&"
  | .or => "||"

end BinaryOperator

namespace Tag

/-- The name of a tag in the dump of a tree. -/
def name : Tag -> String
  | .root => "root"
  | .function => "fn"
  | .block => "block"
  | .constant => "const"
  | .mutable => "var"
  | .assign => "="
  | .evaluate => "expr"
  | .return => "return"
  | .expression => "expression"
  | .identifier => "ident"
  | .literal base => base.name
  | .unary operator => operator.name
  | .binary operator => operator.name
  | .call => "call"

/-- The phrase is a lexical scope. -/
def isScope : Tag -> Bool
  | .root | .function | .block => true
  | _ => false

end Tag

end Frontend
