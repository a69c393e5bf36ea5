import Frontend.Token.Basic
import Frontend.Tree.Tag

/-!
# Tables of the grammar

The grammar of expressions and statements is given by tables. They say, for each
kind of token, how a phrase that starts with such a token is read, and how an
expression goes on that such a token follows.
-/

namespace Frontend

/-- How strongly an operator binds its operands, weakest first. -/
inductive Power
  | lowest
  | disjunction
  | conjunction
  | relational
  | additive
  | multiplicative
  | unary
  | call
  | primary
  deriving DecidableEq, Repr

namespace Power

/-- Every power, weakest first. -/
def all : List Power :=
  [.lowest, .disjunction, .conjunction, .relational, .additive, .multiplicative,
    .unary, .call, .primary]

/-- The number of weaker powers. -/
def rank : Power -> Nat
  | .lowest => 0
  | .disjunction => 1
  | .conjunction => 2
  | .relational => 3
  | .additive => 4
  | .multiplicative => 5
  | .unary => 6
  | .call => 7
  | .primary => 8

end Power

/-- The constructs of the language, each read from its first token on. -/
inductive Construct
  /-- A literal or an identifier. -/
  | primary
  /-- An operator and its one operand. -/
  | operation
  /-- An expression in parentheses. -/
  | grouping
  /-- A whole expression. -/
  | expression
  | statement
  /-- The declaration of a constant or a variable. -/
  | binding
  | block
  | function
  | return
  deriving DecidableEq, Repr

/-- The ways to go on with an expression whose left part is read. -/
inductive Continuation
  /-- An operator and its right operand. -/
  | operation
  /-- Arguments in parentheses. -/
  | call
  deriving DecidableEq, Repr

/-- The tables of a grammar. -/
structure Grammar where
  /-- How a statement is read that starts with a token of this kind. Without an
  entry, it starts with an expression. -/
  statement : Token.Kind -> Option Construct
  /-- How an expression is read that starts with a token of this kind. -/
  operand : Token.Kind -> Option Construct
  /-- How an expression goes on with a token of this kind, and how strongly. -/
  continuation : Token.Kind -> Option (Power × Continuation)

namespace Grammar

/-- The tables without an entry. -/
def empty : Grammar where
  statement _ := none
  operand _ := none
  continuation _ := none

/-- The tables of the language. -/
def standard : Grammar where
  statement
    | .constWord | .varWord => some .binding
    | .openCurly => some .block
    | .fnWord => some .function
    | .returnWord => some .return
    | _ => none
  operand
    | .int | .float | .string | .trueWord | .falseWord | .identifier =>
        some .primary
    | .openParen => some .grouping
    | .dash | .plus | .not | .ampersand | .star => some .operation
    | _ => none
  continuation
    | .or => some (.disjunction, .operation)
    | .and => some (.conjunction, .operation)
    | .less | .lessEquals | .greater | .greaterEquals | .equals | .notEquals =>
        some (.relational, .operation)
    | .plus | .dash => some (.additive, .operation)
    | .star | .slash => some (.multiplicative, .operation)
    | .openParen => some (.call, .call)
    | _ => none

/-- Set how a statement is read. -/
def withStatement
    (grammar : Grammar)
    (kind : Token.Kind)
    (construct : Construct) : Grammar :=
  { grammar with
    statement := fun other =>
      if other = kind then some construct else grammar.statement other }

/-- Set how an expression is read. -/
def withOperand
    (grammar : Grammar)
    (kind : Token.Kind)
    (construct : Construct) : Grammar :=
  { grammar with
    operand := fun other =>
      if other = kind then some construct else grammar.operand other }

/-- Set how an expression goes on. -/
def withContinuation
    (grammar : Grammar)
    (kind : Token.Kind)
    (power : Power)
    (continuation : Continuation) : Grammar :=
  { grammar with
    continuation := fun other =>
      if other = kind then
        some (power, continuation)
      else
        grammar.continuation other }

/-- How strongly an expression goes on with a token of this kind. A token that
cannot continue one binds weakest. -/
def power (grammar : Grammar) (kind : Token.Kind) : Power :=
  match grammar.continuation kind with
  | some (power, _) => power
  | none => .lowest

end Grammar

namespace UnaryOperator

/-- The operator that a token before an operand stands for. -/
def ofKind? : Token.Kind -> Option UnaryOperator
  | .dash => some .negate
  | .plus => some .plus
  | .not => some .not
  | .ampersand => some .addressOf
  | .star => some .dereference
  | _ => none

end UnaryOperator

namespace BinaryOperator

/-- The operator that a token between operands stands for. -/
def ofKind? : Token.Kind -> Option BinaryOperator
  | .plus => some .add
  | .dash => some .sub
  | .star => some .mul
  | .slash => some .div
  | .equals => some .equal
  | .notEquals => some .notEqual
  | .less => some .less
  | .lessEquals => some .lessEqual
  | .greater => some .greater
  | .greaterEquals => some .greaterEqual
  | .and => some .and
  | .or => some .or
  | _ => none

end BinaryOperator

end Frontend
