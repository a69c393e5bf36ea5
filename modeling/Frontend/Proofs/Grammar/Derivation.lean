import Frontend.Grammar.Program
import Frontend.Proofs.Syntax.Abstract

/-!
# Derivations

The grammar of the language, as relations between stretches of a token stream and
the phrases they derive. A stretch is given by the place of its first token and
the place after its last one.

Expressions are stratified: each level takes what the next tighter one derives,
and operators of one level associate to the left. The phrases are labelled with
their main tokens.
-/

namespace Frontend

namespace UnaryOperator

/-- The kind of the token an operator is written as. -/
def kind : UnaryOperator -> Token.Kind
  | .plus => .plus
  | .negate => .dash
  | .not => .not
  | .addressOf => .ampersand
  | .dereference => .star

end UnaryOperator

namespace BinaryOperator

/-- The kind of the token an operator is written as. -/
def kind : BinaryOperator -> Token.Kind
  | .add => .plus
  | .sub => .dash
  | .mul => .star
  | .div => .slash
  | .equal => .equals
  | .notEqual => .notEquals
  | .less => .less
  | .lessEqual => .lessEquals
  | .greater => .greater
  | .greaterEqual => .greaterEquals
  | .and => .and
  | .or => .or

/-- The level of the expressions an operator makes. -/
def level : BinaryOperator -> Power
  | .or => .disjunction
  | .and => .conjunction
  | .equal | .notEqual | .less | .lessEqual | .greater | .greaterEqual => .relational
  | .add | .sub => .additive
  | .mul | .div => .multiplicative

end BinaryOperator

/-- A token of this kind is a literal of the base type. -/
inductive Token.Kind.IsLiteral : Token.Kind -> BaseType -> Prop
  | int : IsLiteral .int .int
  | float : IsLiteral .float .float
  | string : IsLiteral .string .string
  | trueWord : IsLiteral .trueWord .bool
  | falseWord : IsLiteral .falseWord .bool

namespace Stream

/-- The kind of the token at a place. -/
def kindAt? (stream : Stream) (place : Nat) : Option Token.Kind :=
  stream.tokens[place]?.map Token.kind

/-- A list of items with commas between them. A comma may also follow the last
item. -/
inductive AreSeparated
    (stream : Stream)
    {Item : Type}
    (IsItem : Nat -> Nat -> Item -> Prop) :
    Nat -> Nat -> List Item -> Prop
  | none {start : Nat} :
      AreSeparated stream IsItem start start []
  | last
      {start stop : Nat}
      {item : Item}
      (derived : IsItem start stop item) :
      AreSeparated stream IsItem start stop [item]
  | more
      {start comma stop : Nat}
      {item : Item}
      {items : List Item}
      (derived : IsItem start comma item)
      (commaAt : stream.kindAt? comma = some .comma)
      (rest : AreSeparated stream IsItem (comma + 1) stop items) :
      AreSeparated stream IsItem start stop (item :: items)

/-- An expression of a level. -/
inductive IsExpression (stream : Stream) :
    Power -> Nat -> Nat -> Expression TokenId -> Prop
  | identifier
      {place : Nat}
      (present : stream.kindAt? place = some .identifier) :
      IsExpression stream .primary place (place + 1) (.identifier place)
  | literal
      {place : Nat}
      {kind : Token.Kind}
      {base : BaseType}
      (present : stream.kindAt? place = some kind)
      (isLiteral : kind.IsLiteral base) :
      IsExpression stream .primary place (place + 1) (.literal place base)
  | group
      {start stop : Nat}
      {inner : Expression TokenId}
      (opened : stream.kindAt? start = some .openParen)
      (derived : IsExpression stream .disjunction (start + 1) stop inner)
      (closed : stream.kindAt? stop = some .closeParen) :
      IsExpression stream .primary start (stop + 1) inner
  | call
      {start opening stop : Nat}
      {callee : Expression TokenId}
      {arguments : List (Expression TokenId)}
      (calleeDerived : IsExpression stream .call start opening callee)
      (opened : stream.kindAt? opening = some .openParen)
      (argumentsDerived : AreSeparated stream (IsExpression stream .disjunction)
        (opening + 1) stop arguments)
      (closed : stream.kindAt? stop = some .closeParen) :
      IsExpression stream .call start (stop + 1) (.call opening callee arguments)
  | unary
      {start stop : Nat}
      {operator : UnaryOperator}
      {operand : Expression TokenId}
      (present : stream.kindAt? start = some operator.kind)
      (derived : IsExpression stream .unary (start + 1) stop operand) :
      IsExpression stream .unary start stop (.unary start operator operand)
  | binary
      {start place stop : Nat}
      {operator : BinaryOperator}
      {left right : Expression TokenId}
      {tighter : Power}
      (leftDerived : IsExpression stream operator.level start place left)
      (present : stream.kindAt? place = some operator.kind)
      (above : tighter.rank = operator.level.rank + 1)
      (rightDerived : IsExpression stream tighter (place + 1) stop right) :
      IsExpression stream operator.level start stop (.binary place operator left right)
  | ascend
      {level tighter : Power}
      {start stop : Nat}
      {expression : Expression TokenId}
      (above : tighter.rank = level.rank + 1)
      (derived : IsExpression stream tighter start stop expression) :
      IsExpression stream level start stop expression

/-- A whole expression. -/
def IsWhole (stream : Stream) (start stop : Nat) (whole : Whole TokenId) : Prop :=
  whole.label = start ∧ stream.IsExpression .disjunction start stop whole.inner

/-- The end of a statement, which may be left out before a closing brace and at the
end of the file. -/
inductive IsTerminator (stream : Stream) : Nat -> Nat -> Prop
  | semicolon
      {place : Nat}
      (present : stream.kindAt? place = some .semicolon) :
      IsTerminator stream place (place + 1)
  | brace
      {place : Nat}
      (present : stream.kindAt? place = some .closeCurly) :
      IsTerminator stream place place
  | endOfFile
      {place : Nat}
      (present : stream.kindAt? place = some .endOfFile) :
      IsTerminator stream place place

/-- An identifier where one is declared. -/
def IsName (stream : Stream) (start stop : Nat) (name : TokenId) : Prop :=
  name = start ∧ stop = start + 1 ∧ stream.kindAt? start = some .identifier

/-- The kind of the word that declares a constant or a variable. -/
def bindingKind (isConstant : Bool) : Token.Kind :=
  if isConstant then .constWord else .varWord

mutual

/-- A statement, inside or outside of a function. -/
inductive IsStatement (stream : Stream) :
    Bool -> Nat -> Nat -> Statement TokenId -> Prop
  | binding
      {inFunction isConstant : Bool}
      {start valueStop stop : Nat}
      {value : Whole TokenId}
      (present : stream.kindAt? start = some (bindingKind isConstant))
      (named : stream.kindAt? (start + 1) = some .identifier)
      (assigned : stream.kindAt? (start + 2) = some .assignment)
      (valueDerived : stream.IsWhole (start + 3) valueStop value)
      (ended : stream.IsTerminator valueStop stop) :
      IsStatement stream inFunction start stop
        (.binding start isConstant (start + 1) value)
  | block
      {inFunction : Bool}
      {start stop : Nat}
      {statements : List (Statement TokenId)}
      (opened : stream.kindAt? start = some .openCurly)
      (derived : AreStatements stream inFunction (start + 1) stop statements)
      (closed : stream.kindAt? stop = some .closeCurly) :
      IsStatement stream inFunction start (stop + 1) (.block start statements)
  | function
      {inFunction : Bool}
      {start middle stop : Nat}
      {parameters : List TokenId}
      {body : List (Statement TokenId)}
      (present : stream.kindAt? start = some .fnWord)
      (named : stream.kindAt? (start + 1) = some .identifier)
      (opened : stream.kindAt? (start + 2) = some .openParen)
      (parametersDerived :
        stream.AreSeparated stream.IsName (start + 3) middle parameters)
      (closed : stream.kindAt? middle = some .closeParen)
      (bodyOpened : stream.kindAt? (middle + 1) = some .openCurly)
      (bodyDerived : AreStatements stream true (middle + 2) stop body)
      (bodyClosed : stream.kindAt? stop = some .closeCurly) :
      IsStatement stream inFunction start (stop + 1)
        (.function start (start + 1) parameters (middle + 1) body)
  | return
      {start stop : Nat}
      (present : stream.kindAt? start = some .returnWord)
      (ended : stream.IsTerminator (start + 1) stop) :
      IsStatement stream true start stop (.return start none)
  | returnValue
      {start valueStop stop : Nat}
      {value : Whole TokenId}
      (present : stream.kindAt? start = some .returnWord)
      (valueDerived : stream.IsWhole (start + 1) valueStop value)
      (ended : stream.IsTerminator valueStop stop) :
      IsStatement stream true start stop (.return start (some value))
  | evaluate
      {inFunction : Bool}
      {start valueStop stop : Nat}
      {value : Whole TokenId}
      (valueDerived : stream.IsWhole start valueStop value)
      (ended : stream.IsTerminator valueStop stop) :
      IsStatement stream inFunction start stop (.evaluate start value)
  | assign
      {inFunction : Bool}
      {start place valueStop stop : Nat}
      {target value : Whole TokenId}
      (targetDerived : stream.IsWhole start place target)
      (assigned : stream.kindAt? place = some .assignment)
      (valueDerived : stream.IsWhole (place + 1) valueStop value)
      (ended : stream.IsTerminator valueStop stop) :
      IsStatement stream inFunction start stop (.assign place target value)

/-- Statements in a row, with further semicolons before, between and after them. -/
inductive AreStatements (stream : Stream) :
    Bool -> Nat -> Nat -> List (Statement TokenId) -> Prop
  | none {inFunction : Bool} {start : Nat} :
      AreStatements stream inFunction start start []
  | skip
      {inFunction : Bool}
      {start stop : Nat}
      {statements : List (Statement TokenId)}
      (present : stream.kindAt? start = some .semicolon)
      (rest : AreStatements stream inFunction (start + 1) stop statements) :
      AreStatements stream inFunction start stop statements
  | more
      {inFunction : Bool}
      {start middle stop : Nat}
      {statement : Statement TokenId}
      {statements : List (Statement TokenId)}
      (derived : IsStatement stream inFunction start middle statement)
      (rest : AreStatements stream inFunction middle stop statements) :
      AreStatements stream inFunction start stop (statement :: statements)

end

/-- What is between the braces of a block. -/
theorem IsStatement.of_block
    {stream : Stream}
    {inFunction : Bool}
    {start stop : Nat}
    {token : TokenId}
    {statements : List (Statement TokenId)}
    (derived : stream.IsStatement inFunction start stop (.block token statements)) :
    token = start ∧ ∃ inner,
      stop = inner + 1 ∧ stream.kindAt? start = some .openCurly ∧
        stream.AreStatements inFunction (start + 1) inner statements ∧
        stream.kindAt? inner = some .closeCurly := by
  cases derived with
  | block opened inside closed => exact ⟨rfl, _, rfl, opened, inside, closed⟩

/-- The stream derives a program: statements up to the end of the file. -/
structure Derives (stream : Stream) (program : Program TokenId) : Prop where
  label : program.label = 0
  statements : ∃ stop,
    stream.AreStatements false 0 stop program.statements ∧
      stream.kindAt? stop = some .endOfFile

/-- The last token of the stream ends the file. Others may do so as well. -/
structure Ends (stream : Stream) : Prop where
  nonempty : 0 < stream.tokens.size
  last : stream.kindAt? (stream.tokens.size - 1) = some .endOfFile

/-- The last token of the stream ends the file, and no other one does. -/
structure EndsOnce (stream : Stream) : Prop where
  nonempty : 0 < stream.tokens.size
  kindAt?_iff : ∀ place,
    stream.kindAt? place = some .endOfFile ↔ place + 1 = stream.tokens.size

theorem EndsOnce.ends {stream : Stream} (once : stream.EndsOnce) : stream.Ends where
  nonempty := once.nonempty
  last := (once.kindAt?_iff _).mpr (Nat.sub_add_cancel once.nonempty)

instance (stream : Stream) : Coe stream.EndsOnce stream.Ends :=
  ⟨EndsOnce.ends⟩

/-- It is enough to look at the tokens that are there. -/
theorem endsOnce_iff (stream : Stream) :
    stream.EndsOnce ↔
      0 < stream.tokens.size ∧ ∀ place < stream.tokens.size,
        (stream.kindAt? place = some .endOfFile ↔ place + 1 = stream.tokens.size) := by
  constructor
  · intro ends
    exact ⟨ends.nonempty, fun place _ => ends.kindAt?_iff place⟩
  · rintro ⟨nonempty, inside⟩
    refine ⟨nonempty, fun place => ?_⟩
    by_cases bounded : place < stream.tokens.size
    · exact inside place bounded
    · have absent : stream.kindAt? place = none := by
        simp [kindAt?, Array.getElem?_eq_none (Nat.le_of_not_lt bounded)]
      simp only [absent, reduceCtorEq, false_iff]
      omega

instance (stream : Stream) : Decidable stream.EndsOnce :=
  decidable_of_iff' _ stream.endsOnce_iff

instance (stream : Stream) : Decidable stream.Ends :=
  decidable_of_iff
    (0 < stream.tokens.size ∧
      stream.kindAt? (stream.tokens.size - 1) = some .endOfFile)
    ⟨fun ends => ⟨ends.1, ends.2⟩, fun ends => ⟨ends.1, ends.2⟩⟩

end Stream
end Frontend
