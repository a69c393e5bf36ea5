import Frontend.Grammar.Parser
import Frontend.Grammar.Table
import Frontend.Text.Numeral

/-!
# Reading phrases

Each way to read a phrase is one parser here. Where a phrase has phrases in it,
the parser calls `self` for them. `phrase` ties the knot: it counts how deep the
calls are nested and gives up beyond any depth that a finite reading can reach.
-/

namespace Frontend

/-- A request to read a phrase. -/
inductive Phrase
  /-- A phrase that a table entry names. -/
  | construct (construct : Construct)
  /-- An expression whose operators bind tighter than `floor`. -/
  | expr (floor : Power)
  /-- The rest of an expression, after its left part. -/
  | continuation (continuation : Continuation) (left : NodeId) (power : Power)
  deriving DecidableEq, Repr

namespace Parser

/-- Stop because reading never comes to an end. -/
def endless {α : Type} : Parser α :=
  throw (.fault .endless)

section Leaves

variable (stream : Stream)

/-- The tag of the leaf that a token makes, if it makes one. -/
def leafTag? : Token.Kind -> Option Tag
  | .int => some (.literal .int)
  | .float => some (.literal .float)
  | .string => some (.literal .string)
  | .trueWord | .falseWord => some (.literal .bool)
  | .identifier => some .identifier
  | _ => none

/-- The value of a token is right for its kind: a number has a value. -/
def hasValue (token : Token) : Bool :=
  match token.kind with
  | .int => Text.isInteger token.value
  | .float => Text.isDecimal token.value
  | _ => true

/-- Read a literal or an identifier. -/
def primary : Parser NodeId := do
  let token <- next stream
  match leafTag? token.kind with
  | none => reject (<- unexpected stream)
  | some tag =>
      if !hasValue token then
        reject { cause := .badNumeral token.value, location := <- location stream }
      let id <- advance stream
      addNode { tag, token := id, left := 0, right := 0 }

/-- Read the identifier that the reason asks for. -/
def identifier (reason : String) : Parser NodeId := do
  let diagnostic <- misplaced stream reason
  let id <- expectOr stream .identifier diagnostic
  addNode { tag := .identifier, token := id, left := 0, right := 0 }

/-- Read the separator of a list in parentheses, unless the list ends here. -/
def separator (reason : String) : Parser Unit := do
  match <- nextKind stream with
  | .comma => discard (advance stream)
  | .closeParen => return
  | _ => reject (<- misplaced stream reason)

/-- Read parameters up to the closing parenthesis. -/
def parameters : Nat -> Parser (List NodeId)
  | 0 => endless
  | bound + 1 => do
      if (<- nextKind stream) = .closeParen then
        return []
      let parameter <- identifier stream "expected parameter name"
      separator stream "expected `,` or `)` in parameter list"
      return parameter :: (<- parameters bound)

end Leaves

section Phrases

variable (grammar : Grammar) (stream : Stream) (self : Phrase -> Parser NodeId)

/-- The number of items of one list that a stream can hold. A list that takes no
token of the stream for an item goes on for ever. -/
def listBound : Nat := stream.tokens.size + 1

/-- Go on with an expression while the next token binds tighter than `floor`. -/
def continuations (floor : Power) : Nat -> NodeId -> Parser NodeId
  | 0, _ => endless
  | bound + 1, left => do
      match grammar.continuation (<- nextKind stream) with
      | none => return left
      | some (power, continuation) =>
          if power.rank ≤ floor.rank then
            return left
          let left <- self (.continuation continuation left power)
          continuations floor bound left

/-- Read an expression whose operators bind tighter than `floor`. -/
def expr (floor : Power) : Parser NodeId := do
  match grammar.operand (<- nextKind stream) with
  | none => reject (<- unexpected stream)
  | some construct =>
      let left <- self (.construct construct)
      continuations grammar stream self floor (listBound stream) left

/-- Read a whole expression. -/
def expression : Parser NodeId := do
  let start <- nextId stream
  let inner <- self (.expr .lowest)
  addNode { tag := .expression, token := start, left := inner, right := 0 }

/-- Read an operator and its one operand. -/
def unaryOperation : Parser NodeId := do
  match UnaryOperator.ofKind? (<- nextKind stream) with
  | none => reject (<- unexpected stream)
  | some operator =>
      let token <- advance stream
      let operand <- self (.expr .unary)
      addNode { tag := .unary operator, token, left := operand, right := 0 }

/-- Read an expression in parentheses. -/
def grouping : Parser NodeId := do
  discard (expect stream .openParen)
  let inner <- self (.expr .lowest)
  discard (expect stream .closeParen)
  return inner

/-- Read an operator and its right operand. A token that is no operator is
reported with the place of the token after it. -/
def binaryOperation (left : NodeId) (power : Power) : Parser NodeId := do
  let kind <- nextKind stream
  let token <- advance stream
  match BinaryOperator.ofKind? kind with
  | none =>
      let value := (<- Parser.token stream token).value
      reject { cause := .unexpected value, location := <- location stream }
  | some operator =>
      let right <- self (.expr power)
      addNode { tag := .binary operator, token, left, right }

/-- Read arguments up to the closing parenthesis. -/
def arguments : Nat -> Parser (List NodeId)
  | 0 => endless
  | bound + 1 => do
      if (<- nextKind stream) = .closeParen then
        return []
      let argument <- self (.expr .lowest)
      separator stream "expected `,` or `)` in argument list"
      return argument :: (<- arguments bound)

/-- Read the arguments of a call. -/
def call (callee : NodeId) : Parser NodeId := do
  let token <- expect stream .openParen
  let arguments <- arguments stream self (listBound stream)
  discard (expect stream .closeParen)
  let (start, stop) <- addRun arguments
  let (header, _) <- addRun [start, stop]
  addNode { tag := .call, token, left := callee, right := header }

/-- Read a statement. -/
def statement : Parser NodeId := do
  match grammar.statement (<- nextKind stream) with
  | some construct => self (.construct construct)
  | none =>
      let start <- nextId stream
      let target <- self (.construct .expression)
      if (<- nextKind stream) = .assignment then
        let token <- advance stream
        let value <- self (.construct .expression)
        terminator stream
        addNode { tag := .assign, token, left := target, right := value }
      else
        terminator stream
        addNode { tag := .evaluate, token := start, left := target, right := 0 }

/-- Read the declaration of a constant or a variable. -/
def binding : Parser NodeId := do
  let tag := if (<- nextKind stream) = .constWord then Tag.constant else Tag.mutable
  let token <- advance stream
  let name <- identifier stream "expected identifier during variable declaration"
  let diagnostic <- misplaced stream "expected `=` and an initial value"
  discard (expectOr stream .assignment diagnostic)
  let value <- self (.construct .expression)
  terminator stream
  addNode { tag, token, left := name, right := value }

/-- Read statements up to the closing brace. -/
def blockStatements : Nat -> Parser (List NodeId)
  | 0 => endless
  | bound + 1 => do
      match <- nextKind stream with
      | .closeCurly => return []
      | .endOfFile => reject (<- misplaced stream "unclosed block")
      | .semicolon =>
          discard (advance stream)
          blockStatements bound
      | _ =>
          let statement <- self (.construct .statement)
          return statement :: (<- blockStatements bound)

/-- Read statements between braces. -/
def block : Parser NodeId := do
  let token <- expect stream .openCurly
  let statements <- blockStatements stream self (listBound stream)
  discard (expect stream .closeCurly)
  let (start, stop) <- addRun statements
  addNode { tag := .block, token, left := start, right := stop }

/-- Read the declaration of a function. -/
def function : Parser NodeId := do
  let token <- advance stream
  let name <- identifier stream "expected function name"
  discard (expect stream .openParen)
  let parameters <- parameters stream (listBound stream)
  discard (expect stream .closeParen)
  let body <- withinFunction (self (.construct .block))
  let (start, stop) <- addRun parameters
  let (header, _) <- addRun [start, stop, body]
  addNode { tag := .function, token, left := name, right := header }

/-- Read a return from a function. -/
def returnStatement : Parser NodeId := do
  if !(<- inFunction) then
    reject (<- misplaced stream "return outside of a function")
  let token <- advance stream
  let value <-
    match <- nextKind stream with
    | .semicolon | .closeCurly | .endOfFile => pure Node.absent
    | _ => self (.construct .expression)
  terminator stream
  addNode { tag := .return, token, left := value, right := 0 }

/-- Read a phrase, with `self` for the phrases in it. -/
def phraseStep : Phrase -> Parser NodeId
  | .construct .primary => primary stream
  | .construct .operation => unaryOperation stream self
  | .construct .grouping => grouping stream self
  | .construct .expression => expression stream self
  | .construct .statement => statement grammar stream self
  | .construct .binding => binding stream self
  | .construct .block => block stream self
  | .construct .function => function stream self
  | .construct .return => returnStatement stream self
  | .expr floor => expr grammar stream self floor
  | .continuation .operation left power => binaryOperation stream self left power
  | .continuation .call left _ => call stream self left

end Phrases

section Nesting

variable (grammar : Grammar) (stream : Stream)

/-- Read a phrase, with calls nested at most `depth` deep. -/
def phraseWithin : Nat -> Phrase -> Parser NodeId
  | 0, _ => endless
  | depth + 1, request =>
      phraseStep grammar stream (phraseWithin depth) request

/-- The number of ways in which reading can stand at one token: one for each
phrase, left parts apart, inside and outside of functions. -/
def waysPerToken : Nat := 2 * (9 + 9 + 2 * 9)

/-- Read a phrase. A reading whose calls are nested deeper than this stands at
the same token in the same way twice, and so never ends. -/
def phrase (request : Phrase) : Parser NodeId :=
  phraseWithin grammar stream
    (waysPerToken * (stream.tokens.size + 1)) request

end Nesting

end Parser

end Frontend
