import Frontend.Diagnostic.Basic
import Frontend.Tree.Basic

/-!
# Parsers

A parser reads a token stream from left to right and appends nodes to a tree. It
looks one token ahead. A stream is read as if its last token went on for ever,
and a token that ends the file is never passed.

When a parser fails, it keeps its place and the nodes it has made.
-/

namespace Frontend

/-- What a parser reads. -/
structure Stream where
  source : Source
  tokens : Array Token
  deriving DecidableEq, Repr

/-- How far a parser has come. -/
structure Progress where
  /-- The number of tokens read. -/
  position : Nat := 0
  nodes : Array Node := #[]
  extra : Array Nat := #[]
  /-- The number of function bodies that are open. -/
  depth : Nat := 0
  deriving DecidableEq, Repr

/-- A computation that reads tokens and makes nodes. -/
abbrev Parser := EStateM (Stop Diagnostic) Progress

namespace Parser

/-- Fail with a diagnostic. -/
def reject {α : Type} (diagnostic : Diagnostic) : Parser α :=
  throw (.failed diagnostic)

/-- The result of a computation that can only fault. -/
def ofFault {α : Type} : Except Fault α -> Parser α
  | .ok value => pure value
  | .error fault => throw (.fault fault)

section Reading

variable (stream : Stream)

/-- The index of the next token. -/
def nextId : Parser TokenId := do
  if stream.tokens.isEmpty then
    throw (.fault .noTokens)
  return min (<- get).position (stream.tokens.size - 1)

/-- The next token. -/
def next : Parser Token := do
  match stream.tokens[<- nextId stream]? with
  | some token => return token
  | none => throw (.fault .noTokens)

/-- The kind of the next token. -/
def nextKind : Parser Token.Kind := do
  return (<- next stream).kind

/-- The location of the next token. -/
def location : Parser Location := do
  ofFault (stream.source.locate (<- next stream).span.start)

/-- The token of this index. -/
def token (id : TokenId) : Parser Token :=
  match stream.tokens[id]? with
  | some token => return token
  | none => throw (.fault (.token id))

/-- Read the next token, unless it ends the file. -/
def advance : Parser TokenId := do
  let id <- nextId stream
  if (<- nextKind stream) ≠ .endOfFile then
    modify fun progress => { progress with position := progress.position + 1 }
  return id

/-- The diagnostic that there is no place for the next token. -/
def unexpected : Parser Diagnostic := do
  let token <- next stream
  return { cause := .unexpected token.value, location := <- location stream }

/-- The diagnostic that there is no place for the next token, with a reason. -/
def misplaced (reason : String) : Parser Diagnostic := do
  let token <- next stream
  return { cause := .misplaced token.value reason, location := <- location stream }

/-- Read a token of this kind, or fail with the diagnostic given. -/
def expectOr (kind : Token.Kind) (diagnostic : Diagnostic) : Parser TokenId := do
  if (<- nextKind stream) = kind then
    advance stream
  else
    reject diagnostic

/-- Read a token of this kind. -/
def expect (kind : Token.Kind) : Parser TokenId := do
  if (<- nextKind stream) = kind then
    advance stream
  else
    reject (<- unexpected stream)

/-- Read the end of a statement. It may be left out before a closing brace and at
the end of the file. -/
def terminator : Parser Unit := do
  match <- nextKind stream with
  | .semicolon => discard (advance stream)
  | .closeCurly | .endOfFile => return
  | _ => reject (<- misplaced stream "expected `;` or a newline")

end Reading

section Making

/-- Append a node. -/
def addNode (node : Node) : Parser NodeId :=
  modifyGet fun progress =>
    (progress.nodes.size, { progress with nodes := progress.nodes.push node })

/-- Replace a node. -/
def setNode (id : NodeId) (node : Node) : Parser Unit := do
  let progress <- get
  if id < progress.nodes.size then
    set { progress with nodes := progress.nodes.setIfInBounds id node }
  else
    throw (.fault (.node id))

/-- Append words to the side array, and give their bounds. -/
def addRun (words : List Nat) : Parser (Nat × Nat) :=
  modifyGet fun progress =>
    let start := progress.extra.size
    let extra := progress.extra.appendList words
    ((start, extra.size), { progress with extra })

end Making

section Functions

/-- Some function body is open. -/
def inFunction : Parser Bool := do
  return 0 < (<- get).depth

/-- Open a function body. -/
def enterFunction : Parser Unit :=
  modify fun progress => { progress with depth := progress.depth + 1 }

/-- Close a function body. -/
def leaveFunction : Parser Unit := do
  let progress <- get
  match progress.depth with
  | 0 => throw (.fault .functionExit)
  | depth + 1 => set { progress with depth }

/-- Read the body of a function. It is closed also if reading fails. -/
def withinFunction {α : Type} (body : Parser α) : Parser α := do
  enterFunction
  match body (<- get) with
  | .ok value progress => do
      set progress
      leaveFunction
      return value
  | .error stop progress => do
      set progress
      leaveFunction
      throw stop

end Functions

end Parser

end Frontend
