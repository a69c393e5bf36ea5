import Frontend.Grammar.Phrase
import Frontend.Token.Scan

/-!
# Reading programs

A program is a sequence of statements up to the end of the file. Its root is the
first node that is made, and gets its statements last.
-/

namespace Frontend
namespace Parser

variable (grammar : Grammar) (stream : Stream)

/-- Read statements up to the end of the file. -/
def programStatements : Nat -> Parser (List NodeId)
  | 0 => endless
  | bound + 1 => do
      match <- nextKind stream with
      | .endOfFile => return []
      | .semicolon =>
          discard (advance stream)
          programStatements bound
      | _ =>
          let statement <- phrase grammar stream (.construct .statement)
          return statement :: (<- programStatements bound)

/-- Read a whole program. -/
def program : Parser Unit := do
  let token <- nextId stream
  let root <- addNode { tag := .root, token, left := 0, right := 0 }
  let statements <- programStatements grammar stream (listBound stream)
  let (start, stop) <- addRun statements
  setNode root { tag := .root, token, left := start, right := stop }

end Parser

namespace Stream

/-- The tree of a stream, by the standard grammar. -/
def tree (stream : Stream) : Except (Stop Diagnostic) Tree :=
  match Parser.program Grammar.standard stream {} with
  | .ok _ progress =>
      .ok
        { source := stream.source
          tokens := stream.tokens
          nodes := progress.nodes
          extra := progress.extra }
  | .error stop _ => .error stop

end Stream

namespace Source

/-- The token stream of a source. -/
def stream (source : Source) : Except Diagnostic Stream := do
  return { source, tokens := (<- source.tokens).toArray }

end Source

end Frontend
