import Frontend.Diagnostic.Basic
import Frontend.Token.Rule

/-!
# From text to tokens

Scanning cuts a text into lexemes and turns them into tokens. A line break, and
likewise the end of the text, stands for a terminator if the token before it can
end a statement.
-/

namespace Frontend
namespace Token

/-- A character at which no rule applies. -/
structure Unrecognised where
  character : Char
  offset : Nat
  deriving DecidableEq, Repr

/-- The terminator that a line break at this offset stands for, if the token
before it can end a statement. -/
def terminator (endable : Bool) (offset : Nat) : List Token :=
  if endable then [lineBreak offset] else []

/-- The tokens of a text that starts at `offset`, where `endable` says whether
the token before it can end a statement. -/
def scan (endable : Bool) (offset : Nat) :
    List Char -> Except Unrecognised (List Token)
  | [] => .ok (terminator endable offset ++ [endOfFile offset])
  | character :: rest =>
      match found : Rule.first? (character :: rest) with
      | none => .error ⟨character, offset⟩
      | some (rule, lexeme) =>
          let stop := offset + rule.stride lexeme
          let unread := afterBytes (rule.stride lexeme) (character :: rest)
          match rule.content? lexeme with
          | some (kind, value) => do
              let later <- scan kind.endsStatement stop unread
              return ⟨kind, value, ⟨offset, stop⟩⟩ :: later
          | none =>
              if rule = .newline then do
                let later <- scan false stop unread
                return terminator endable offset ++ later
              else
                scan endable stop unread
  termination_by text => text.length
  decreasing_by all_goals exact Rule.length_afterBytes_stride found

end Token

namespace Source

/-- The tokens of a source, or the diagnostic of the first character at which no
lexical rule applies. -/
def tokens (source : Source) : Except Diagnostic (List Token) :=
  match Token.scan false 0 source.text.toList with
  | .ok tokens => .ok tokens
  | .error unrecognised =>
      .error
        { cause := .unrecognised (String.singleton unrecognised.character)
          location := source.place unrecognised.offset }

end Source

end Frontend
