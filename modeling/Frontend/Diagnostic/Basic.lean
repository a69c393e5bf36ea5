import Frontend.Source.Basic
import Frontend.Text.Quoted

/-!
# Diagnostics

A diagnostic says what is wrong with a program, and where. Its cause fixes the
stage of analysis that found it, its name, its message and its tip.
-/

namespace Frontend
namespace Diagnostic

/-- What is wrong with a program. -/
inductive Cause
  /-- No lexical rule applies. -/
  | unrecognised (token : String)
  /-- The grammar has no place for the token. -/
  | unexpected (token : String)
  /-- The grammar has no place for the token, for the reason given. -/
  | misplaced (token reason : String)
  /-- The numeral has no value. -/
  | badNumeral (token : String)
  /-- No declaration of the identifier is in force. -/
  | undeclared (identifier : String)
  /-- The innermost scope already declares the identifier. -/
  | redeclared (identifier : String)
  /-- Two types that have to agree do not. -/
  | mismatch (left right : String)
  deriving DecidableEq, Repr

/-- The stages of analysis that find something wrong. -/
inductive Stage
  | lexical
  | syntactic
  | semantic
  deriving DecidableEq, Repr

/-- The word for a stage in messages. -/
def Stage.word : Stage -> String
  | .lexical => "lexical"
  | .syntactic => "syntax"
  | .semantic => "semantic"

namespace Cause

/-- The stage that finds the cause. -/
def stage : Cause -> Stage
  | .unrecognised _ => .lexical
  | .unexpected _ | .misplaced _ _ | .badNumeral _ => .syntactic
  | .undeclared _ | .redeclared _ | .mismatch _ _ => .semantic

/-- The name by which a cause can be looked up. -/
def name : Cause -> String
  | .unrecognised _ => "UnrecognisedToken"
  | .unexpected _ => "UnexpectedToken"
  | .misplaced _ _ => "UnexpectedTokenDetailed"
  | .badNumeral _ => "NumberParseError"
  | .undeclared _ => "ScopecheckFailed"
  | .redeclared _ => "VariableAlreadyDeclared"
  | .mismatch _ _ => "TypeInferenceFailed"

/-- The cause in words. Texts of the program are quoted. -/
def message : Cause -> String
  | .unrecognised token => "unrecognised token: " ++ Text.quoted token
  | .unexpected token => "unexpected token: " ++ Text.quoted token
  | .misplaced token reason =>
      s!"unexpected token ({reason}): " ++ Text.quoted token
  | .badNumeral token => "error parsing number: " ++ Text.quoted token
  | .undeclared identifier =>
      "undeclared identifier " ++ Text.quoted identifier
  | .redeclared identifier =>
      Text.quoted identifier ++ " already declared in this scope"
  | .mismatch left right => s!"cannot unify {left} with {right}"

/-- Advice on the cause, if there is any. -/
def tip? : Cause -> Option String
  | .unrecognised _ => none
  | .unexpected token =>
      some s!"Unexpected token: `{token}`, did you miss a semicolon?"
  | .misplaced token reason => some s!"Unexpected token: `{token}`, {reason}"
  | .badNumeral token =>
      some s!"Invalid number: `{token}`, is it above the integer limit?"
  | .undeclared identifier =>
      some s!"`{identifier}` is not declared in this scope or any enclosing one"
  | .redeclared identifier =>
      some s!"`{identifier}` is already declared in this scope, rename one of them"
  | .mismatch left right =>
      some s!"`{left}` and `{right}` cannot be the same type"

end Cause

end Diagnostic

/-- A cause with its location. -/
structure Diagnostic where
  cause : Diagnostic.Cause
  location : Location
  deriving DecidableEq, Repr

namespace Diagnostic

/-- A diagnostic on one line. -/
def text (diagnostic : Diagnostic) : String :=
  let cause := diagnostic.cause
  s!"{diagnostic.location.text}: {cause.stage.word} error [{cause.name}]: {cause.message}"

end Diagnostic

end Frontend
