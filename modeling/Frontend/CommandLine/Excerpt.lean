import Frontend.Diagnostic.Basic

/-!
# Excerpts

On the command line a diagnostic is shown with the line of the text it is about.
The line stands without the blanks at its ends, and under it a caret marks the
column. A caret cannot be drawn under every column; where it cannot, the display
breaks off.
-/

namespace Frontend
namespace Diagnostic

/-- The character may be cut off at the start of a shown line. -/
def isIndent (character : Char) : Bool :=
  character == ' ' || character == '\t'

/-- The name of the cause and the advice on it. -/
def heading (diagnostic : Diagnostic) : String :=
  let name := diagnostic.cause.name
  match diagnostic.cause.tip? with
  | some tip => s!"Error: {name} ({tip})"
  | none => s!"Error: {name}"

/-- A text with blanks before it, up to a width. -/
def alignRight (width : Nat) (fill : Char) (text : String) : String :=
  String.ofList (List.replicate (width - text.length) fill) ++ text

/-- The last column under which a caret can be drawn. -/
def lastCaretColumn : Nat := UInt16.size - 1

/-- A caret under a column, if it can be drawn there. -/
def caret? (column : Nat) : Option String :=
  if column ≤ lastCaretColumn then some (alignRight column '-' "^") else none

/-- Lines that are shown, and whether they are all there. -/
structure Display where
  lines : List String := []
  complete : Bool := true
  deriving DecidableEq, Repr

namespace Display

/-- Lines one after the other. Nothing is shown after lines that break off. -/
def append (first second : Display) : Display :=
  if first.complete then
    { lines := first.lines ++ second.lines, complete := second.complete }
  else
    first

end Display

/-- A line of the text, and a caret under its column. Without a caret the excerpt
breaks off. -/
def excerpt (location : Location) (line : String) : Display :=
  let number := toString location.line
  let gutter := alignRight (number.length + 2) ' ' "|"
  let indent := line.toList.takeWhile isIndent
  let shown := Text.dropTrailing Text.isBlank (line.toList.dropWhile isIndent)
  let above := [gutter, number ++ " | " ++ String.ofList shown]
  match caret? (max 1 (location.column - indent.length)) with
  | some caret => { lines := above ++ [gutter ++ " " ++ caret] }
  | none => { lines := above, complete := false }

/-- The lines that show a diagnostic about a text from the file at a path. -/
def display
    (diagnostic : Diagnostic)
    (text path : String) : Display :=
  let location := diagnostic.location
  let place := s!"-> {path}:{location.line}:{location.column}"
  let shown : Display :=
    match Text.line? text location.line with
    | some line => excerpt location line
    | none => {}
  { shown with lines := diagnostic.heading :: place :: shown.lines }

end Diagnostic
end Frontend
