import Frontend.Fault
import Frontend.Source.Line

/-!
# Sources

A source is a program text with the name of its file and the index of its lines.
-/

namespace Frontend

/-- A line and a column in a named file. -/
structure Location where
  line : Nat
  column : Nat
  file : String
  deriving DecidableEq, Repr

namespace Location

/-- A location as file, line and column. -/
def text (location : Location) : String :=
  s!"{location.file}:{location.line}:{location.column}"

end Location

/-- A program text with the name of its file. -/
structure Source where
  text : String
  file : String
  lines : LineIndex := LineIndex.ofText text
  lines_eq : lines = LineIndex.ofText text := by rfl
  deriving DecidableEq, Repr

namespace Source

/-- The file name of a text that comes from no file. -/
def unnamed : String := "shell"

/-- A text with the name of its file, if it has one. -/
def ofText (text : String) (file : Option String) : Source :=
  { text, file := file.getD unnamed }

/-- The location of an offset. -/
def place (source : Source) (offset : Nat) : Location :=
  let (line, column) := source.lines.place offset
  { line, column, file := source.file }

/-- The number of values of a 32-bit word. -/
def wordSize : Nat := UInt32.size

/-- The location of an offset that a caller names. Its column has to fit into a
32-bit word. -/
def locate (source : Source) (offset : Nat) : Except Fault Location :=
  let location := source.place offset
  if location.column < wordSize then
    .ok location
  else
    .error (.column offset)

theorem locate_eq_ok
    {source : Source}
    {offset : Nat}
    (fits : (source.place offset).column < wordSize) :
    source.locate offset = .ok (source.place offset) := by
  simp [locate, fits]

end Source

end Frontend
