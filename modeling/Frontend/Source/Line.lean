import Frontend.Text.Blank

/-!
# Lines of a text

A line index holds the offsets at which the lines of a text start. It turns an
offset into a line and a column. Offsets and columns count the bytes of the
text's encoding; lines and columns count from one.
-/

namespace Frontend

/-- The offsets at which the lines of a text start, in ascending order. -/
structure LineIndex where
  starts : List Nat
  deriving DecidableEq, Repr

namespace LineIndex

/-- The offsets that directly follow a newline, for characters that start at
`offset`. -/
def startsAfter (offset : Nat) : List Char -> List Nat
  | [] => []
  | character :: rest =>
      let next := offset + character.utf8Size
      if character = '\n' then
        next :: startsAfter next rest
      else
        startsAfter next rest

/-- The index of a text: its first line starts at zero, and each newline starts
another one. -/
def ofText (text : String) : LineIndex :=
  ⟨0 :: startsAfter 0 text.toList⟩

/-- The line and the column of an offset that does not come before the line that
starts at `start`. -/
def placeFrom (offset line start : Nat) : List Nat -> Nat × Nat
  | [] => (line, offset - start + 1)
  | next :: later =>
      if next ≤ offset then
        placeFrom offset (line + 1) next later
      else
        (line, offset - start + 1)

/-- The line and the column of an offset. The line is the last one that starts
at or before the offset. -/
def place (index : LineIndex) (offset : Nat) : Nat × Nat :=
  placeFrom offset 0 0 index.starts

end LineIndex

namespace Text

/-- The characters of the line that `skipped` lines precede. -/
def lineAfter : Nat -> List Char -> Option (List Char)
  | 0, text => some (text.takeWhile (· ≠ '\n'))
  | skipped + 1, text =>
      match text.dropWhile (· ≠ '\n') with
      | [] => none
      | _ :: rest => lineAfter skipped rest

/-- The line of this number, without carriage returns at its end. -/
def line? (text : String) (number : Nat) : Option String :=
  match number with
  | 0 => none
  | skipped + 1 =>
      (lineAfter skipped text.toList).map fun line =>
        String.ofList (dropTrailing (· = '\r') line)

end Text

end Frontend
