import Frontend.Source.Basic

/-!
# Cursors

A cursor is a position in a source, counted in bytes. It may stand anywhere, also
beyond the end or inside a character; only reading from such a place is a fault.
-/

namespace Frontend

/-- A position in a source. -/
structure Cursor where
  source : Source
  offset : Nat := 0
  deriving DecidableEq, Repr

namespace Cursor

/-- The number of positions that can be counted. -/
def positions : Nat := UInt64.size

/-- The position a number of bytes after the cursor. -/
def after (cursor : Cursor) (bytes : Nat) : Except Fault Nat :=
  if cursor.offset + bytes < positions then
    .ok (cursor.offset + bytes)
  else
    .error (.position (cursor.offset + bytes))

/-- Move a number of bytes on. -/
def advance (cursor : Cursor) (bytes : Nat) : Except Fault Cursor := do
  return { cursor with offset := ← cursor.after bytes }

/-- Nothing is left to read. -/
def atEnd (cursor : Cursor) : Bool :=
  cursor.source.text.utf8ByteSize ≤ cursor.offset

/-- The characters that follow a number of bytes, if that number ends on a
boundary between characters. -/
def dropBytes : Nat -> List Char -> Option (List Char)
  | 0, characters => some characters
  | _ + 1, [] => none
  | bytes + 1, character :: rest =>
      if character.utf8Size ≤ bytes + 1 then
        dropBytes (bytes + 1 - character.utf8Size) rest
      else
        none

/-- The text from the cursor on. -/
def rest (cursor : Cursor) : Except Fault String :=
  match dropBytes cursor.offset cursor.source.text.toList with
  | some characters => .ok (String.ofList characters)
  | none => .error (.position cursor.offset)

/-- The first and the last offset of a stretch of bytes from the cursor on, each
cut to a 32-bit word. -/
def stretch (cursor : Cursor) (bytes : Nat) : Except Fault (Nat × Nat) := do
  let stop <- cursor.after bytes
  return (cursor.offset % Source.wordSize, stop % Source.wordSize)

end Cursor

end Frontend
