import Frontend.Text.Ranges

/-!
# Blank characters

The white space of the character database, and texts without their trailing
blanks.
-/

namespace Frontend
namespace Text

/-- The ranges of white-space code points, in ascending order. -/
def blankRanges : List (Nat × Nat) :=
  [(0x9, 5), (0x20, 1), (0x85, 1), (0xA0, 1), (0x1680, 1), (0x2000, 11), (0x2028, 2),
   (0x202F, 1), (0x205F, 1), (0x3000, 1)]

/-- The character is white space. -/
def isBlank (character : Char) : Bool :=
  inRanges blankRanges character

/-- The text without the longest run of `drop` characters at its end. -/
def dropTrailing (drop : Char -> Bool) (text : List Char) : List Char :=
  (text.reverse.dropWhile drop).reverse

end Text
end Frontend
