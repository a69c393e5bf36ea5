import Frontend.Text.GraphemeExtend
import Frontend.Text.Unprintable

/-!
# Quoted text

The quoted form of a text stands between double quotes. Quotes, backslashes and
the characters newline, return, tab and null are written by short escapes. Any
other character that is unprintable or drawn into its predecessor is written by
its code point in hexadecimal, so that the quoted form shows every character.
-/

namespace Frontend
namespace Text

/-- A character by its code point: a backslash, `u`, and the digits in braces. -/
def codePointEscape (character : Char) : List Char :=
  ['\\', 'u', '\x7b'] ++ Nat.toDigits 16 character.toNat ++ ['\x7d']

/-- A character as it stands in quoted text. -/
def quotedChar (character : Char) : List Char :=
  match character with
  | '"' => ['\\', '"']
  | '\\' => ['\\', '\\']
  | '\n' => ['\\', 'n']
  | '\r' => ['\\', 'r']
  | '\t' => ['\\', 't']
  | '\x00' => ['\\', '0']
  | _ =>
      if isCombining character || isUnprintable character then
        codePointEscape character
      else
        [character]

/-- A text between double quotes, with every character shown. -/
def quoted (text : String) : String :=
  String.ofList (['"'] ++ text.toList.flatMap quotedChar ++ ['"'])

end Text
end Frontend
