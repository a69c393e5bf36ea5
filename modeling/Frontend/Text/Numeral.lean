/-!
# Numerals

Three grammars of numbers in decimal digits. An integer numeral is accepted only
if its value fits into 64 bits with a sign, a natural numeral only if it fits
without one. A decimal numeral may have a fraction and an exponent; the words for
infinity and for an undefined value count as numerals, in any case of their
letters.
-/

namespace Frontend
namespace Text

/-- A text without its sign, and whether that sign was a minus. -/
def splitSign : List Char -> Bool × List Char
  | '-' :: rest => (true, rest)
  | '+' :: rest => (false, rest)
  | rest => (false, rest)

/-- The value of a list of decimal digits. -/
def digitsValue (digits : List Char) : Nat :=
  digits.foldl (fun value digit => 10 * value + (digit.toNat - '0'.toNat)) 0

/-- One or more decimal digits. -/
def isDigits (text : List Char) : Bool :=
  !text.isEmpty && text.all Char.isDigit

/-- An integer numeral: an optional sign and digits, with a value that fits into
64 bits. -/
def isInteger (text : String) : Bool :=
  let (negative, digits) := splitSign text.toList
  isDigits digits &&
    digitsValue digits < UInt64.size / 2 + (if negative then 1 else 0)

/-- The value of a natural numeral: an optional plus sign and digits, with a value
that fits into 64 bits without a sign. -/
def natural? (text : String) : Option Nat :=
  let (negative, digits) := splitSign text.toList
  if !negative && isDigits digits && digitsValue digits < UInt64.size then
    some (digitsValue digits)
  else
    none

/-- The exponent of a decimal numeral, if any: a letter `e`, an optional sign,
and digits. -/
def isExponent : List Char -> Bool
  | [] => true
  | mark :: rest =>
      (mark == 'e' || mark == 'E') && isDigits (splitSign rest).2

/-- Digits with at most one point among them, at least one digit, and an
optional exponent. -/
def isPlainDecimal (text : List Char) : Bool :=
  let whole := text.takeWhile Char.isDigit
  match text.dropWhile Char.isDigit with
  | '.' :: rest =>
      let fraction := rest.takeWhile Char.isDigit
      !(whole.isEmpty && fraction.isEmpty) &&
        isExponent (rest.dropWhile Char.isDigit)
  | rest => !whole.isEmpty && isExponent rest

/-- The words that stand for infinity and for an undefined value. -/
def decimalWords : List String :=
  ["inf", "infinity", "nan"]

/-- A decimal numeral: an optional sign, then digits with an optional fraction
and exponent, or one of the words. -/
def isDecimal (text : String) : Bool :=
  let unsigned := (splitSign text.toList).2
  isPlainDecimal unsigned ||
    decimalWords.any fun word => unsigned.map Char.toLower == word.toList

end Text
end Frontend
