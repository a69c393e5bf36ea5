import Frontend.Proofs.Token.Cover
import Frontend.Text.Numeral

/-!
# Scanning undoes printing

A lexeme is what one token is written as. Lexemes can be printed with single spaces
between them. Scanning the text gives back their kinds and values: no lexeme takes in the
space after it, and a string comes back from its escapes.
-/

namespace Frontend

namespace Text

end Text

namespace Token

/-- A piece of a program text that makes one token. -/
inductive Lexeme
  /-- A word that is not reserved. -/
  | identifier
      (word : List Char)
      (isWord : Rule.IsWord word)
      (isFree : String.ofList word ∉ Kind.reserved.map Prod.fst)
  /-- A reserved word. -/
  | reserved
      (word : String)
      (kind : Kind)
      (listed : (word, kind) ∈ Kind.reserved)
  /-- One or more digits. -/
  | int
      (digits : List Char)
      (areDigits : Text.isDigits digits = true)
  /-- Digits, a point and digits. -/
  | float
      (whole fraction : List Char)
      (areDigits : Text.isDigits whole = true)
      (fractionAreDigits : Text.isDigits fraction = true)
  /-- A string with any characters. -/
  | string (value : String)
  /-- An operator or a punctuation mark. -/
  | symbol
      (row : Symbol)
      (listed : row ∈ Rule.symbols)

/-- A character as it is written in a string. -/
def escaped (character : Char) : List Char :=
  match escapes.find? fun escape => escape.2 == character with
  | some (letter, _) => ['\\', letter]
  | none => [character]

namespace Lexeme

/-- The kind of the token that a lexeme makes. -/
def kind : Lexeme -> Kind
  | .identifier _ _ _ => .identifier
  | .reserved _ kind _ => kind
  | .symbol row _ => row.kind
  | .int _ _ => .int
  | .float _ _ _ _ => .float
  | .string _ => .string

/-- The value of the token that a lexeme makes. -/
def value : Lexeme -> String
  | .identifier word _ _ => String.ofList word
  | .reserved word _ _ => word
  | .int digits _ => String.ofList digits
  | .float whole fraction _ _ => String.ofList (whole ++ '.' :: fraction)
  | .string value => value
  | .symbol row _ => row.literal

/-- The text of a lexeme. That of a string stands in quotes. -/
def written : Lexeme -> List Char
  | .string value => '"' :: (value.toList.flatMap escaped ++ ['"'])
  | lexeme => lexeme.value.toList

end Lexeme

/-- Lexemes with single spaces between them. -/
def printed (lexemes : List Lexeme) : List Char :=
  List.intercalate [' '] (lexemes.map Lexeme.written)

/-- The terminator after the last lexeme, if that can end a statement. -/
def closing (lexemes : List Lexeme) : List (Kind × String) :=
  if lexemes.getLast?.any (·.kind.endsStatement) then [(.semicolon, "\n")] else []

/-- The text that follows a lexeme is empty or starts with a space. -/
def IsSpaced (text : List Char) : Prop :=
  ∀ next ∈ text.head?, next = ' '

/-! ## Strings -/

/-- What a class of characters takes ends before the first character outside. -/
theorem takeWhile_append_of_stops
    {isInside : Char -> Bool}
    {taken rest : List Char}
    (inside : ∀ character ∈ taken, isInside character = true)
    (stops : ∀ next ∈ rest.head?, isInside next = false) :
    (taken ++ rest).takeWhile isInside = taken ∧ (taken ++ rest).dropWhile isInside = rest := by
  rw [List.takeWhile_append_of_pos inside, List.dropWhile_append_of_pos inside]
  cases rest with
  | nil => simp
  | cons next more => simp [stops next rfl]

theorem IsSpaced.stops
    {rest : List Char}
    (spaced : IsSpaced rest)
    {isInside : Char -> Bool}
    (outside : isInside ' ' = false) :
    ∀ next ∈ rest.head?, isInside next = false := by
  intro next isHead
  rw [spaced next isHead, outside]

namespace Rule

theorem first?_of_word
    {text lexeme : List Char}
    (found : lexeme? .word text = some lexeme) :
    first? text = some (.word, lexeme) := by
  simp [first?, all, found]

theorem lexeme?_word_append
    {word rest : List Char}
    (isWord : IsWord word)
    (stops : ∀ next ∈ rest.head?, continuesWord next = false) :
    lexeme? .word (word ++ rest) = some word := by
  obtain ⟨first, more, rfl, starts, goesOn⟩ := isWord
  simp [lexeme?, starts, takeWhile_append_of_stops goesOn stops]

theorem first?_of_digit
    {first : Char}
    (isDigit : first.isDigit = true)
    (rest : List Char) :
    first? (first :: rest) = some (.number, numeral (first :: rest)) := by
  have startsNoWord : startsWord first = false := by
    by_contra starts
    rw [Bool.not_eq_false] at starts
    rw [isDigit_of_startsWord starts] at isDigit
    cases isDigit
  simp [first?, all, lexeme?, startsNoWord, isDigit]

theorem first?_quote
    {rest tail : List Char}
    (found : stringTail rest = some tail) :
    first? ('"' :: rest) = some (.string, '"' :: tail) := by
  have outside : startsWord '"' = false ∧ '"'.isDigit = false ∧ isSeparator '"' = false := by
    decide
  simp [first?, all, lexeme?, outside, found]

theorem first?_of_isSeparator
    {first : Char}
    (separates : isSeparator first = true)
    (rest : List Char) :
    first? (first :: rest) = some (.blanks, first :: rest.takeWhile isSeparator) := by
  have outside : startsWord first = false ∧ first.isDigit = false ∧ first ≠ '\n' := by
    simp only [isSeparator, Bool.or_eq_true, beq_iff_eq] at separates
    rcases separates with (rfl | rfl) | rfl <;> decide
  simp [first?, all, lexeme?, outside, separates]

/-- Digits are a number up to what is neither a digit nor a point. -/
theorem numeral_append
    {digits rest : List Char}
    (areDigits : ∀ digit ∈ digits, digit.isDigit = true)
    (stops : ∀ next ∈ rest.head?, next.isDigit = false)
    (pointless : '.' ∉ rest.head?) :
    numeral (digits ++ rest) = digits := by
  obtain ⟨taken, dropped⟩ := takeWhile_append_of_stops areDigits stops
  rw [numeral, taken, dropped]
  split
  · exact (pointless rfl).elim
  · rfl

/-- A point and further digits belong to the number. -/
theorem numeral_append_point
    {whole fraction rest : List Char}
    (areDigits : ∀ digit ∈ whole, digit.isDigit = true)
    (fractionAreDigits : ∀ digit ∈ fraction, digit.isDigit = true)
    (nonempty : fraction ≠ [])
    (stops : ∀ next ∈ rest.head?, next.isDigit = false) :
    numeral (whole ++ '.' :: fraction ++ rest) = whole ++ '.' :: fraction := by
  have taken := (takeWhile_append_of_stops fractionAreDigits stops).1
  have point : '.'.isDigit = false := by decide
  rw [List.append_assoc, List.cons_append, numeral, List.takeWhile_append_of_pos areDigits,
    List.dropWhile_append_of_pos areDigits, List.takeWhile_cons_of_neg (by simp [point]),
    List.dropWhile_cons_of_neg (by simp [point])]
  obtain ⟨first, more, rfl⟩ := List.exists_cons_of_ne_nil nonempty
  simp only [taken, List.append_nil]

end Rule

/-- The kind and the value of a token. -/
def content (token : Token) : Kind × String :=
  (token.kind, token.value)

end Token

namespace Source

open Token

end Source

end Frontend
