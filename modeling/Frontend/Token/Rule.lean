import Frontend.Token.Basic

/-!
# Lexical rules

A text is cut into lexemes by an ordered list of rules. A rule either does not
apply at the start of a text or takes a non-empty run of characters from it. The
first rule that applies decides; the order of the list makes it the one that
takes the most.

How far a rule goes on is its own affair: a symbol goes on by a text that the list gives
beside its pattern, and a newline by one byte. Both come to the bytes of the lexeme
(`Rule.stride_eq`), so that every step leaves a shorter text.
-/

namespace Frontend
namespace Token

/-- An operator or a punctuation mark: the characters by which it is found in a text, and
the text that its token has as its value and by which scanning goes on. -/
structure Symbol where
  pattern : String
  literal : String
  kind : Kind
  deriving DecidableEq, Repr

/-- The number of bytes of a list of characters. -/
def byteLength (characters : List Char) : Nat :=
  characters.foldr (fun character bytes => character.utf8Size + bytes) 0

/-- What follows a number of bytes of a text. A character in which they end is passed as a
whole. -/
def afterBytes : Nat -> List Char -> List Char
  | 0, text => text
  | _ + 1, [] => []
  | bytes + 1, character :: rest => afterBytes (bytes + 1 - character.utf8Size) rest

@[simp] theorem byteLength_nil : byteLength [] = 0 :=
  rfl

theorem byteLength_cons (character : Char) (rest : List Char) :
    byteLength (character :: rest) = character.utf8Size + byteLength rest :=
  rfl

theorem byteLength_append (first second : List Char) :
    byteLength (first ++ second) = byteLength first + byteLength second := by
  induction first with
  | nil => simp
  | cons character rest ih =>
      rw [List.cons_append, byteLength_cons, byteLength_cons, ih,
        Nat.add_assoc]

theorem byteLength_pos {text : List Char} (nonempty : text ≠ []) : 0 < byteLength text := by
  obtain ⟨character, rest, rfl⟩ := List.exists_cons_of_ne_nil nonempty
  exact Nat.add_pos_left character.utf8Size_pos _

/-- The bytes of a text are those of its characters. -/
theorem byteLength_eq_utf8ByteSize (text : List Char) :
    byteLength text = (String.ofList text).utf8ByteSize := by
  induction text with
  | nil => rfl
  | cons character rest ih =>
      have split : String.ofList (character :: rest) =
          String.singleton character ++ String.ofList rest := by
        rw [String.singleton_eq_ofList, ← String.ofList_append]
        rfl
      rw [split, String.utf8ByteSize_append, String.utf8ByteSize_singleton,
        ← ih, byteLength_cons]

theorem byteLength_toList (text : String) : byteLength text.toList = text.utf8ByteSize := by
  rw [byteLength_eq_utf8ByteSize, String.ofList_toList]

theorem afterBytes_append (before after : List Char) :
    afterBytes (byteLength before) (before ++ after) = after := by
  induction before with
  | nil => simp [afterBytes]
  | cons character rest ih =>
      have positive := character.utf8Size_pos
      obtain ⟨bytes, size⟩ := Nat.exists_eq_add_one.mpr
        (Nat.add_pos_left positive (byteLength rest))
      rw [List.cons_append, byteLength_cons, size, afterBytes]
      rwa [← size, Nat.add_sub_cancel_left]

/-- The kinds of lexemes. -/
inductive Rule
  /-- A letter or underscore, then letters, digits and underscores. -/
  | word
  /-- Digits, with a fraction if a point and a digit follow. -/
  | number
  /-- One newline. -/
  | newline
  /-- Spaces, tabs and carriage returns. -/
  | blanks
  /-- A string in double quotes, on one line. -/
  | string
  /-- Two slashes and the rest of the line. -/
  | comment
  /-- One of the operators and punctuation marks. -/
  | symbol (row : Symbol)
  deriving DecidableEq, Repr

namespace Rule

/-- The operators and punctuation marks, each one before those it extends. -/
def symbols : List Symbol :=
  [⟨"\x7b", "\x7b", .openCurly⟩, ⟨"\x7d", "\x7d", .closeCurly⟩, ⟨"(", "(", .openParen⟩,
    ⟨")", ")", .closeParen⟩, ⟨"==", "==", .equals⟩, ⟨"!=", "!=", .notEquals⟩, ⟨"!", "!", .not⟩,
    ⟨"=", "=", .assignment⟩, ⟨"<=", "<=", .lessEquals⟩, ⟨"<", "<", .less⟩,
    ⟨">=", ">=", .greaterEquals⟩, ⟨">", ">", .greater⟩, ⟨"||", "||", .or⟩, ⟨"&&", "&&", .and⟩,
    ⟨"&", "&", .ampersand⟩, ⟨";", ";", .semicolon⟩, ⟨",", ",", .comma⟩, ⟨"+", "+", .plus⟩,
    ⟨"-", "-", .dash⟩, ⟨"/", "/", .slash⟩, ⟨"*", "*", .star⟩]

/-- Every rule, in the order in which they are tried. -/
def all : List Rule :=
  [.word, .number, .newline, .blanks, .string, .comment] ++
    symbols.map .symbol

/-- The character may start a word. -/
def startsWord (character : Char) : Bool :=
  character.isAlpha || character == '_'

/-- The character may stand inside a word. -/
def continuesWord (character : Char) : Bool :=
  character.isAlphanum || character == '_'

/-- The character separates lexemes without ending the line. -/
def isSeparator (character : Char) : Bool :=
  character == ' ' || character == '\t' || character == '\r'

/-- The rest of a string, up to and with the closing quote. A backslash takes the
next character with it. Neither may be a newline. -/
def stringTail : List Char -> Option (List Char)
  | [] => none
  | '"' :: _ => some ['"']
  | '\\' :: escaped :: rest =>
      if escaped = '\n' then
        none
      else
        (stringTail rest).map fun tail => '\\' :: escaped :: tail
  | character :: rest =>
      if character = '\n' || character = '\\' then
        none
      else
        (stringTail rest).map fun tail => character :: tail

/-- The number at the start of a text that starts with a digit. -/
def numeral (text : List Char) : List Char :=
  let whole := text.takeWhile Char.isDigit
  match text.dropWhile Char.isDigit with
  | '.' :: rest =>
      match rest.takeWhile Char.isDigit with
      | [] => whole
      | fraction => whole ++ '.' :: fraction
  | _ => whole

/-- The characters that a rule takes from the start of a text, if it applies. -/
def lexeme? : Rule -> List Char -> Option (List Char)
  | .word, text =>
      match text with
      | first :: rest =>
          if startsWord first then
            some (first :: rest.takeWhile continuesWord)
          else
            none
      | [] => none
  | .number, text =>
      match text with
      | first :: _ => if first.isDigit then some (numeral text) else none
      | [] => none
  | .newline, text =>
      match text with
      | '\n' :: _ => some ['\n']
      | _ => none
  | .blanks, text =>
      match text.takeWhile isSeparator with
      | [] => none
      | separators => some separators
  | .string, text =>
      match text with
      | '"' :: rest => (stringTail rest).map fun tail => '"' :: tail
      | _ => none
  | .comment, text =>
      match text with
      | '/' :: '/' :: rest => some ('/' :: '/' :: rest.takeWhile (· ≠ '\n'))
      | _ => none
  | .symbol row, text =>
      if row.pattern.toList.isPrefixOf text then some row.pattern.toList else none

/-- The first rule that applies at the start of a text, with what it takes. -/
def first? (text : List Char) : Option (Rule × List Char) :=
  all.findSome? fun rule => (rule.lexeme? text).map fun lexeme => (rule, lexeme)

/-- The string that the body of a string lexeme denotes. A backslash with a
character that means nothing stands for itself, and so does that character. -/
def unescape : List Char -> List Char
  | [] => []
  | '\\' :: 'n' :: rest => '\n' :: unescape rest
  | '\\' :: 't' :: rest => '\t' :: unescape rest
  | '\\' :: 'r' :: rest => '\r' :: unescape rest
  | '\\' :: '\\' :: rest => '\\' :: unescape rest
  | '\\' :: '"' :: rest => '"' :: unescape rest
  | '\\' :: '0' :: rest => '\x00' :: unescape rest
  | '\\' :: other :: rest => '\\' :: other :: unescape rest
  | character :: rest => character :: unescape rest

/-- The kind and the value of the token that a lexeme makes, if it makes one. -/
def content? : Rule -> List Char -> Option (Kind × String)
  | .word, lexeme =>
      let word := String.ofList lexeme
      some (Kind.ofWord word, word)
  | .number, lexeme =>
      let kind := if lexeme.contains '.' then .float else .int
      some (kind, String.ofList lexeme)
  | .string, lexeme =>
      some (.string, String.ofList (unescape lexeme.tail.dropLast))
  | .symbol row, _ => some (row.kind, row.literal)
  | .newline, _ | .blanks, _ | .comment, _ => none

/-- The number of bytes by which a rule goes on when it has taken a lexeme. Neither a
newline nor a symbol looks at the lexeme. -/
def stride : Rule -> List Char -> Nat
  | .newline, _ => 1
  | .symbol row, _ => row.literal.utf8ByteSize
  | .word, lexeme | .number, lexeme | .blanks, lexeme | .string, lexeme
  | .comment, lexeme => byteLength lexeme

/-! ## What the rules take -/

theorem stringTail_isPrefix
    {text tail : List Char}
    (found : stringTail text = some tail) :
    tail <+: text := by
  fun_induction stringTail text generalizing tail with
  | case1 => cases found
  | case2 rest =>
      cases found
      exact ⟨rest, rfl⟩
  | case3 => cases found
  | case4 escaped rest notNewline ih =>
      obtain ⟨inner, innerFound, rfl⟩ := Option.map_eq_some_iff.mp found
      rw [List.prefix_cons_inj, List.prefix_cons_inj]
      exact ih innerFound
  | case5 => cases found
  | case6 character rest _ _ _ ih =>
      obtain ⟨inner, innerFound, rfl⟩ := Option.map_eq_some_iff.mp found
      rw [List.prefix_cons_inj]
      exact ih innerFound

theorem numeral_isPrefix (text : List Char) : numeral text <+: text := by
  have isWhole : text.takeWhile Char.isDigit <+: text := List.takeWhile_prefix _
  fun_cases numeral text with
  | case1 => exact isWhole
  | case2 whole rest found _ =>
      have split : whole ++ '.' :: rest = text := by
        rw [← found]
        exact List.takeWhile_append_dropWhile
      have isPart : whole ++ '.' :: rest.takeWhile Char.isDigit <+: whole ++ '.' :: rest := by
        rw [List.prefix_append_right_inj, List.prefix_cons_inj]
        exact List.takeWhile_prefix _
      rwa [split] at isPart
  | case3 => exact isWhole

theorem numeral_ne_nil
    {first : Char}
    {rest : List Char}
    (isDigit : first.isDigit = true) :
    numeral (first :: rest) ≠ [] := by
  have nonempty : (first :: rest).takeWhile Char.isDigit ≠ [] := by simp [isDigit]
  fun_cases numeral (first :: rest) with
  | case1 => exact nonempty
  | case2 => simp
  | case3 => exact nonempty

section

variable {text lexeme : List Char}

theorem exists_of_lexeme?_word (found : lexeme? .word text = some lexeme) :
    ∃ first rest, text = first :: rest ∧ startsWord first = true ∧
      lexeme = first :: rest.takeWhile continuesWord := by
  unfold lexeme? at found
  dsimp only at found
  split at found
  next first rest =>
    split at found
    next starts => exact ⟨first, rest, rfl, starts, (Option.some.inj found).symm⟩
    next => cases found
  next => cases found

theorem exists_of_lexeme?_number (found : lexeme? .number text = some lexeme) :
    ∃ first rest, text = first :: rest ∧ first.isDigit = true ∧ lexeme = numeral text := by
  unfold lexeme? at found
  dsimp only at found
  split at found
  next first rest =>
    split at found
    next isDigit => exact ⟨first, rest, rfl, isDigit, (Option.some.inj found).symm⟩
    next => cases found
  next => cases found

theorem exists_of_lexeme?_newline (found : lexeme? .newline text = some lexeme) :
    ∃ rest, text = '\n' :: rest ∧ lexeme = ['\n'] := by
  unfold lexeme? at found
  dsimp only at found
  split at found
  next rest => exact ⟨rest, rfl, (Option.some.inj found).symm⟩
  next => cases found

theorem exists_of_lexeme?_blanks (found : lexeme? .blanks text = some lexeme) :
    ∃ first rest, text = first :: rest ∧ isSeparator first = true ∧
      lexeme = text.takeWhile isSeparator := by
  unfold lexeme? at found
  dsimp only at found
  split at found
  next => cases found
  next nonempty =>
    cases found
    cases text with
    | nil => exact (nonempty rfl).elim
    | cons first rest =>
        by_cases separates : isSeparator first = true
        · exact ⟨first, rest, rfl, separates, rfl⟩
        · exact (nonempty (List.takeWhile_cons_of_neg separates)).elim

theorem exists_of_lexeme?_string (found : lexeme? .string text = some lexeme) :
    ∃ rest tail, text = '"' :: rest ∧ stringTail rest = some tail ∧ lexeme = '"' :: tail := by
  unfold lexeme? at found
  dsimp only at found
  split at found
  next rest =>
    obtain ⟨tail, tailFound, rfl⟩ := Option.map_eq_some_iff.mp found
    exact ⟨rest, tail, rfl, tailFound, rfl⟩
  next => cases found

theorem exists_of_lexeme?_comment (found : lexeme? .comment text = some lexeme) :
    ∃ rest, text = '/' :: '/' :: rest ∧ lexeme = '/' :: '/' :: rest.takeWhile (· ≠ '\n') := by
  unfold lexeme? at found
  dsimp only at found
  split at found
  next rest => exact ⟨rest, rfl, (Option.some.inj found).symm⟩
  next => cases found

theorem exists_of_lexeme?_symbol
    {row : Symbol}
    (found : lexeme? (.symbol row) text = some lexeme) :
    ∃ rest, text = row.pattern.toList ++ rest ∧ lexeme = row.pattern.toList := by
  unfold lexeme? at found
  dsimp only at found
  split at found
  next starts =>
    obtain ⟨rest, rfl⟩ := List.isPrefixOf_iff_prefix.mp starts
    exact ⟨rest, rfl, (Option.some.inj found).symm⟩
  next => cases found

end

theorem mem_symbols {row : Symbol} (listed : .symbol row ∈ all) : row ∈ symbols := by
  simpa [all] using listed

/-- A rule of the list takes what it takes from the start of the text, and takes
something. -/
theorem lexeme?_eq_some
    {rule : Rule}
    (listed : rule ∈ all)
    {text lexeme : List Char}
    (found : rule.lexeme? text = some lexeme) :
    lexeme <+: text ∧ lexeme ≠ [] := by
  cases rule with
  | word =>
      obtain ⟨first, rest, rfl, -, rfl⟩ := exists_of_lexeme?_word found
      exact ⟨by simpa using List.takeWhile_prefix _, by simp⟩
  | number =>
      obtain ⟨first, rest, rfl, isDigit, rfl⟩ := exists_of_lexeme?_number found
      exact ⟨numeral_isPrefix _, numeral_ne_nil isDigit⟩
  | newline =>
      obtain ⟨rest, rfl, rfl⟩ := exists_of_lexeme?_newline found
      exact ⟨⟨rest, rfl⟩, by simp⟩
  | blanks =>
      obtain ⟨first, rest, rfl, separates, rfl⟩ := exists_of_lexeme?_blanks found
      exact ⟨List.takeWhile_prefix _, by simp [separates]⟩
  | string =>
      obtain ⟨rest, tail, rfl, tailFound, rfl⟩ := exists_of_lexeme?_string found
      refine ⟨?_, by simp⟩
      rw [List.prefix_cons_inj]
      exact stringTail_isPrefix tailFound
  | comment =>
      obtain ⟨rest, rfl, rfl⟩ := exists_of_lexeme?_comment found
      refine ⟨?_, by simp⟩
      rw [List.prefix_cons_inj, List.prefix_cons_inj]
      exact List.takeWhile_prefix _
  | symbol row =>
      have nonempty : ∀ row ∈ symbols, row.pattern.toList ≠ [] := by
        decide
      obtain ⟨rest, rfl, rfl⟩ := exists_of_lexeme?_symbol found
      exact ⟨List.prefix_append _ _, nonempty row (mem_symbols listed)⟩

theorem lexeme?_of_first?
    {rule : Rule}
    {text lexeme : List Char}
    (found : first? text = some (rule, lexeme)) :
    rule.lexeme? text = some lexeme := by
  obtain ⟨tried, -, applied⟩ := List.exists_of_findSome?_eq_some found
  obtain ⟨taken, takenFound, same⟩ := Option.map_eq_some_iff.mp applied
  cases same
  exact takenFound

/-- What the first rule takes that applies. -/
theorem first?_eq_some
    {rule : Rule}
    {text lexeme : List Char}
    (found : first? text = some (rule, lexeme)) :
    rule ∈ all ∧ lexeme <+: text ∧ lexeme ≠ [] := by
  obtain ⟨tried, listed, applied⟩ := List.exists_of_findSome?_eq_some found
  obtain ⟨taken, takenFound, same⟩ := Option.map_eq_some_iff.mp applied
  cases same
  exact ⟨listed, lexeme?_eq_some listed takenFound⟩

/-- A rule of the list goes on by the bytes that it takes. -/
theorem stride_eq
    {rule : Rule}
    (listed : rule ∈ all)
    {text lexeme : List Char}
    (found : rule.lexeme? text = some lexeme) :
    rule.stride lexeme = byteLength lexeme := by
  cases rule with
  | word | number | blanks | string | comment => rfl
  | newline =>
      obtain ⟨rest, -, rfl⟩ := exists_of_lexeme?_newline found
      rfl
  | symbol row =>
      have sameText : ∀ row ∈ symbols, row.literal = row.pattern := by
        decide
      obtain ⟨rest, -, rfl⟩ := exists_of_lexeme?_symbol found
      rw [stride, byteLength_toList, sameText row (mem_symbols listed)]

/-- Behind the stride of the first rule that applies stands what it has not taken. -/
theorem afterBytes_stride
    {rule : Rule}
    {lexeme rest : List Char}
    (found : first? (lexeme ++ rest) = some (rule, lexeme)) :
    afterBytes (rule.stride lexeme) (lexeme ++ rest) = rest := by
  rw [stride_eq (first?_eq_some found).1 (lexeme?_of_first? found), afterBytes_append]

/-- Every step leaves a shorter text. -/
theorem length_afterBytes_stride
    {rule : Rule}
    {text lexeme : List Char}
    (found : first? text = some (rule, lexeme)) :
    (afterBytes (rule.stride lexeme) text).length < text.length := by
  obtain ⟨-, ⟨rest, rfl⟩, nonempty⟩ := first?_eq_some found
  have positive := List.length_pos_iff.mpr nonempty
  rw [afterBytes_stride found, List.length_append]
  omega

end Rule

end Token
end Frontend
