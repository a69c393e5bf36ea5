import Frontend.Proofs.Token.Joining

/-!
# Patterns

A lexical rule can be written as a pattern: single characters of a class, one pattern
after another, one or else another, and one any number of times. Of all the ways in which
a pattern matches at the start of a text, those come first that take the first of two
patterns and those that go one more round. The rules take just what the first match of
their patterns takes.
-/

namespace Frontend
namespace Token

/-- A pattern of characters. -/
inductive Pattern
  /-- Nothing at all. -/
  | nothing
  /-- One character of a class. -/
  | one (accepts : Char -> Bool)
  /-- The first, and behind it the second. -/
  | both (first second : Pattern)
  /-- The first, or else the second. -/
  | either (first second : Pattern)
  /-- Any number of rounds, rather more than fewer. -/
  | many (round : Pattern)

namespace Pattern

/-- What any number of rounds can leave of a text, more rounds first. A round that takes
nothing is not counted. -/
def roundsFrom (leaves : List Char -> List (List Char)) (text : List Char) : List (List Char) :=
  ((leaves text).flatMap fun rest =>
      if rest.length < text.length then roundsFrom leaves rest else []) ++ [text]
  termination_by text.length

/-- What the matches at the start of a text leave of it, the preferred ones first. -/
def leaves : Pattern -> List Char -> List (List Char)
  | .nothing, text => [text]
  | .one _, [] => []
  | .one accepts, character :: rest => if accepts character then [rest] else []
  | .both first second, text => (first.leaves text).flatMap second.leaves
  | .either first second, text => first.leaves text ++ second.leaves text
  | .many round, text => roundsFrom round.leaves text

/-- What the pattern matches at the start of a text, if it matches there. -/
def match? (pattern : Pattern) (text : List Char) : Option (List Char) :=
  (pattern.leaves text).head?.map fun rest => text.take (text.length - rest.length)

/-- The character itself. -/
def exactly (character : Char) : Pattern :=
  .one (· == character)

/-- These characters one after another. -/
def literal : List Char -> Pattern
  | [] => .nothing
  | character :: rest => .both (exactly character) (literal rest)

/-- At least one round. -/
def atLeastOne (round : Pattern) : Pattern :=
  .both round (.many round)

/-- At most one round. -/
def atMostOne (round : Pattern) : Pattern :=
  .either round .nothing

/-- One character inside a string, or a backslash with the character that it escapes. -/
def inString : Pattern :=
  .either (.one fun character => !(character == '"' || character == '\\' || character == '\n'))
    (.both (exactly '\\') (.one (· ≠ '\n')))

end Pattern

/-- The pattern of a rule. -/
def Rule.pattern : Rule -> Pattern
  | .word => .both (.one startsWord) (.many (.one continuesWord))
  | .number =>
      .both (.atLeastOne (.one Char.isDigit))
        (.atMostOne (.both (.exactly '.') (.atLeastOne (.one Char.isDigit))))
  | .newline => .exactly '\n'
  | .blanks => .atLeastOne (.one isSeparator)
  | .string => .both (.exactly '"') (.both (.many .inString) (.exactly '"'))
  | .comment => .both (.literal ['/', '/']) (.many (.one (· ≠ '\n')))
  | .symbol row => .literal row.pattern.toList

namespace Pattern

theorem leaves_nothing (text : List Char) : nothing.leaves text = [text] :=
  rfl

theorem leaves_one (accepts : Char -> Bool) (character : Char) (rest : List Char) :
    (one accepts).leaves (character :: rest) = if accepts character then [rest] else [] :=
  rfl

theorem leaves_both (first second : Pattern) (text : List Char) :
    (both first second).leaves text = (first.leaves text).flatMap second.leaves :=
  rfl

theorem leaves_either (first second : Pattern) (text : List Char) :
    (either first second).leaves text = first.leaves text ++ second.leaves text :=
  rfl

theorem leaves_many (round : Pattern) (text : List Char) :
    (many round).leaves text = roundsFrom round.leaves text :=
  rfl

theorem leaves_exactly (character : Char) (text : List Char) :
    (exactly character).leaves text = if text.head? = character then [text.tail] else [] := by
  cases text with
  | nil => rfl
  | cons first rest => simp [exactly, leaves_one]

/-- The first match of two patterns is the first match of the second behind the first
match of the first, if there is one. -/
theorem head?_leaves_both
    {first second : Pattern}
    {text middle rest : List Char}
    (firstMatch : (first.leaves text).head? = some middle)
    (secondMatch : (second.leaves middle).head? = some rest) :
    ((both first second).leaves text).head? = some rest := by
  obtain ⟨others, firstLeaves⟩ := List.head?_eq_some_iff.mp firstMatch
  obtain ⟨more, secondLeaves⟩ := List.head?_eq_some_iff.mp secondMatch
  rw [leaves_both, firstLeaves, List.flatMap_cons, secondLeaves]
  rfl

/-- No further round goes. -/
theorem leaves_many_of_eq_nil
    {round : Pattern}
    {text : List Char}
    (never : round.leaves text = []) :
    (many round).leaves text = [text] := by
  rw [leaves_many, roundsFrom, never, List.flatMap_nil, List.nil_append]

/-- One more round goes, in one way only. -/
theorem leaves_many_of_eq_singleton
    {round : Pattern}
    {text rest : List Char}
    (once : round.leaves text = [rest])
    (shorter : rest.length < text.length) :
    (many round).leaves text = (many round).leaves rest ++ [text] := by
  rw [leaves_many, roundsFrom, once, List.flatMap_singleton, if_pos shorter, leaves_many]

/-- Rounds over single characters take as many as they can. -/
theorem head?_leaves_many_one (accepts : Char -> Bool) (text : List Char) :
    ((many (.one accepts)).leaves text).head? = some (text.dropWhile accepts) := by
  induction text with
  | nil => rw [leaves_many_of_eq_nil rfl, List.head?_cons, List.dropWhile_nil]
  | cons first rest ih =>
      by_cases accepted : accepts first = true
      · have once : (one accepts).leaves (first :: rest) = [rest] := by
          simp [leaves_one, accepted]
        rw [leaves_many_of_eq_singleton once (Nat.lt_succ_self _), List.head?_append,
          ih, List.dropWhile_cons_of_pos accepted]
        rfl
      · have never : (one accepts).leaves (first :: rest) = [] := by
          simp [leaves_one, accepted]
        rw [leaves_many_of_eq_nil never, List.head?_cons,
          List.dropWhile_cons_of_neg accepted]

theorem head?_leaves_atLeastOne
    {accepts : Char -> Bool}
    {first : Char}
    (accepted : accepts first = true)
    (rest : List Char) :
    ((atLeastOne (.one accepts)).leaves (first :: rest)).head? =
      some (rest.dropWhile accepts) :=
  head?_leaves_both (by simp [leaves_one, accepted]) (head?_leaves_many_one accepts rest)

theorem leaves_atLeastOne_eq_nil
    {accepts : Char -> Bool}
    {text : List Char}
    (rejected : ∀ first ∈ text.head?, accepts first = false) :
    (atLeastOne (.one accepts)).leaves text = [] := by
  cases text with
  | nil => rfl
  | cons first rest =>
      have : accepts first = false := rejected first rfl
      simp [atLeastOne, leaves_both, leaves_one, this]

theorem leaves_literal (spelling text : List Char) :
    (literal spelling).leaves text =
      if spelling.isPrefixOf text then [text.drop spelling.length] else [] := by
  induction spelling generalizing text with
  | nil => simp [literal, leaves_nothing]
  | cons character spelling ih =>
      rw [literal, leaves_both, leaves_exactly]
      cases text with
      | nil => simp
      | cons first rest =>
          by_cases same : first = character
          · simp [same, ih]
          · simp [same, Ne.symm same]

/-- The rest of a string has one match at most: its end is where the first quote stands
that is not escaped, and no round can be given back to end it sooner. -/
theorem leaves_inString (text : List Char) :
    ((many inString).both (exactly '"')).leaves text =
      ((Rule.stringTail text).map fun tail => text.drop tail.length).toList := by
  have closed {text : List Char} (never : inString.leaves text = []) :
      ((many inString).both (exactly '"')).leaves text = (exactly '"').leaves text := by
    rw [leaves_both, leaves_many_of_eq_nil never, List.flatMap_singleton]
  have goesOn {text rest : List Char} (once : inString.leaves text = [rest])
      (shorter : rest.length < text.length) (unquoted : text.head? ≠ some '"') :
      ((many inString).both (exactly '"')).leaves text =
        ((many inString).both (exactly '"')).leaves rest := by
    rw [leaves_both, leaves_many_of_eq_singleton once shorter, List.flatMap_append,
      List.flatMap_singleton, leaves_exactly, if_neg unquoted, List.append_nil, leaves_both]
  fun_induction Rule.stringTail text with
  | case1 => rw [closed rfl]; rfl
  | case2 rest => rw [closed rfl]; rfl
  | case3 rest => rw [closed rfl]; rfl
  | case4 escaped rest notNewline ih =>
      have once : inString.leaves ('\\' :: escaped :: rest) = [rest] := by
        simp [inString, leaves_either, leaves_both, leaves_one, leaves_exactly, notNewline]
      rw [goesOn once (by simp) (by simp), ih]
      cases Rule.stringTail rest <;> rfl
  | case5 character rest notQuote notEscape outside =>
      simp only [Bool.or_eq_true, decide_eq_true_eq] at outside
      rcases outside with rfl | rfl
      · rw [closed rfl]
        rfl
      · cases rest with
        | nil =>
            rw [closed rfl]
            rfl
        | cons escaped rest => exact (notEscape escaped rest rfl rfl).elim
  | case6 character rest notQuote notEscape inside ih =>
      have unquoted : character ≠ '"' := notQuote
      have once : inString.leaves (character :: rest) = [rest] := by
        simp only [Bool.or_eq_true, decide_eq_true_eq, not_or] at inside
        simp [inString, leaves_either, leaves_both, leaves_one, leaves_exactly, unquoted, inside]
      rw [goesOn once (by simp) (by simpa using unquoted), ih]
      cases Rule.stringTail rest <;> rfl

theorem match?_of_eq_nil
    {pattern : Pattern}
    {text : List Char}
    (never : pattern.leaves text = []) :
    pattern.match? text = none := by
  rw [match?, never]
  rfl

theorem match?_eq_some
    {pattern : Pattern}
    {text lexeme rest : List Char}
    (split : lexeme ++ rest = text)
    (found : (pattern.leaves text).head? = some rest) :
    pattern.match? text = some lexeme := by
  subst split
  rw [match?, found, Option.map_some, List.length_append, Nat.add_sub_cancel, List.take_left]

end Pattern

namespace Rule

open Pattern

/-- The fraction belongs to the number if there is one. -/
theorem match?_number {first : Char} (isDigit : first.isDigit = true) (rest : List Char) :
    (pattern .number).match? (first :: rest) = some (numeral (first :: rest)) := by
  have digits : ((atLeastOne (.one Char.isDigit)).leaves (first :: rest)).head? =
      some ((first :: rest).dropWhile Char.isDigit) := by
    rw [head?_leaves_atLeastOne isDigit, List.dropWhile_cons_of_pos isDigit]
  have split : (first :: rest).takeWhile Char.isDigit ++ (first :: rest).dropWhile Char.isDigit =
      first :: rest := List.takeWhile_append_dropWhile
  -- What follows depends on the digits and on what stands behind them, but not on the text.
  rw [numeral]
  generalize (first :: rest).takeWhile Char.isDigit = whole at split ⊢
  generalize (first :: rest).dropWhile Char.isDigit = behind at digits split ⊢
  generalize first :: rest = text at digits split ⊢
  have plain
      (never : ((exactly '.').both (atLeastOne (.one Char.isDigit))).leaves behind = []) :
      (pattern .number).match? text = some whole :=
    match?_eq_some split (head?_leaves_both digits (by rw [atMostOne, leaves_either, never]; rfl))
  cases behind with
  | nil => exact plain rfl
  | cons next more =>
      by_cases isPoint : next = '.'
      · subst isPoint
        cases more with
        | nil => exact plain rfl
        | cons digit more =>
            by_cases goesOn : digit.isDigit = true
            · simp only [List.takeWhile_cons_of_pos goesOn]
              have point : ((exactly '.').leaves ('.' :: digit :: more)).head? =
                  some (digit :: more) := rfl
              have fraction := head?_leaves_both point (head?_leaves_atLeastOne goesOn more)
              refine match?_eq_some ?_ (head?_leaves_both digits
                (by rw [atMostOne, leaves_either, List.head?_append, fraction, Option.some_or]))
              rw [← split, List.append_assoc, List.cons_append, List.cons_append,
                List.takeWhile_append_dropWhile]
            · simp only [List.takeWhile_cons_of_neg goesOn]
              refine plain ?_
              rw [leaves_both, leaves_exactly, List.head?_cons, if_pos rfl, List.flatMap_singleton]
              exact leaves_atLeastOne_eq_nil (by simpa using goesOn)
      · have never : (exactly '.').leaves (next :: more) = [] := by
          rw [leaves_exactly, if_neg (by simpa using isPoint)]
        split
        next same => exact (isPoint (List.cons.inj same).1).elim
        next => exact plain (by rw [leaves_both, never, List.flatMap_nil])

theorem match?_string (text : List Char) :
    (pattern .string).match? text = lexeme? .string text := by
  cases text with
  | nil => rfl
  | cons first rest =>
      by_cases isQuote : first = '"'
      · subst isQuote
        have same : (pattern .string).leaves ('"' :: rest) =
            ((stringTail rest).map fun tail => rest.drop tail.length).toList := by
          rw [← leaves_inString, pattern, leaves_both, leaves_exactly, List.head?_cons, if_pos rfl,
            List.flatMap_singleton, List.tail_cons]
        cases found : stringTail rest with
        | none =>
            rw [found] at same
            rw [match?_of_eq_nil same]
            simp [lexeme?, found]
        | some tail =>
            obtain ⟨after, rfl⟩ := stringTail_isPrefix found
            rw [found, Option.map_some, List.drop_left] at same
            have matched : (pattern .string).match? ('"' :: (tail ++ after)) = some ('"' :: tail) :=
              match?_eq_some rfl (by rw [same]; rfl)
            rw [matched]
            simp [lexeme?, found]
      · have never : (pattern .string).leaves (first :: rest) = [] := by
          rw [pattern, leaves_both, leaves_exactly, if_neg (by simpa using isQuote),
            List.flatMap_nil]
        rw [match?_of_eq_nil never]
        simp [lexeme?, isQuote]

/-- A rule takes what its pattern matches first. -/
theorem match?_pattern (rule : Rule) (text : List Char) :
    rule.pattern.match? text = rule.lexeme? text := by
  cases rule with
  | word =>
      cases text with
      | nil => rfl
      | cons first rest =>
          by_cases starts : startsWord first = true
          · simp only [lexeme?, if_pos starts]
            apply match?_eq_some
            · rw [List.cons_append, List.takeWhile_append_dropWhile]
            · exact head?_leaves_both (by simp [leaves_one, starts]) (head?_leaves_many_one _ _)
          · simp only [lexeme?, if_neg starts]
            exact match?_of_eq_nil (by simp [pattern, leaves_both, leaves_one, starts])
  | number =>
      cases text with
      | nil => rfl
      | cons first rest =>
          by_cases isDigit : first.isDigit = true
          · simp only [lexeme?, if_pos isDigit, match?_number isDigit]
          · simp only [lexeme?, if_neg isDigit]
            exact match?_of_eq_nil (by simp [pattern, atLeastOne, leaves_both, leaves_one, isDigit])
  | newline =>
      cases text with
      | nil => rfl
      | cons first rest =>
          by_cases isNewline : first = '\n'
          · subst isNewline
            exact match?_eq_some rfl rfl
          · rw [match?_of_eq_nil (by simp [pattern, leaves_exactly, isNewline])]
            simp [lexeme?, isNewline]
  | blanks =>
      cases text with
      | nil => rfl
      | cons first rest =>
          by_cases separates : isSeparator first = true
          · simp only [lexeme?, List.takeWhile_cons_of_pos separates]
            refine match?_eq_some ?_ (head?_leaves_atLeastOne separates rest)
            rw [List.cons_append, List.takeWhile_append_dropWhile]
          · simp only [lexeme?, List.takeWhile_cons_of_neg separates]
            exact match?_of_eq_nil (leaves_atLeastOne_eq_nil (by simpa using separates))
  | string => exact match?_string text
  | comment =>
      by_cases starts : ['/', '/'] <+: text
      · obtain ⟨rest, rfl⟩ := starts
        have slashes : ((literal ['/', '/']).leaves (['/', '/'] ++ rest)).head? = some rest := by
          simp [leaves_literal]
        refine match?_eq_some ?_ (head?_leaves_both slashes (head?_leaves_many_one _ _))
        exact congrArg (['/', '/'] ++ ·) List.takeWhile_append_dropWhile
      · have never : (literal ['/', '/']).leaves text = [] := by
          rw [leaves_literal, if_neg (by simpa using starts)]
        rw [match?_of_eq_nil (by rw [pattern, leaves_both, never, List.flatMap_nil]), lexeme?]
        rintro rest rfl
        exact starts ⟨rest, rfl⟩
  | symbol row =>
      rw [lexeme?]
      split
      next starts =>
        obtain ⟨rest, rfl⟩ := List.isPrefixOf_iff_prefix.mp starts
        exact match?_eq_some rfl (by rw [pattern, leaves_literal, if_pos starts]; simp)
      next unlike => exact match?_of_eq_nil (by rw [pattern, leaves_literal, if_neg unlike])

end Rule

end Token
end Frontend
