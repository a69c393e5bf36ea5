import Frontend.Proofs.Token.Munch

/-!
# What follows a lexeme

Where a lexeme ends depends on the character behind it and on nothing further on, but for
a point behind a number, and no lexeme starts with a point. So a lexeme stays the same if
what follows it changes behind its first character, or if a separator follows it now.
Blanks and comments are the exceptions: they take in what separates them from the rest.
-/

namespace Frontend
namespace Token

theorem takeWhile_append_cons
    {isInside : Char -> Bool}
    {taken rest : List Char}
    {next : Char}
    (same : (taken ++ next :: rest).takeWhile isInside = taken) :
    isInside next = false := by
  have inside : ∀ character ∈ taken, isInside character = true := by
    intro character member
    rw [← same] at member
    exact List.mem_takeWhile_imp member
  rw [List.takeWhile_append_of_pos inside] at same
  by_contra goesOn
  rw [List.takeWhile_cons_of_pos (by simpa using goesOn)] at same
  simp at same

namespace Rule

/-- A lexeme before this character may not be complete. -/
def goesOn : Rule -> Char -> Bool
  | .word, next => continuesWord next
  | .number, next => next.isDigit || next == '.'
  | .blanks, next => isSeparator next
  | .comment, next => next != '\n'
  | .symbol row, next => all.any fun rule => rule.opening == row.pattern.toList ++ [next]
  | .newline, _ | .string, _ => false

/-- A number is digits, or digits on both sides of a point, and all the digits there are. -/
theorem exists_of_numeral (text : List Char) :
    ∃ rest, text = numeral text ++ rest ∧
      (∀ next ∈ rest.head?, next.isDigit = false) ∧
      ((∀ digit ∈ numeral text, digit.isDigit = true) ∨
        ∃ whole fraction, numeral text = whole ++ '.' :: fraction ∧ fraction ≠ [] ∧
          (∀ digit ∈ whole, digit.isDigit = true) ∧
          ∀ digit ∈ fraction, digit.isDigit = true) := by
  have split : text = text.takeWhile Char.isDigit ++ text.dropWhile Char.isDigit :=
    List.takeWhile_append_dropWhile.symm
  have digits : ∀ digit ∈ text.takeWhile Char.isDigit, digit.isDigit = true :=
    fun digit => List.mem_takeWhile_imp
  have stops := dropWhile_stops Char.isDigit text
  rw [numeral]
  split
  next rest behind =>
    split
    next => exact ⟨_, split, stops, .inl digits⟩
    next nonempty =>
      refine ⟨rest.dropWhile Char.isDigit, ?_, dropWhile_stops _ rest, .inr
        ⟨_, _, rfl, nonempty, digits, fun digit => List.mem_takeWhile_imp⟩⟩
      rw [List.append_assoc, List.cons_append, List.takeWhile_append_dropWhile, ← behind]
      exact split
  next => exact ⟨_, split, stops, .inl digits⟩

theorem stringTail_append
    {tail rest : List Char}
    (found : stringTail (tail ++ rest) = some tail)
    (other : List Char) :
    stringTail (tail ++ other) = some tail := by
  generalize same : tail ++ rest = text at found
  fun_induction stringTail text generalizing tail with
  | case1 => cases found
  | case2 => 
      cases found
      simp [stringTail]
  | case3 => cases found
  | case4 escaped more notNewline ih =>
      obtain ⟨inner, innerFound, rfl⟩ := Option.map_eq_some_iff.mp found
      simp only [List.cons_append, List.cons.injEq, true_and] at same
      simp [stringTail, notNewline, ih same innerFound]
  | case5 => cases found
  | case6 character more notQuote notEscape isInside ih =>
      obtain ⟨inner, innerFound, rfl⟩ := Option.map_eq_some_iff.mp found
      simp only [List.cons_append, List.cons.injEq, true_and] at same
      rw [List.cons_append, stringTail, if_neg isInside, ih same innerFound]
      · rfl
      · exact notQuote
      · rintro _ _ rfl
        simp at isInside

/-- A rule applies where its opening stands. -/
theorem exists_lexeme?_of_opening
    {rule : Rule}
    {text : List Char}
    (nonempty : rule.opening ≠ [])
    (opens : rule.opening <+: text) :
    ∃ part, rule.lexeme? text = some part := by
  obtain ⟨rest, rfl⟩ := opens
  cases rule with
  | comment => exact ⟨_, rfl⟩
  | symbol row => exact ⟨row.pattern.toList, by simp [lexeme?, opening]⟩
  | word | number | newline | blanks | string => exact (nonempty rfl).elim

/-- Nothing behind a lexeme goes on with it. -/
theorem goesOn_eq_false
    {rule : Rule}
    {lexeme rest : List Char}
    {next : Char}
    (found : first? (lexeme ++ next :: rest) = some (rule, lexeme))
    (pointless : next ≠ '.') :
    rule.goesOn next = false := by
  have ruleFound := lexeme?_of_first? found
  cases rule with
  | word =>
      obtain ⟨-, after, split, stops⟩ := lexeme?_word ruleFound
      rw [List.append_cancel_left_eq] at split
      subst split
      exact stops next rfl
  | number =>
      obtain ⟨_, _, -, -, isNumeral⟩ := exists_of_lexeme?_number ruleFound
      obtain ⟨after, split, stops, -⟩ := exists_of_numeral (lexeme ++ next :: rest)
      rw [← isNumeral, List.append_cancel_left_eq] at split
      subst split
      simp [goesOn, stops next rfl, pointless]
  | newline => rfl
  | blanks =>
      obtain ⟨_, _, -, -, taken⟩ := exists_of_lexeme?_blanks ruleFound
      exact takeWhile_append_cons taken.symm
  | string => rfl
  | comment =>
      obtain ⟨behind, split, rfl⟩ := exists_of_lexeme?_comment ruleFound
      simp only [List.cons_append, List.cons.injEq, true_and] at split
      have stops := takeWhile_append_cons (congrArg (List.takeWhile (· ≠ '\n')) split)
      simpa [goesOn] using stops
  | symbol row =>
      obtain ⟨_, -, rfl⟩ := exists_of_lexeme?_symbol ruleFound
      -- A rule that starts with one character more would apply, and take more.
      by_contra mayGoOn
      obtain ⟨longer, listed, isLonger⟩ :
          ∃ longer ∈ all, longer.opening = row.pattern.toList ++ [next] := by
        simpa [goesOn] using mayGoOn
      have opens : longer.opening <+: row.pattern.toList ++ next :: rest := by
        rw [isLonger, List.prefix_append_right_inj]
        exact List.prefix_append [next] rest
      obtain ⟨part, applies⟩ := exists_lexeme?_of_opening (by simp [isLonger]) opens
      have more := (opening_isPrefix applies).length_le
      have less := length_lt_of_first? found listed applies (by
        rintro rfl
        simp [opening] at isLonger)
      rw [isLonger, List.length_append, List.length_singleton] at more
      omega

/-- A symbol stays the same before anything that does not make it a longer one. -/
theorem first?_append_symbol
    {row : Symbol}
    (listed : .symbol row ∈ all)
    {other : List Char}
    (stops : ∀ next ∈ other.head?, goesOn (.symbol row) next = false) :
    first? (row.pattern.toList ++ other) = some (.symbol row, row.pattern.toList) := by
  have applies : lexeme? (.symbol row) (row.pattern.toList ++ other) =
      some row.pattern.toList := by
    simp [lexeme?]
  cases found : first? (row.pattern.toList ++ other) with
  | none =>
      have never := List.findSome?_eq_none_iff.mp found _ listed
      simp [applies] at never
  | some taken =>
      obtain ⟨rule, lexeme⟩ := taken
      by_cases same : .symbol row = rule
      · subst same
        rw [lexeme?_of_first? found] at applies
        cases applies
        rfl
      · -- The first rule starts with the symbol and one character more, which follows it.
        obtain ⟨⟨more, isLonger⟩, shorter⟩ := isPrefix_opening listed found same
        obtain ⟨ruleListed, isPart, -⟩ := first?_eq_some found
        have spelled := List.length_pos_iff.mpr (lexeme?_eq_some listed applies).2
        have short : ∀ rule ∈ all, rule.opening.length ≤ 2 := by
          decide
        have atMostTwo := short rule ruleListed
        rw [← isLonger, List.length_append] at shorter atMostTwo
        obtain ⟨next, rfl⟩ : ∃ next, more = [next] :=
          List.length_eq_one_iff.mp (by omega)
        have follows := (opening_isPrefix (lexeme?_of_first? found)).trans isPart
        rw [← isLonger, List.prefix_append_right_inj] at follows
        obtain ⟨after, rfl⟩ := follows
        have mayGoOn : goesOn (.symbol row) next = true :=
          List.any_eq_true.mpr ⟨rule, ruleListed, by rw [beq_iff_eq, isLonger]⟩
        rw [stops next rfl] at mayGoOn
        cases mayGoOn

/-- A lexeme stays the same before anything that does not go on with it. -/
theorem first?_append
    {rule : Rule}
    {lexeme rest other : List Char}
    (found : first? (lexeme ++ rest) = some (rule, lexeme))
    (stops : ∀ next ∈ other.head?, rule.goesOn next = false) :
    first? (lexeme ++ other) = some (rule, lexeme) := by
  have ruleFound := lexeme?_of_first? found
  -- A symbol may be the start of a longer one. The other rules exclude each other.
  by_cases isSymbol : ∃ row, rule = .symbol row
  · obtain ⟨row, rfl⟩ := isSymbol
    obtain ⟨_, -, rfl⟩ := exists_of_lexeme?_symbol ruleFound
    exact first?_append_symbol (first?_eq_some found).1 stops
  · refine first?_of_lexeme? (by simpa using isSymbol) ?_
    cases rule with
    | word => exact lexeme?_word_append (lexeme?_word ruleFound).1 stops
    | number =>
        obtain ⟨first, _, isText, isDigit, isNumeral⟩ := exists_of_lexeme?_number ruleFound
        have outside : ∀ next ∈ other.head?, next.isDigit = false ∧ next ≠ '.' := by
          simpa [goesOn] using stops
        have same : numeral (lexeme ++ other) = lexeme := by
          obtain ⟨_, -, -, shape⟩ := exists_of_numeral (lexeme ++ rest)
          rw [← isNumeral] at shape
          rcases shape with
            areDigits | ⟨whole, fraction, rfl, nonempty, areDigits, fractionAreDigits⟩
          · exact numeral_append areDigits (fun next isHead => (outside next isHead).1)
              fun isHead => (outside '.' isHead).2 rfl
          · exact numeral_append_point areDigits fractionAreDigits nonempty
              fun next isHead => (outside next isHead).1
        obtain ⟨digit, more, rfl⟩ := List.exists_cons_of_ne_nil (first?_eq_some found).2.2
        obtain ⟨rfl, -⟩ := List.cons.inj isText
        rw [List.cons_append] at same ⊢
        simp only [lexeme?, if_pos isDigit, same]
    | newline =>
        obtain ⟨_, -, rfl⟩ := exists_of_lexeme?_newline ruleFound
        rfl
    | blanks =>
        obtain ⟨-, -, -, -, taken⟩ := exists_of_lexeme?_blanks ruleFound
        have inside : ∀ character ∈ lexeme, isSeparator character = true := by
          rw [taken]
          exact fun character => List.mem_takeWhile_imp
        obtain ⟨_, _, rfl⟩ := List.exists_cons_of_ne_nil (first?_eq_some found).2.2
        simp only [lexeme?, (takeWhile_append_of_stops inside stops).1]
    | string =>
        obtain ⟨_, tail, isText, tailFound, rfl⟩ := exists_of_lexeme?_string ruleFound
        cases isText
        simp [lexeme?, stringTail_append tailFound other]
    | comment =>
        obtain ⟨behind, isText, rfl⟩ := exists_of_lexeme?_comment ruleFound
        have inside : ∀ character ∈ behind.takeWhile (· ≠ '\n'), decide (character ≠ '\n') = true :=
          fun character => List.mem_takeWhile_imp
        have taken := (takeWhile_append_of_stops inside (by simpa [goesOn] using stops)).1
        simp only [lexeme?, List.cons_append, taken]
    | symbol row => exact (isSymbol ⟨row, rfl⟩).elim

/-- Separators go on with nothing but blanks and comments. -/
theorem goesOn_of_isSeparator
    {rule : Rule}
    (notBlanks : rule ≠ .blanks)
    (notComment : rule ≠ .comment)
    {next : Char}
    (separates : isSeparator next = true) :
    rule.goesOn next = false := by
  have apart : continuesWord next = false ∧ next.isDigit = false ∧ next ≠ '.' := by
    simp only [isSeparator, Bool.or_eq_true, beq_iff_eq] at separates
    rcases separates with (rfl | rfl) | rfl <;> decide
  cases rule with
  | word => exact apart.1
  | number => simp [goesOn, apart]
  | newline => rfl
  | blanks => exact (notBlanks rfl).elim
  | string => rfl
  | comment => exact (notComment rfl).elim
  | symbol row =>
      have unseparated : ∀ rule ∈ all, rule.opening.any isSeparator = false := by
        decide
      by_contra mayGoOn
      obtain ⟨longer, listed, isLonger⟩ :
          ∃ longer ∈ all, longer.opening = row.pattern.toList ++ [next] := by
        simpa [goesOn] using mayGoOn
      have inside := unseparated longer listed
      simp [isLonger, separates] at inside

end Rule
end Token
end Frontend
