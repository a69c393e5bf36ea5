import Frontend.Proofs.Token.Pattern
import Frontend.Proofs.Token.Printing
import Frontend.Proofs.Token.Slices

/-!
# The first match is the longest

Where two rules apply, one of them is a symbol, and the other is an earlier rule that
takes more. So the first rule that applies is the one that takes the most, and scanning
cuts a text as cutting by longest matches does, which has only one way to go and ends.
-/

namespace Frontend
namespace Token

namespace Rule

/-- The characters with which all lexemes of a comment or a symbol start. -/
def opening : Rule -> List Char
  | .comment => ['/', '/']
  | .symbol row => row.pattern.toList
  | .word | .number | .newline | .blanks | .string => []

theorem opening_isPrefix
    {rule : Rule}
    {text lexeme : List Char}
    (found : rule.lexeme? text = some lexeme) :
    rule.opening <+: lexeme := by
  cases rule with
  | comment =>
      obtain ⟨rest, rfl, rfl⟩ := exists_of_lexeme?_comment found
      exact List.prefix_append ['/', '/'] _
  | symbol row =>
      obtain ⟨rest, rfl, rfl⟩ := exists_of_lexeme?_symbol found
      exact List.prefix_rfl
  | word | number | newline | blanks | string => exact List.nil_prefix

/-- The order of the rules: no symbol goes on where an earlier comment or symbol is
complete. -/
theorem pairwise_opening :
    all.Pairwise fun earlier later =>
      earlier.opening ≠ [] -> ¬ earlier.opening <+: later.opening := by
  decide

/-- No symbol starts like a word, a number, a newline, blanks or a string. -/
theorem opening_ne_nil
    {rule : Rule}
    (listed : rule ∈ all)
    {row : Symbol}
    (symbolListed : row ∈ symbols)
    {rest lexeme : List Char}
    (found : rule.lexeme? (row.pattern.toList ++ rest) = some lexeme) :
    rule.opening ≠ [] := by
  have others : ∀ rule ∈ all, rule.opening = [] ->
      rule ∈ [word, number, newline, blanks, string] := by
    decide
  have spelled : ∀ row ∈ symbols, row.pattern.toList ≠ [] := by
    decide
  have outside : ∀ row ∈ symbols, (row.pattern.toList.any fun character =>
      startsWord character || character.isDigit || character == '\n' ||
        isSeparator character || character == '"') = false := by
    decide
  obtain ⟨first, more, isSpelled⟩ := List.exists_cons_of_ne_nil (spelled _ symbolListed)
  have apart := outside _ symbolListed
  simp only [isSpelled, List.any_cons, Bool.or_eq_false_iff, beq_eq_false_iff_ne] at apart
  have never : ∀ rule ∈ [word, number, newline, blanks, string],
      rule.lexeme? (first :: (more ++ rest)) = none := by
    simp [lexeme?, apart.1]
  intro isEmpty
  rw [isSpelled, List.cons_append, never rule (others rule listed isEmpty)] at found
  cases found

theorem first?_comment (rest : List Char) :
    first? ('/' :: '/' :: rest) = some (.comment, '/' :: '/' :: rest.takeWhile (· ≠ '\n')) := by
  have outside : startsWord '/' = false ∧ '/'.isDigit = false ∧ isSeparator '/' = false := by
    decide
  simp [first?, all, lexeme?, outside]

/-- Where any rule but a symbol applies, no earlier rule does. -/
theorem first?_of_lexeme?
    {rule : Rule}
    (notSymbol : ∀ row, rule ≠ .symbol row)
    {text lexeme : List Char}
    (found : rule.lexeme? text = some lexeme) :
    first? text = some (rule, lexeme) := by
  cases rule with
  | word => exact first?_of_word found
  | number =>
      obtain ⟨first, rest, rfl, isDigit, rfl⟩ := exists_of_lexeme?_number found
      exact first?_of_digit isDigit rest
  | newline =>
      obtain ⟨rest, rfl, rfl⟩ := exists_of_lexeme?_newline found
      exact first?_newline rest
  | blanks =>
      obtain ⟨first, rest, rfl, separates, rfl⟩ := exists_of_lexeme?_blanks found
      rw [List.takeWhile_cons_of_pos separates]
      exact first?_of_isSeparator separates rest
  | string =>
      obtain ⟨rest, tail, rfl, tailFound, rfl⟩ := exists_of_lexeme?_string found
      exact first?_quote tailFound
  | comment =>
      obtain ⟨rest, rfl, rfl⟩ := exists_of_lexeme?_comment found
      exact first?_comment rest
  | symbol row => exact (notSymbol row rfl).elim

/-- A symbol that applies, but not first, is a part of what the first rule starts with. -/
theorem isPrefix_opening
    {rule : Rule}
    {row : Symbol}
    {rest lexeme : List Char}
    (listed : .symbol row ∈ all)
    (found : first? (row.pattern.toList ++ rest) = some (rule, lexeme))
    (differs : .symbol row ≠ rule) :
    row.pattern.toList <+: rule.opening ∧
      row.pattern.toList.length < rule.opening.length := by
  obtain ⟨ruleListed, isPart, -⟩ := first?_eq_some found
  have ruleFound := lexeme?_of_first? found
  -- The rule stands before the symbol, or the symbol would have been first.
  have unopened : ¬ rule.opening <+: row.pattern.toList := by
    obtain ⟨earlier, tried, later, split, applied, never⟩ := List.findSome?_eq_some_iff.mp found
    obtain ⟨_, -, same⟩ := Option.map_eq_some_iff.mp applied
    cases same
    have isLater : .symbol row ∈ later := by
      rw [split, List.mem_append, List.mem_cons] at listed
      rcases listed with isEarlier | same | isLater
      · have applies := never _ isEarlier
        simp [lexeme?] at applies
      · exact (differs same).elim
      · exact isLater
    have ordered := pairwise_opening
    rw [split, List.pairwise_append, List.pairwise_cons] at ordered
    exact ordered.2.1.1 _ isLater
      (opening_ne_nil ruleListed (mem_symbols listed) ruleFound)
  have inside : row.pattern.toList <+: rule.opening :=
    (List.prefix_or_prefix_of_prefix (List.prefix_append row.pattern.toList rest)
      ((opening_isPrefix ruleFound).trans isPart)).resolve_right unopened
  refine ⟨inside, Nat.lt_of_le_of_ne inside.length_le fun same => unopened ?_⟩
  rw [inside.eq_of_length same]

/-- The first rule that applies takes more than any other. -/
theorem length_lt_of_first?
    {rule other : Rule}
    {text lexeme part : List Char}
    (found : first? text = some (rule, lexeme))
    (listed : other ∈ all)
    (applies : other.lexeme? text = some part)
    (differs : other ≠ rule) :
    part.length < lexeme.length := by
  by_cases isSymbol : ∃ row, other = .symbol row
  · obtain ⟨row, rfl⟩ := isSymbol
    obtain ⟨rest, rfl, rfl⟩ := exists_of_lexeme?_symbol applies
    exact Nat.lt_of_lt_of_le (isPrefix_opening listed found differs).2
      (opening_isPrefix (lexeme?_of_first? found)).length_le
  · have first := first?_of_lexeme? (by simpa using isSymbol) applies
    rw [found] at first
    cases first
    exact (differs rfl).elim

theorem byteLength_lt_of_first?
    {rule other : Rule}
    {text lexeme part : List Char}
    (found : first? text = some (rule, lexeme))
    (listed : other ∈ all)
    (applies : other.lexeme? text = some part)
    (differs : other ≠ rule) :
    byteLength part < byteLength lexeme := by
  have shorter := length_lt_of_first? found listed applies differs
  -- Both stand at the start of the text, and so the shorter one starts the longer one.
  obtain ⟨more, rfl⟩ := List.prefix_of_prefix_length_le
    (lexeme?_eq_some listed applies).1 (first?_eq_some found).2.1 (Nat.le_of_lt shorter)
  have goesOn : more ≠ [] := by
    rintro rfl
    simp at shorter
  rw [byteLength_append]
  exact Nat.lt_add_of_pos_right (byteLength_pos goesOn)

/-- The pattern of the rule matches at the start of the text, and no pattern matches more
bytes there. -/
structure IsLongest (text : List Char) (rule : Rule) (lexeme : List Char) : Prop where
  listed : rule ∈ all
  matched : rule.pattern.match? text = some lexeme
  most : ∀ other ∈ all, ∀ part ∈ other.pattern.match? text, byteLength part ≤ byteLength lexeme

theorem isLongest_of_first?
    {rule : Rule}
    {text lexeme : List Char}
    (found : first? text = some (rule, lexeme)) :
    IsLongest text rule lexeme := by
  have ruleFound := lexeme?_of_first? found
  refine ⟨(first?_eq_some found).1, by rw [match?_pattern, ruleFound],
    fun other listed part taken => ?_⟩
  rw [match?_pattern, Option.mem_def] at taken
  by_cases same : other = rule
  · subst same
    rw [ruleFound] at taken
    cases taken
    exact Nat.le_refl _
  · exact Nat.le_of_lt (byteLength_lt_of_first? found listed taken same)

/-- Only the first rule that applies has the longest match. -/
theorem first?_of_isLongest
    {rule : Rule}
    {text lexeme : List Char}
    (longest : IsLongest text rule lexeme) :
    first? text = some (rule, lexeme) := by
  obtain ⟨listed, matched, most⟩ := longest
  rw [match?_pattern] at matched
  cases found : first? text with
  | none =>
      have never := List.findSome?_eq_none_iff.mp found rule listed
      simp [matched] at never
  | some taken =>
      obtain ⟨first, firstLexeme⟩ := taken
      have firstFound := lexeme?_of_first? found
      by_cases same : rule = first
      · subst same
        rw [firstFound] at matched
        cases matched
        rfl
      · have atMost := most first (first?_eq_some found).1 firstLexeme
          (by rw [match?_pattern, firstFound]; rfl)
        have more := byteLength_lt_of_first? found listed matched same
        exact (Nat.not_lt.mpr atMost more).elim

/-- The first rule whose pattern matches is the first that applies. -/
theorem exists_first?_of_find?
    {rule : Rule}
    {text : List Char}
    (first : (all.find? fun rule => (rule.pattern.match? text).isSome) = some rule) :
    ∃ lexeme, first? text = some (rule, lexeme) := by
  obtain ⟨isMatch, earlier, later, split, never⟩ := List.find?_eq_some_iff_append.mp first
  obtain ⟨lexeme, found⟩ := Option.isSome_iff_exists.mp isMatch
  rw [match?_pattern] at found
  refine ⟨lexeme, List.findSome?_eq_some_iff.mpr
    ⟨earlier, rule, later, split, by rw [found]; rfl, fun other isEarlier => ?_⟩⟩
  simpa [match?_pattern] using never other isEarlier

end Rule

/-- The text is cut into these lexemes by longest matches, and no pattern matches at what
is left behind them. -/
inductive Munches : List Char -> List (Rule × List Char) -> List Char -> Prop
  | stop
      {left : List Char}
      (never : ∀ rule ∈ Rule.all, rule.pattern.match? left = none) :
      Munches left [] left
  | step
      {rule : Rule}
      {lexeme rest left : List Char}
      {later : List (Rule × List Char)}
      (longest : Rule.IsLongest (lexeme ++ rest) rule lexeme)
      (munches : Munches rest later left) :
      Munches (lexeme ++ rest) ((rule, lexeme) :: later) left

/-- What lexemes come to behind which something is left: their tokens, or the character
that cannot be read. -/
def outcome
    (endable : Bool)
    (offset : Nat)
    (lexemes : List (Rule × List Char)) :
    List Char -> Except Unrecognised (List Token)
  | [] => .ok (tokensOf endable offset lexemes)
  | character :: _ => .error ⟨character, offset + byteLength (joined lexemes)⟩

/-- Cutting by longest matches is cutting by first matches. -/
theorem munches_iff
    {text left : List Char}
    {lexemes : List (Rule × List Char)} :
    Munches text lexemes left ↔ Scans text lexemes left ∧ Rule.first? left = none := by
  have unmatched {left : List Char} :
      (∀ rule ∈ Rule.all, rule.pattern.match? left = none) ↔ Rule.first? left = none := by
    simp [Rule.first?, List.findSome?_eq_none_iff, Rule.match?_pattern]
  constructor
  · intro munches
    induction munches with
    | stop never => exact ⟨.stop _, unmatched.mp never⟩
    | step longest munches ih =>
        exact ⟨.step (Rule.first?_of_isLongest longest) ih.1,
          ih.2⟩
  · rintro ⟨scans, never⟩
    induction scans with
    | stop left => exact .stop (unmatched.mpr never)
    | step found scans ih =>
        exact .step (Rule.isLongest_of_first? found) (ih never)

/-- There is only one way to cut a text until no rule applies. -/
theorem Scans.eq_of_first?_eq_none
    {text left otherLeft : List Char}
    {lexemes others : List (Rule × List Char)}
    (scans : Scans text lexemes left)
    (never : Rule.first? left = none)
    (otherScans : Scans text others otherLeft)
    (otherNever : Rule.first? otherLeft = none) :
    others = lexemes ∧ otherLeft = left := by
  induction scans generalizing others with
  | stop left =>
      cases otherScans with
      | stop => exact ⟨rfl, rfl⟩
      | step found scans =>
          rw [found] at never
          cases never
  | step found scans ih =>
      rename_i rule lexeme rest left later
      generalize same : lexeme ++ rest = text at otherScans
      cases otherScans with
      | stop =>
          rw [← same, found] at otherNever
          cases otherNever
      | step otherFound otherScans =>
          rw [same, otherFound] at found
          cases found
          rw [List.append_cancel_left_eq] at same
          subst same
          obtain ⟨rfl, rfl⟩ := ih never otherScans
          exact ⟨rfl, rfl⟩

/-- Scanning comes to what its lexemes come to. -/
theorem Scans.scan_eq_outcome
    {text left : List Char}
    {lexemes : List (Rule × List Char)}
    (scans : Scans text lexemes left)
    (never : Rule.first? left = none)
    (endable : Bool)
    (offset : Nat) :
    scan endable offset text = outcome endable offset lexemes left := by
  cases left with
  | nil => exact scans.scan_eq endable offset
  | cons character rest => exact scans.scan_eq_error never endable offset

/-- The first pattern that matches at the start of a text matches the most bytes there, at
least one, and scanning goes on just behind them. So scanning cuts a text in the one way
in which longest matches cut it, in no more steps than there are characters. -/
theorem scanning_takes_longest_matches (text : List Char) :
    (∀ rule, (Rule.all.find? fun rule => (rule.pattern.match? text).isSome) = some rule ->
      ∃ lexeme rest, text = lexeme ++ rest ∧ Rule.IsLongest text rule lexeme ∧
        rule.stride lexeme = byteLength lexeme ∧ 1 ≤ byteLength lexeme ∧
        afterBytes (rule.stride lexeme) text = rest ∧
        ∀ endable offset, scan endable offset text = do
          let later <- scan (rule.leavesEndable lexeme endable) (offset + rule.stride lexeme)
            (afterBytes (rule.stride lexeme) text)
          return rule.tokensAt lexeme endable offset ++ later) ∧
    ∃ lexemes left,
      (∀ others remains, Munches text others remains ↔ others = lexemes ∧ remains = left) ∧
      lexemes.length ≤ text.length ∧
      (∀ endable offset, scan endable offset text = outcome endable offset lexemes left) ∧
      ∀ source : Source, source.text.toList = text ->
        source.text.utf8ByteSize < Source.wordSize ->
        Cursor.scan source = .ok (outcome false 0 lexemes left) := by
  constructor
  · intro rule first
    obtain ⟨lexeme, found⟩ := Rule.exists_first?_of_find? first
    have longest := Rule.isLongest_of_first? found
    obtain ⟨listed, ⟨rest, rfl⟩, nonempty⟩ := Rule.first?_eq_some found
    have stride := Rule.stride_eq listed (Rule.lexeme?_of_first? found)
    have unread := Rule.afterBytes_stride found
    refine ⟨lexeme, rest, rfl, longest, stride, byteLength_pos nonempty, unread,
      fun endable offset => ?_⟩
    rw [unread, stride]
    exact scan_append found endable offset
  · obtain ⟨lexemes, left, scans, stuck⟩ := exists_scans text
    have never : Rule.first? left = none := by
      by_cases isEmpty : left = []
      · rw [isEmpty]
        rfl
      · exact stuck isEmpty
    refine ⟨lexemes, left, fun others remains => ?_, scans.length_le,
      scans.scan_eq_outcome never, ?_⟩
    · rw [munches_iff]
      constructor
      · rintro ⟨otherScans, otherNever⟩
        exact scans.eq_of_first?_eq_none never otherScans otherNever
      · rintro ⟨rfl, rfl⟩
        exact ⟨scans, never⟩
    · rintro source rfl short
      rw [Cursor.scan_eq short, scans.scan_eq_outcome never]

end Token
end Frontend
