import Frontend.Proofs.Source.Place
import Frontend.Proofs.Token.Standing

/-!
# Tokens of two texts on separate lines

No lexeme goes on over a newline that it did not already hold, so a newline and a
second text change nothing in the tokens of a first text. They take the place of its
end of file: the newline stands for a terminator exactly where the end of the text
did, and the tokens of the second text come next, as many bytes further on.
-/

namespace Frontend
namespace Token

namespace Rule

theorem takeWhile_append_newline
    (isInside : Char -> Bool)
    (outside : isInside '\n' = false)
    (text rest : List Char) :
    (text ++ '\n' :: rest).takeWhile isInside = text.takeWhile isInside := by
  induction text with
  | nil => simp [outside]
  | cons character text ih =>
      rw [List.cons_append, List.takeWhile_cons, List.takeWhile_cons, ih]

theorem dropWhile_append_newline
    (isInside : Char -> Bool)
    (outside : isInside '\n' = false)
    (text rest : List Char) :
    (text ++ '\n' :: rest).dropWhile isInside = text.dropWhile isInside ++ '\n' :: rest := by
  induction text with
  | nil => simp [outside]
  | cons character text ih =>
      rw [List.cons_append, List.dropWhile_cons, List.dropWhile_cons, ih]
      split <;> rfl

theorem numeral_append_newline (text rest : List Char) :
    numeral (text ++ '\n' :: rest) = numeral text := by
  have outside : Char.isDigit '\n' = false := by decide
  rw [numeral, takeWhile_append_newline _ outside, dropWhile_append_newline _ outside, numeral]
  cases text.dropWhile Char.isDigit with
  | nil => rfl
  | cons next more =>
      by_cases point : next = '.'
      · subst point
        simp only [List.cons_append, takeWhile_append_newline _ outside]
      · simp [point]

theorem stringTail_append_newline (text rest : List Char) :
    stringTail (text ++ '\n' :: rest) = stringTail text := by
  fun_induction stringTail text with
  | case1 => simp [stringTail]
  | case2 => simp [stringTail]
  | case3 => simp [stringTail]
  | case4 escaped more isInside ih =>
      simp [stringTail, isInside, ih]
  | case5 character more notQuote notEscape outside =>
      cases more with
      | nil =>
          simp only [Bool.or_eq_true, decide_eq_true_eq] at outside
          rcases outside with rfl | rfl <;> simp [stringTail]
      | cons next more =>
          have isNewline : character = '\n' := by
            simp only [Bool.or_eq_true, decide_eq_true_eq] at outside
            exact outside.resolve_right fun isEscape => notEscape next more isEscape rfl
          simp [isNewline, stringTail]
  | case6 character more notQuote notEscape isInside ih =>
      rw [List.cons_append, stringTail, if_neg isInside, ih]
      · exact notQuote
      · rintro _ _ rfl
        simp at isInside

/-- A spelling without a newline stands in front of a text or not, whatever follows the
text on the next line. -/
theorem isPrefixOf_append_newline
    {spelling : List Char}
    (onOneLine : '\n' ∉ spelling)
    (text rest : List Char) :
    spelling.isPrefixOf (text ++ '\n' :: rest) = spelling.isPrefixOf text := by
  rw [Bool.eq_iff_iff, List.isPrefixOf_iff_prefix, List.isPrefixOf_iff_prefix]
  refine ⟨fun isPart => ?_, fun isPart => isPart.trans (List.prefix_append _ _)⟩
  rcases List.prefix_or_prefix_of_prefix isPart (List.prefix_append _ _) with
    inside | ⟨further, rfl⟩
  · exact inside
  · rw [List.prefix_append_right_inj] at isPart
    cases further with
    | nil => simp
    | cons next further =>
        obtain ⟨rfl, -⟩ := List.cons_prefix_cons.mp isPart
        exact absurd (by simp) onOneLine

/-- What a rule takes from a text it takes also if a newline follows the text. -/
theorem lexeme?_append_newline
    {rule : Rule}
    (listed : rule ∈ all)
    {text : List Char}
    (nonempty : text ≠ [])
    (rest : List Char) :
    rule.lexeme? (text ++ '\n' :: rest) = rule.lexeme? text := by
  obtain ⟨first, more, rfl⟩ := List.exists_cons_of_ne_nil nonempty
  cases rule with
  | word =>
      simp only [lexeme?, List.cons_append,
        takeWhile_append_newline continuesWord (by decide)]
  | number =>
      have same := numeral_append_newline (first :: more) rest
      rw [List.cons_append] at same
      simp only [lexeme?, List.cons_append, same]
  | newline =>
      by_cases isNewline : first = '\n'
      · simp [lexeme?, isNewline]
      · simp [lexeme?, isNewline]
  | blanks =>
      simp only [lexeme?, takeWhile_append_newline isSeparator (by decide)]
  | string =>
      by_cases isQuote : first = '"'
      · simp [lexeme?, isQuote, stringTail_append_newline]
      · simp [lexeme?, isQuote]
  | comment =>
      by_cases isSlash : first = '/'
      · cases more with
        | nil => simp [lexeme?, isSlash]
        | cons second more =>
            by_cases another : second = '/'
            · subst isSlash another
              simp only [lexeme?, List.cons_append,
                takeWhile_append_newline (fun next => decide (next ≠ '\n')) (by decide)]
            · simp [lexeme?, another]
      · simp [lexeme?, isSlash]
  | symbol row =>
      have onOneLine : ∀ row ∈ symbols, '\n' ∉ row.pattern.toList := by
        decide
      have same := isPrefixOf_append_newline (onOneLine row (mem_symbols listed))
        (first :: more) rest
      simp only [lexeme?, same]

/-- A newline after a text does not change its first lexeme. -/
theorem first?_append_newline
    {text : List Char}
    (nonempty : text ≠ [])
    (rest : List Char) :
    first? (text ++ '\n' :: rest) = first? text := by
  have same : ∀ rules ⊆ all,
      (rules.findSome? fun rule =>
          (rule.lexeme? (text ++ '\n' :: rest)).map fun lexeme => (rule, lexeme)) =
        rules.findSome? fun rule =>
          (rule.lexeme? text).map fun lexeme => (rule, lexeme) := by
    intro rules listed
    induction rules with
    | nil => rfl
    | cons rule rules ih =>
        rw [List.cons_subset] at listed
        rw [List.findSome?_cons, List.findSome?_cons, ih listed.2,
          lexeme?_append_newline listed.1 nonempty]
  exact same all (List.Subset.refl all)

end Rule

/-- The same token, read from a place some bytes further on. -/
def shift (distance : Nat) (token : Token) : Token :=
  { token with span := ⟨token.span.start + distance, token.span.stop + distance⟩ }

theorem terminator_add (endable : Bool) (offset distance : Nat) :
    terminator endable (offset + distance) = (terminator endable offset).map (shift distance) := by
  cases endable <;> simp [terminator, lineBreak, shift]

/-- Lexemes that start further on make the same tokens, further on. -/
theorem tokensOf_add
    (endable : Bool)
    (offset distance : Nat)
    (lexemes : List (Rule × List Char)) :
    tokensOf endable (offset + distance) lexemes =
      (tokensOf endable offset lexemes).map (shift distance) := by
  induction lexemes generalizing endable offset with
  | nil => simp [tokensOf, terminator_add, endOfFile, shift]
  | cons first later ih =>
      rw [tokensOf, tokensOf, Nat.add_right_comm, ih, List.map_append]
      congr 1
      unfold Rule.tokensAt
      split
      next => simp [shift, Nat.add_right_comm]
      next => split <;> simp [terminator_add]

/-- Scanning from a later offset on shifts the tokens. -/
theorem scan_add
    {endable : Bool}
    {offset : Nat}
    {text : List Char}
    {tokens : List Token}
    (scanned : scan endable offset text = .ok tokens)
    (distance : Nat) :
    scan endable (offset + distance) text = .ok (tokens.map (shift distance)) := by
  obtain ⟨lexemes, scans, rfl⟩ := exists_scans_of_scan scanned
  rw [scans.scan_eq, tokensOf_add]

theorem Rule.first?_newline (rest : List Char) :
    first? ('\n' :: rest) = some (.newline, ['\n']) := by
  have outside : startsWord '\n' = false ∧ '\n'.isDigit = false := by decide
  simp [first?, all, lexeme?, outside]

/-- The last token of a lexeme, or the one before it, says whether a statement can end
behind the lexeme. -/
theorem Rule.elim_getLast?_tokensAt
    (rule : Rule)
    (lexeme : List Char)
    (endable : Bool)
    (offset : Nat) :
    (rule.tokensAt lexeme endable offset).getLast?.elim endable (·.kind.endsStatement) =
      rule.leavesEndable lexeme endable := by
  unfold tokensAt leavesEndable
  split
  next => rfl
  next =>
    split
    · cases endable <;> rfl
    · rfl

/-- The end of a text and a newline at its end do the same: the token before either does
not end a statement, and what a second text yields comes next. -/
theorem exists_earlier_of_scan
    {endable : Bool}
    {offset : Nat}
    {text : List Char}
    {tokens : List Token}
    (scanned : scan endable offset text = .ok tokens) :
    ∃ earlier,
      tokens = earlier ++ [endOfFile (offset + byteLength text)] ∧
        earlier.getLast?.elim endable (·.kind.endsStatement) = false ∧
        ∀ next later, scan false (offset + byteLength text + 1) next = .ok later ->
          scan endable offset (text ++ '\n' :: next) = .ok (earlier ++ later) := by
  obtain ⟨lexemes, scans, rfl⟩ := exists_scans_of_scan scanned
  clear scanned
  induction lexemes generalizing endable offset text with
  | nil =>
      cases scans
      -- Whatever is left to be ended, the newline ends as the end of the text did.
      refine ⟨terminator endable offset, rfl, by cases endable <;> rfl, ?_⟩
      intro next later laterScanned
      have found : Rule.first? (['\n'] ++ next) = some (.newline, ['\n']) :=
        Rule.first?_newline next
      exact (scan_append found endable offset).trans (congrArg (· >>= _) laterScanned)
  | cons first others ih =>
      cases scans with
      | @step rule lexeme rest _ _ found scans =>
          obtain ⟨earlier, same, settled, joined⟩ := @ih
            (rule.leavesEndable lexeme endable) (offset + byteLength lexeme) rest scans
          rw [Nat.add_assoc offset, ← byteLength_append] at same joined
          refine ⟨rule.tokensAt lexeme endable offset ++ earlier, ?_, ?_, ?_⟩
          · rw [tokensOf, same, List.append_assoc]
          · rw [← Rule.elim_getLast?_tokensAt rule lexeme endable offset] at settled
            rw [List.getLast?_append]
            cases closing : earlier.getLast? <;> simpa [closing] using settled
          · intro next later laterScanned
            have again : Rule.first? (lexeme ++ (rest ++ '\n' :: next)) = some (rule, lexeme) := by
              rw [← List.append_assoc, Rule.first?_append_newline, found]
              exact List.append_ne_nil_of_left_ne_nil (Rule.first?_eq_some found).2.2 rest
            rw [List.append_assoc, scan_append again, joined next later laterScanned,
              List.append_assoc]
            rfl

namespace Rule

/-- A newline stands in no lexeme but its own. -/
theorem eq_newline_of_mem
    {rule : Rule}
    {text lexeme : List Char}
    (found : first? text = some (rule, lexeme))
    (member : '\n' ∈ lexeme) :
    rule = .newline := by
  obtain ⟨listed, ⟨rest, rfl⟩, -⟩ := first?_eq_some found
  obtain ⟨before, after, rfl⟩ := List.append_of_mem member
  rw [List.append_assoc, List.cons_append] at found
  cases before with
  | nil =>
      rw [List.nil_append, first?_newline] at found
      cases found
      rfl
  | cons first more =>
      -- The rule would take the same without the newline, and thus less than it takes.
      have taken := lexeme?_of_first? found
      rw [lexeme?_append_newline listed (List.cons_ne_nil first more)] at taken
      have short := (lexeme?_eq_some listed taken).1.length_le
      simp only [List.length_append, List.length_cons] at short
      omega

end Rule

end Token

namespace LineIndex

theorem startsAfter_append_text (offset : Nat) (first second : List Char) :
    startsAfter offset (first ++ second) =
      startsAfter offset first ++ startsAfter (offset + Token.byteLength first) second := by
  induction first generalizing offset with
  | nil => rfl
  | cons character first ih =>
      rw [List.cons_append, startsAfter, startsAfter, ih,
        Token.byteLength_cons, Nat.add_assoc]
      split <;> rfl

/-- Lines that start beyond an offset do not count. -/
theorem placeFrom_append
    {offset : Nat}
    {later : List Nat}
    (beyond : ∀ next ∈ later, offset < next)
    (line start : Nat)
    (starts : List Nat) :
    placeFrom offset line start (starts ++ later) = placeFrom offset line start starts := by
  induction starts generalizing line start with
  | nil =>
      cases later with
      | nil => rfl
      | cons next later =>
          rw [List.forall_mem_cons] at beyond
          rw [List.nil_append, placeFrom, placeFrom, if_neg (Nat.not_le_of_lt beyond.1)]
  | cons next starts ih =>
      rw [List.cons_append, placeFrom, placeFrom, ih]

end LineIndex

namespace Source

/-- A source and, from its next line on, the text of a second one. -/
def followedBy (first second : Source) : Source where
  text := first.text ++ "\n" ++ second.text
  file := first.file

theorem toList_text_followedBy (first second : Source) :
    (first.followedBy second).text.toList = first.text.toList ++ '\n' :: second.text.toList := by
  simp [followedBy]

/-- Places in the first text stay where they are. -/
theorem place_followedBy
    (first second : Source)
    {offset : Nat}
    (inside : offset ≤ first.text.utf8ByteSize) :
    (first.followedBy second).place offset = first.place offset := by
  have beyond : ∀ next ∈ LineIndex.startsAfter first.text.utf8ByteSize
      ('\n' :: second.text.toList), offset < next := fun next member =>
    Nat.lt_of_le_of_lt inside (LineIndex.lt_of_mem_startsAfter member)
  have starts : (first.followedBy second).lines.starts = first.lines.starts ++
      LineIndex.startsAfter first.text.utf8ByteSize ('\n' :: second.text.toList) := by
    rw [(first.followedBy second).lines_eq, first.lines_eq, LineIndex.ofText,
      LineIndex.ofText, toList_text_followedBy, LineIndex.startsAfter_append_text,
      Nat.zero_add, Token.byteLength_toList, List.cons_append]
  simp only [place, LineIndex.place, starts, LineIndex.placeFrom_append beyond]
  rfl

/-- The tokens of a source that is followed by another. -/
theorem exists_tokens_followedBy
    {first second : Source}
    {tokens later : List Token}
    (firstScanned : Token.scan false 0 first.text.toList = .ok tokens)
    (secondScanned : Token.scan false 0 second.text.toList = .ok later) :
    ∃ earlier,
      tokens = earlier ++ [Token.endOfFile first.text.utf8ByteSize] ∧
        (∀ token ∈ earlier.getLast?, token.kind.endsStatement = false) ∧
        Token.scan false 0 (first.followedBy second).text.toList =
          .ok (earlier ++ later.map (Token.shift (first.text.utf8ByteSize + 1))) := by
  obtain ⟨earlier, same, settled, joined⟩ := Token.exists_earlier_of_scan firstScanned
  rw [Nat.zero_add, Token.byteLength_toList] at same joined
  have moved := Token.scan_add secondScanned (first.text.utf8ByteSize + 1)
  rw [Nat.zero_add] at moved
  refine ⟨earlier, same, fun token closing => ?_, ?_⟩
  · rw [Option.mem_def] at closing
    rwa [closing] at settled
  · rw [toList_text_followedBy]
    exact joined _ _ moved

end Source

end Frontend
